import Netlist.Format.Print
import Netlist.Liveness

/-!
# Audits

`audit` compares a circuit with the one it was made from by optimization: the outputs have the same
names, no `mov` is left, no node is defined twice, and the circuit can be written. The lists of
names are compared as they are shown, sorted and with commas between them.

A circuit is closed when every node that an operation reads is a constant, a memory or the
destination of an operation.
-/

namespace Netlist.Graph

/-- The names of the outputs in the order of their bytes. -/
def outputNames (g : Graph) : List Text :=
  (g.outputs.map (·.dest.name)).mergeSort fun a b => decide (a ≤ b)

def audit (source result : Graph) : Except Error Unit :=
  if Text.join "," source.outputNames ≠ Text.join "," result.outputNames then
    .error (.outputsChanged source.outputNames result.outputNames)
  else match result.operations.find? (·.opcode = .mov) with
    | some op => .error (.movLeft op.text)
    | none => do
      result.singleAssignment
      result.writable

/-- Whether a node has a value without being produced. -/
def isGiven (v : Node) : Bool := v.isConstant || v.isMemory

/-- The first node that an operation reads though nothing gives it a value. -/
def dangling? (g : Graph) : Option (Node × Operation) :=
  g.operations.findSome? fun op =>
    (op.sources.find? fun v => !isGiven v && (g.producer? v).isNone).map fun v => (v, op)

def closed (g : Graph) : Except Error Unit := do
  g.singleAssignment
  match g.dangling? with
  | some (v, op) => .error (.invariant ⟨"fuzz", v.name, .dangling op.text⟩)
  | none => return ()

end Netlist.Graph
