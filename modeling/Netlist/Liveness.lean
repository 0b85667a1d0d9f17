import Netlist.Circuit.Graph
import Netlist.Search

/-!
# Elimination of dead code

The operations that matter are the outputs and, with an operation, the producers of its sources.
`eliminateDeadCode` keeps them, in the order in which a breadth-first search from each output in
turn meets their destinations, and the memories that they read. Constants and memories are not
produced by operations; any other node that is met must be.
-/

namespace Netlist.Graph

/-- The nodes that the value of a node is computed from. -/
def dependencies (g : Graph) (v : Node) : List Node :=
  if v.isConstant || v.isMemory then [] else ((g.producer? v).map Operation.sources).getD []

def outputs (g : Graph) : List Operation := g.operations.filter (·.opcode = .output)

/-- The nodes that the outputs depend on and the outputs themselves. -/
def liveNodes (g : Graph) : List Node :=
  exploreAll g.dependencies g.nodes (g.outputs.map Operation.operands)

def deadCodeName : Text := "dead_code_elimination"

def liveProducer (g : Graph) (v : Node) : Except Error Operation :=
  match g.producer? v with
  | some op => .ok op
  | none => .error (.invariant ⟨deadCodeName, v.name, .unproduced⟩)

def eliminateDeadCode (g : Graph) : Except Error Graph := do
  g.singleAssignment
  let live := g.liveNodes
  let operations ← (live.filter fun v => !v.isConstant && !v.isMemory).mapM g.liveProducer
  return {
    operations := operations
    declared := live.filter Node.isMemory
    generation := g.lastTag }

end Netlist.Graph
