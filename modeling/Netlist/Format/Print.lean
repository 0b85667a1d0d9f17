import Netlist.Circuit.Graph

/-!
# Texts of circuits

A circuit can be written if the width of every operand and the width and depth of every memory are
known. Its text declares the memories, in the order of the nodes, and then lists the operations, one
on a line.
-/

namespace Netlist.Graph

/-- The first memory without a width or a depth. -/
def unsizedMemory? (g : Graph) : Option Node :=
  g.memories.find? fun v => !(v.width.isKnown && v.depth.isKnown)

/-- The first operation that has an operand of unknown width, with the first such operand. -/
def unknownWidth? (g : Graph) : Option (Node × Operation) :=
  g.operations.findSome? fun op =>
    (op.operands.find? fun v => !v.width.isKnown).map fun v => (v, op)

/-- The error for an operand of unknown width. -/
def unknownWidthError (v : Node) (op : Operation) : Error :=
  .invariant ⟨"writer", v.name, .unknownWidth op.text⟩

def writable (g : Graph) : Except Error Unit :=
  match g.unsizedMemory?, g.unknownWidth? with
  | some v, _ => .error (.invariant ⟨"writer", v.name, .unsizedMemory⟩)
  | none, some (v, op) => .error (unknownWidthError v op)
  | none, none => .ok ()

def declarationLine (v : Node) : Text :=
  v.name ++ " = mem'" ++ Text.ofInt v.width ++ " " ++ Text.ofInt v.depth ++ "\n"

def operationLine (op : Operation) : Text := op.text ++ "\n"

def print (g : Graph) : Text :=
  g.memories.flatMap declarationLine ++ g.operations.flatMap operationLine

def write (g : Graph) : Except Error Text := do
  g.writable
  return g.print

/-- Writes to a sink that may refuse the text. -/
def writeTo {m : Type → Type} [Monad m] (g : Graph) (sink : Text → m (Except Error Unit)) :
    m (Except Error Unit) :=
  match g.write with
  | .error e => return .error e
  | .ok t => sink t

end Netlist.Graph
