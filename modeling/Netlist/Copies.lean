import Netlist.Circuit.Graph

/-!
# Elimination of copies

A `mov` copies its only source. `eliminateCopies` drops every `mov` and lets the other operations
read its source in place of its destination. A copy of a copy is followed one step only.
-/

namespace Netlist.Graph

def copies (g : Graph) : List Operation := g.operations.filter (·.opcode = .mov)

def copyName : Text := "mov_elision"

/-- The source that a node is copied from by the last `mov` to it; a node that is no copy stands for
itself. -/
def copied (copies : List Operation) (v : Node) : Node :=
  ((copies.findRev? (·.dest = v)).bind (·.sources.head?)).getD v

def eliminateCopies (g : Graph) : Except Error Graph :=
  match g.copies.find? (·.sources.length ≠ 1) with
  | some op => .error (.invariant ⟨copyName, op.dest.name, .movSources op.sources.length⟩)
  | none => .ok {
      operations := (g.operations.filter (·.opcode ≠ .mov)).map fun op =>
        { op with sources := op.sources.map (copied g.copies) }
      declared := g.memories
      generation := g.lastTag }

end Netlist.Graph
