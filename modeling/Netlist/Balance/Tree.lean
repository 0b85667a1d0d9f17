import Netlist.Circuit.Temporary

/-!
# Balanced trees

`combine` joins a queue of nodes to one. It takes the first two off the queue, writes an operation
that combines them into a temporary, and puts the temporary at the end of the queue, until a single
node is left. That is a tree of least depth over the nodes of the queue.
-/

namespace Netlist.Bitwise

/-- The operations of a tree, from the leaves on, with its root. -/
structure Tree where
  operations : List Operation
  root : Node
  minter : Minter
  deriving DecidableEq, Repr

/-- The operation that combines two nodes into a temporary as wide as the first. -/
def pair (b : Bitwise) (t x y : Node) : Operation := ⟨t, t.width, b.opcode, [x, y]⟩

def combine (b : Bitwise) (m : Minter) (x : Node) (queue : List Node) : Tree :=
  match queue with
  | [] => ⟨[], x, m⟩
  | [y] =>
    let (t, m) := m.mint x
    ⟨[b.pair t x y], t, m⟩
  | y :: z :: rest =>
    let (t, m) := m.mint x
    let tree := b.combine m z (rest ++ [t])
    { tree with operations := b.pair t x y :: tree.operations }
termination_by queue.length

end Netlist.Bitwise
