import Netlist.Balance.Leaves
import Netlist.Balance.Tree
import Netlist.Component

/-!
# Balancing a circuit

The operations of a connective are rebuilt component by component, where the edges of the connective
connect the nodes. In a component of at least three operations every operation of the connective
that the component does not read again is an end: its leaves are combined by a balanced tree, and a
`mov` brings the tree's root to its destination. All other operations are kept, and each comes once;
the producers of an end's leaves come before its tree.

A component is rebuilt by a task of its own, whose breakdown is reported as an error. The tasks do
not depend on one another; here they run one after the other.
-/

namespace Netlist.Bitwise

/-- The operations of a component rebuilt so far, and those that need no more attention. -/
structure Draft where
  output : List Operation := []
  done : List Operation := []
  minter : Minter
  deriving DecidableEq, Repr

namespace Draft

def emit (d : Draft) (op : Operation) : Draft :=
  if op ∈ d.done then d else { d with output := d.output ++ [op], done := op :: d.done }

/-- Emits the operation that produces a node, if there is one. -/
def emitProducer (ops : List Operation) (d : Draft) (v : Node) : Draft :=
  match ops.find? (·.dest = v) with
  | some p => d.emit p
  | none => d

/-- Puts a tree in the place of an operation. -/
def replace (d : Draft) (op : Operation) (tree : Tree) : Draft where
  output := d.output ++ tree.operations ++ [⟨op.dest, op.width, .mov, [tree.root]⟩]
  done := op :: d.done
  minter := tree.minter

end Draft

/-- Whether an operation is of the connective and no operation of its component reads it. -/
def isEnd (b : Bitwise) (ops : List Operation) (op : Operation) : Bool :=
  op.opcode = b.opcode && !ops.any (op.dest ∈ ·.sources)

def rebuildEnd (b : Bitwise) (ops : List Operation) (d : Draft) (op : Operation) :
    Except Error Draft :=
  match b.leaves ops op with
  | .error e => .error e
  | .ok [] => .ok (d.emit op)
  | .ok (v :: rest) =>
    let d := (v :: rest).foldl (Draft.emitProducer ops) d
    .ok (d.replace op (b.combine d.minter v rest))

/-- Components with fewer operations than this cannot be made any shallower. -/
def leastOperations : Nat := 3

def rebuild (b : Bitwise) (m : Minter) (ops : List Operation) : Except Error (List Operation) :=
  if ops.length < leastOperations then .ok ops
  else do
    let d ← (ops.filter (b.isEnd ops)).foldlM (b.rebuildEnd ops) { minter := m }
    return (ops.foldl Draft.emit d).output

/-- The answer of the task for a component. A task that breaks down with a reason has failed. -/
def protect {α : Type} (b : Bitwise) (id : Int) : Except Text (Except Error α) → Except Error α
  | .ok answer => answer
  | .error reason => .error (.invariant ⟨b.passName, [], .crash id reason⟩)

def balance (b : Bitwise) (g : Graph) : Except Error Graph := do
  let components ← g.components (·.operation.opcode = b.opcode)
  let minter := Minter.ofGraph g 0
  let rebuilt ← components.zipIdx.mapM fun (c, id) =>
    b.protect id (.ok (b.rebuild { minter with scope := id } c.operations))
  return { operations := rebuilt.flatten, declared := g.memories, generation := minter.tag }

end Netlist.Bitwise
