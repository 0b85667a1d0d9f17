import Netlist.Circuit.Graph

/-!
# Leaves of an operation

The operations of one connective that feed a root form a graph over their leaves, the sources that
none of them produces. `leaves` lists the leaves in the order in which a depth-first search meets
them and keeps those that count: for an idempotent connective all of them, for `xor` the ones that
an odd number of paths leads to.

The number of paths, as far as it counts, goes from the root down: a node is *live* when it counts,
and each source of a live operation is combined with the liveness it has already got. If the search
comes back to an operation that it has not finished, the operations form a loop and there are no
leaves to speak of.
-/

namespace Netlist.Bitwise

/-- The operation of the connective, among the given ones, that produces a node. -/
def inner? (b : Bitwise) (ops : List Operation) (v : Node) : Option Operation :=
  (ops.find? (·.dest = v)).filter (·.opcode = b.opcode)

/-- What a depth-first search has found: leaves in the order met, and finished operations, the last
one first. -/
structure Walk where
  leaves : List Node := []
  finished : List Operation := []
  deriving DecidableEq, Repr

namespace Walk

def meet (w : Walk) (v : Node) : Walk :=
  if v ∈ w.leaves then w else { w with leaves := w.leaves ++ [v] }

def finish (w : Walk) (op : Operation) : Walk := { w with finished := op :: w.finished }

end Walk

/-- Searches from the last operation of a path, which is given in reverse. Fails with the node at
which a loop closes. A path visits no operation twice, so `depth` need not exceed the number of
operations by more than one. -/
def visit (b : Bitwise) (ops : List Operation) :
    (depth : Nat) → (path : List Operation) → Operation → Walk → Except Node Walk
  | 0, _, _, w => .ok w
  | depth + 1, path, op, w => do
    let w ← op.sources.foldlM (fun w v => match inner? b ops v with
      | none => .ok (w.meet v)
      | some p =>
        if p ∈ w.finished then .ok w
        else if p ∈ op :: path then .error v
        else visit b ops depth (op :: path) p w) w
    return w.finish op

/-- Adds a live path to a node. -/
def revive (b : Bitwise) (live : List Node) (v : Node) : List Node :=
  if v ∈ live then if b.isIdempotent then live else live.erase v else v :: live

/-- Passes the liveness of an operation on to its sources. -/
def spread (b : Bitwise) (live : List Node) (op : Operation) : List Node :=
  op.sources.foldl (fun live v => if op.dest ∈ live then b.revive live v else live) live

def passName (b : Bitwise) : Text := "balance_bitwise_op: " ++ b.opcode.name

def leaves (b : Bitwise) (ops : List Operation) (root : Operation) : Except Error (List Node) :=
  match b.visit ops (ops.length + 1) [] root {} with
  | .error v => .error (.invariant ⟨b.passName, v.name, .loop⟩)
  | .ok w =>
    let live := w.finished.foldl b.spread [root.dest]
    .ok (w.leaves.filter (· ∈ live))

end Netlist.Bitwise
