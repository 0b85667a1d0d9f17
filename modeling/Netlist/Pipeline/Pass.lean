import Netlist.Balance.Rebuild
import Netlist.Copies
import Netlist.Liveness
import Netlist.Pipeline.Stage

/-!
# Passes

A pass makes a circuit from a circuit, or fails. What else it does is in the monad of its answers;
the passes of the library do nothing else and answer in any monad.

`standardPasses` is the optimizer: the connectives are balanced one after another, and then what has
become dead or a mere copy is removed.
-/

namespace Netlist

structure Pass (n : Type → Type) where
  name : Text
  apply : Graph → n (Except Error Graph)

variable {n : Type → Type} [Pure n]

namespace Bitwise

def pass (b : Bitwise) : Pass n := ⟨b.passName, fun g => pure (b.balance g)⟩

end Bitwise

namespace Pass

def deadCode : Pass n := ⟨Graph.deadCodeName, fun g => pure g.eliminateDeadCode⟩

def copies : Pass n := ⟨Graph.copyName, fun g => pure g.eliminateCopies⟩

/-- The pass that balances an opcode, which must be associative. -/
def balancer (op : Opcode) : Except Misuse (Pass n) :=
  match Bitwise.ofOpcode? op with
  | some b => .ok b.pass
  | none => .error (.notAssociative op.name)

/-- A pass that does the same to every circuit: it gives the circuit back, or gives another one, or
fails. -/
def constant (name : Text) (result : Except Error (Option Graph)) : Pass n :=
  ⟨name, fun g => pure (result.map (·.getD g))⟩

end Pass

/-- A pass with the stage it belongs to. -/
structure Registration (n : Type → Type) where
  pass : Pass n
  stage : Stage

def standardPasses : List (Registration n) :=
  [⟨Bitwise.and.pass, .rebalance⟩, ⟨Bitwise.or.pass, .rebalance⟩, ⟨Bitwise.xor.pass, .rebalance⟩,
   ⟨.deadCode, .lateElimination⟩, ⟨.copies, .lateElimination⟩]

end Netlist
