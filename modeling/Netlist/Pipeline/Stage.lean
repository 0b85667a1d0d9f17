import Netlist.Text.Basic

/-!
# Stages

Passes run in stages, one after the other. A stage is stored in one byte; the codes from 3 on are
not assigned and no pass can be registered for them.
-/

namespace Netlist

inductive Stage where
  | prepare
  | rebalance
  | lateElimination
  | unassigned (n : Fin 253)
  deriving DecidableEq, Repr

namespace Stage

/-- The stages in the order in which they run. -/
def all : List Stage := [prepare, rebalance, lateElimination]

def name : Stage → Text
  | prepare => "prepare"
  | rebalance => "rebalance"
  | lateElimination => "late_dce"
  | unassigned n => "stage(" ++ Text.decimal (3 + n) ++ ")"

def ofCode (code : UInt8) : Stage :=
  if code.toNat = 0 then prepare
  else if code.toNat = 1 then rebalance
  else if code.toNat = 2 then lateElimination
  else unassigned ⟨code.toNat - 3, by
    have := code.toNat_lt
    omega⟩

theorem mem_all {s : Stage} : s ∈ all ↔ ∀ n, s ≠ unassigned n := by
  cases s <;> simp [all]

end Stage

end Netlist
