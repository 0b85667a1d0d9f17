import Netlist.Error
import Netlist.Numeral

/-!
# Settings

The settings of the optimizer come from the environment or from its caller. A number in the
environment is a numeral for an unsigned word that must not be smaller than some bound once it is
taken as a signed word, so values from `2 ^ 63` on count as too small.

The number of workers says how many components may be balanced at a time. The passes of the library
balance them one after another and do not look at it.
-/

namespace Netlist

/-- The number that the text of a setting gives, or a default if the text is empty. -/
def settingNumber (key value : Text) (default least : Int) : Except Misuse Int :=
  if value.isEmpty then .ok default
  else match Numeral.natural (some Numeral.wordLimit) value with
    | .error _ => .error (.invalidSetting key)
    | .ok n => if wrap n < least then .error (.settingTooSmall key) else .ok (wrap n)

structure Settings where
  workers : Int := 1
  diagnostics : Bool := false
  dump : Bool := false
  deriving DecidableEq, Repr

namespace Settings

def ofEnvironment (environment : Text → Text) : Except Misuse Settings := do
  let number (key : Text) (default : Int) := settingNumber key (environment key) default 0
  return {
    workers := ← number "FLOOPT_WORKERS" 1
    diagnostics := (← number "FLOOPT_DIAGNOSTICS" 0) ≠ 0
    dump := (← number "FLOOPT_DUMP_GRAPHS" 0) ≠ 0 }

def withWorkers (s : Settings) (n : Int) : Except Misuse Settings :=
  if n < 0 then .error (.workerCount n) else .ok { s with workers := n }

/-- The workers to start on a machine: one for each core if no number is set. -/
def workersOn (s : Settings) (cores : Nat) : Int :=
  if s.workers ≠ 0 then s.workers else if 0 < cores then cores else 1

end Settings

end Netlist
