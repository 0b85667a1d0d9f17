import Netlist.Pipeline.Registry

/-!
# Hosts

A host has a clock that shows one time after another, the record of its last successful run, and
all that its runs have logged, dumped and printed. The passes may have a state of their own, which
the host does not touch, and which they alone can change.
-/

namespace Netlist

structure Host where
  times : Nat → Int
  /-- How often the clock has been read. -/
  readings : Nat := 0
  record : List PassRecord := []
  log : List LogMessage := []
  dump : Text := []
  diagnostics : Text := []

namespace Host

variable {n : Type → Type} [Monad n]

def now : StateT Host n Int :=
  modifyGet fun h => (h.times h.readings, { h with readings := h.readings + 1 })

/-- The context of a run that dumps circuits or prints a table if it is asked to. -/
def context (layout : Layout) (dump diagnostics : Bool) : Context (StateT Host n) where
  now := now
  keep records := modify fun h => { h with record := records }
  log message := modify fun h => { h with log := h.log ++ [message] }
  dump := if dump then some fun t => modify fun h => { h with dump := h.dump ++ t } else none
  diagnostics := if diagnostics
    then some fun t => modify fun h => { h with diagnostics := h.diagnostics ++ t } else none
  layout := layout

def summaries (h : Host) : List PassSummary := h.record.map PassRecord.summary

end Host

/-- What a run leaves behind: its result and the registry, the host, and the state of the passes. -/
structure Outcome (σ : Type) where
  result : Except Error Graph
  registry : Registry (StateM σ)
  host : Host
  state : σ

namespace Registry

variable {σ : Type}

def outcome (layout : Layout) (dump diagnostics : Bool) (r : Registry (StateM σ)) (g : Graph)
    (h : Host) (s : σ) : Outcome σ :=
  let (((result, registry), host), state) :=
    Id.run (StateT.run (StateT.run (r.run (Host.context layout dump diagnostics) g) h) s)
  ⟨result, registry, host, state⟩

end Registry

end Netlist
