import Netlist.Circuit.Graph
import Netlist.Report.Log

/-!
# What surrounds a run

A run of passes reads a clock, logs what it does, writes dumps and tables to where it is asked to,
and replaces the record that is kept of the last run. A `Context` offers all that in some monad.

How messages, tables and circuits are put into words is no business of a run: the `Layout` of the
context says it.
-/

namespace Netlist

structure Layout where
  line : LogMessage → Text
  table : Sheet → Text
  graph : Graph → Text

variable {m : Type → Type}

/-- Prints a record as a table. -/
def renderRecords (layout : Layout) (write : Text → m Unit) (records : List PassRecord) : m Unit :=
  write (layout.table (recordSheet records))

structure Context (m : Type → Type) where
  /-- The time in nanoseconds. -/
  now : m Int
  keep : List PassRecord → m Unit
  log : LogMessage → m Unit
  /-- Where circuits are dumped, if they are. -/
  dump : Option (Text → m Unit)
  /-- Where the table is printed, if it is. -/
  diagnostics : Option (Text → m Unit)
  layout : Layout

namespace Context

/-- A context that shows nothing of a run. -/
def quiet [Pure m] : Context m where
  now := pure 0
  keep _ := pure ()
  log _ := pure ()
  dump := none
  diagnostics := none
  layout := ⟨fun _ => [], fun _ => [], fun _ => []⟩

end Context

end Netlist
