import Netlist.Numeral
import Netlist.Pipeline.Stage
import Netlist.Report.Duration

/-!
# Statistics of a run

Each pass of a run is recorded with the number of operations before and after it and the time that
it took. A summary is the same for readers who do not know the stages.

`recordSheet` lists the record of a run, a row for each pass, with the change over all passes at the
foot. Differences of counts and sums of times are machine words there. A sheet holds values; their
texts are left to the layout that it is printed with.
-/

namespace Netlist

structure PassRecord where
  stage : Stage
  name : Text
  before : Int
  after : Int
  elapsed : Duration
  deriving DecidableEq, Repr

structure PassSummary where
  stage : Text
  name : Text
  before : Int
  after : Int
  elapsed : Duration
  deriving DecidableEq, Repr

namespace PassSummary

def removed (s : PassSummary) : Int := s.before - s.after

end PassSummary

namespace PassRecord

def summary (r : PassRecord) : PassSummary := ⟨r.stage.name, r.name, r.before, r.after, r.elapsed⟩

end PassRecord

/-- A value in a table. -/
inductive Item where
  | text (t : Text)
  | stage (s : Stage)
  | count (i : Int)
  | time (d : Duration)
  deriving DecidableEq, Repr

structure Sheet where
  head : List Item
  rows : List (List Item)
  foot : Option (List Item)
  deriving DecidableEq, Repr

def recordHead : List Item :=
  [.text "#", .text "Stage", .text "Pass", .text "Ops In", .text "Ops Out", .text "Delta",
    .text "Elapsed"]

def recordRow (r : PassRecord) (i : Nat) : List Item :=
  [.count i, .stage r.stage, .text r.name, .count r.before, .count r.after,
    .count (wrap (r.after - r.before)), .time r.elapsed]

def totalTime (records : List PassRecord) : Duration :=
  ⟨wrap (records.foldr (fun r total => r.elapsed.nanoseconds + total) 0)⟩

/-- The change over all passes, if there are any. -/
def totalRow? (records : List PassRecord) : Option (List Item) := do
  let first ← records.head?
  let last ← records.getLast?
  return [.text [], .text [], .text "total", .count first.before, .count last.after,
    .count (wrap (last.after - first.before)), .time (totalTime records)]

def recordSheet (records : List PassRecord) : Sheet where
  head := recordHead
  rows := records.zipIdx.map fun (r, i) => recordRow r i
  foot := totalRow? records

end Netlist
