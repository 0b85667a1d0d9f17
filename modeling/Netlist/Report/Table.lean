import Netlist.Pipeline.Context
import Netlist.Report.Cell

/-!
# Tables

A table is drawn with a frame of `+`, `-` and `|`. It has a head, rows and possibly a foot; each
column is as wide as its widest cell and aligned to one side throughout. A row is drawn on as many
lines as the longest of its cells has; the others end with empty lines.

A sheet becomes a table with head and foot in capitals. A column is set to the right if there are
rows and it holds nothing but numbers there; stages and times count as numbers.
-/

namespace Netlist

structure Table where
  alignments : List Alignment
  head : List Text
  rows : List (List Text)
  foot : Option (List Text)
  deriving DecidableEq, Repr

namespace Table

def allRows (t : Table) : List (List Text) := t.head :: t.rows ++ t.foot.toList

/-- The width of each column. -/
def widths (t : Table) : List Nat :=
  t.allRows.foldl (fun ws row => ws.zipWith (fun w cell => max w (Cell.width cell)) row)
    (t.alignments.map fun _ => 0)

/-- Each column with its width and its alignment. -/
def columns (t : Table) : List (Nat × Alignment) := t.widths.zip t.alignments

def line (n : Nat) : Text := List.replicate n 45

def border (columns : List (Nat × Alignment)) : Text :=
  "+" ++ Text.join [] (columns.map fun (width, _) => line (width + 2) ++ "+") ++ "\n"

/-- One line of a row, from the line that each cell has there. -/
def drawLine (columns : List (Nat × Alignment)) (lines : List Text) : Text :=
  let parts := columns.zipWith (fun (width, a) line => " " ++ Cell.pad width a line ++ " |") lines
  "|" ++ Text.join [] parts ++ "\n"

/-- The lines of a row, as many as are asked for. -/
def drawLines (columns : List (Nat × Alignment)) : (height : Nat) → List (List Text) → Text
  | 0, _ => []
  | height + 1, cells =>
    drawLine columns (cells.map (·.headD [])) ++ drawLines columns height (cells.map List.tail)

def drawRow (columns : List (Nat × Alignment)) (row : List Text) : Text :=
  let cells := row.map Cell.lines
  drawLines columns (cells.foldl (fun n lines => max n lines.length) 0) cells

def draw (t : Table) : Text :=
  let columns := t.columns
  let border := border columns
  border ++ drawRow columns t.head ++ border ++ t.rows.flatMap (drawRow columns) ++ border ++
    (t.foot.toList.flatMap fun row => drawRow columns row ++ border)

end Table

namespace Item

def isNumber : Item → Bool
  | text _ => false
  | _ => true

def cell : Item → Text
  | text t => t
  | stage s => s.name
  | count i => Text.ofInt i
  | time d => d.text

/-- A cell in capitals; the capital of the micro sign is the Greek letter. -/
def capitals : Text → Text
  | 0xC2 :: 0xB5 :: t => "Μ" ++ capitals t
  | b :: t => Text.capital b :: capitals t
  | [] => []

end Item

namespace Sheet

def alignment (s : Sheet) (column : Nat) : Alignment :=
  if !s.rows.isEmpty && s.rows.all fun row => row[column]?.all Item.isNumber then .right else .left

def table (s : Sheet) : Table where
  alignments := (List.range s.head.length).map s.alignment
  head := s.head.map fun i => Item.capitals i.cell
  rows := s.rows.map (·.map Item.cell)
  foot := s.foot.map (·.map fun i => Item.capitals i.cell)

end Sheet

/-- The layout that the commands print with. -/
def Layout.framed : Layout where
  line := LogMessage.line
  table s := s.table.draw
  graph g := "(*flo.Graph)(" ++ g.text ++ ")\n"

end Netlist
