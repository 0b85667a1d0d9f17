import Netlist.Text.Blank
import Netlist.Text.Columns

/-!
# Cells

A cell of a table holds a text of one or more lines. A tab in it becomes four spaces. A carriage
return before a line feed is dropped; any other one leads back to the start of its line, and what
follows it is written over what stands there.

A cell keeps its place in the column: `pad` brings a line of it to the width of the column, with the
spaces on the side that its alignment leaves free.
-/

namespace Netlist

inductive Alignment where
  | left | right
  deriving DecidableEq, Repr

namespace Cell

open Text

def space (n : Nat) : Text := List.replicate n 32

def expandTabs (t : Text) : Text := t.flatMap fun b => if b = 9 then space 4 else [b]

/-- Writes symbols into a line with the cursor between `left`, which is in reverse, and `right`. -/
def overtype (left right : List Symbol) : List Symbol → List Symbol
  | [] => left.reverse ++ right
  | x :: rest =>
    if x = .char '\r' then overtype [] (left.reverse ++ right) rest
    else overtype (x :: left) right.tail rest

/-- What a line shows after its carriage returns. Stray bytes stay as they are if it has none. -/
def settle (line : Text) : Text :=
  if 13 ∈ line then
    (overtype [] [] (symbols line)).flatMap fun x => (Symbol.char x.character).bytes
  else line

def lines (cell : Text) : List Text :=
  let parts := split lineFeed (expandTabs cell)
  ((parts.dropLast.map dropReturn) ++ parts.getLast?.toList).map settle

/-- The columns that a cell needs. -/
def width (cell : Text) : Nat := widest (join "\n" (lines cell))

/-- Brings a line to a width. The spaces on its free side give way to those that fill the width. -/
def pad (width : Nat) (a : Alignment) (line : Text) : Text :=
  match a with
  | .left =>
    let shown := (line.reverse.dropWhile (· == 32)).reverse
    shown ++ space (width - columns shown)
  | .right =>
    let shown := line.dropWhile (· == 32)
    space (width - columns shown) ++ shown

end Cell

end Netlist
