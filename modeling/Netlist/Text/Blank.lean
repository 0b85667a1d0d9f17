import Netlist.Text.Basic

/-!
# Blanks, words and lines

`blanks` lists the characters with the Unicode property White_Space, each as its bytes. The first
byte of a blank never occurs inside the encoding of another character, so looking for blanks byte by
byte finds exactly the blank characters of a text, also where the text is not valid UTF-8.

`trimStart` and `trimEnd` drop the blanks at one end, `words` cuts a text at its blanks, and `lines`
cuts it at its line feeds.
-/

namespace Netlist.Text

def blanks : List Text :=
  ["\t", "\n", "\x0b", "\x0c", "\r", " ", "\u0085", "\u00a0", "\u1680", "\u2000", "\u2001",
   "\u2002", "\u2003", "\u2004", "\u2005", "\u2006", "\u2007", "\u2008", "\u2009", "\u200a",
   "\u2028", "\u2029", "\u202f", "\u205f", "\u3000"]

/-- What follows the first of the given openings that the text starts with. -/
def after? (openings : List Text) (t : Text) : Option Text :=
  openings.findSome? (·.isPrefixOf? t)

/-- Drops openings from the front, at most `n` of them. -/
def dropOpenings (openings : List Text) : Nat → Text → Text
  | 0, t => t
  | n + 1, t => match after? openings t with
    | some rest => dropOpenings openings n rest
    | none => t

def trimStart (t : Text) : Text := dropOpenings blanks t.length t

def trimEnd (t : Text) : Text :=
  (dropOpenings (blanks.map List.reverse) t.length t.reverse).reverse

/-- The number of bytes of the blank that a text starts with, zero if it starts with none. -/
def blankLength (t : Text) : Nat :=
  ((blanks.find? (·.isPrefixOf t)).map List.length).getD 0

/-- The words of a text after `skip` bytes of it, where `word` holds in reverse the bytes of the
word that is being read. -/
def wordsFrom : (skip : Nat) → (word : Text) → Text → List Text
  | _, word, [] => if word.isEmpty then [] else [word.reverse]
  | skip + 1, word, _ :: t => wordsFrom skip word t
  | 0, word, b :: t => match blankLength (b :: t) with
    | 0 => wordsFrom 0 (b :: word) t
    | n + 1 => if word.isEmpty then wordsFrom n [] t else word.reverse :: wordsFrom n [] t

def words (t : Text) : List Text := wordsFrom 0 [] t

def lineFeed : UInt8 := 10

def consByte (b : UInt8) (rest : List Text) : List Text :=
  if b = lineFeed then [] :: rest else match rest with
    | [] => [[b]]
    | l :: ls => (b :: l) :: ls

/-- The lines of a text. A line feed ends a line and begins none, so a text that ends with one has
no empty line after it. -/
def lines (t : Text) : List Text := t.foldr consByte []

/-- A line without the carriage return that may close it. -/
def dropReturn (line : Text) : Text := if line.getLast? = some 13 then line.dropLast else line

@[simp] theorem lines_nil : lines [] = [] := rfl

theorem lines_cons (b : UInt8) (t : Text) : lines (b :: t) = consByte b (lines t) := rfl

end Netlist.Text
