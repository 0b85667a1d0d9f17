import Netlist.Text.Printable
import Netlist.Text.Symbol

/-!
# Quoted texts

A quoted text stands between double quotes on one line. Printable characters stand for themselves; a
quote, a backslash and the common control characters are written with a backslash and one character,
and everything else by its code: a byte as `\\x` and two digits, a character as `\\u` and four or
`\\U` and eight.
-/

namespace Netlist.Text

def hexDigit (n : Nat) : UInt8 := if n < 10 then digit n else 87 + n.toUInt8

/-- The last `n` hexadecimal digits of a number. -/
def hex : (n : Nat) → Nat → Text
  | 0, _ => []
  | n + 1, code => hex n (code / 16) ++ [hexDigit (code % 16)]

/-- The control characters that have a letter of their own. -/
def controlLetters : List (Nat × Text) :=
  [(7, "a"), (8, "b"), (9, "t"), (10, "n"), (11, "v"), (12, "f"), (13, "r")]

def escapeCode (code : Nat) : Text :=
  match controlLetters.lookup code with
  | some letter => "\\" ++ letter
  | none =>
    if code < 0x80 then "\\x" ++ hex 2 code
    else if code < 0x10000 then "\\u" ++ hex 4 code
    else "\\U" ++ hex 8 code

def escape : Symbol → Text
  | .stray b => "\\x" ++ hex 2 b.toNat
  | .char c =>
    if c = '"' ∨ c = '\\' then "\\" ++ (Symbol.char c).bytes
    else if isPrintable c then (Symbol.char c).bytes
    else escapeCode c.toNat

def quote (t : Text) : Text := "\"" ++ (symbols t).flatMap escape ++ "\""

end Netlist.Text
