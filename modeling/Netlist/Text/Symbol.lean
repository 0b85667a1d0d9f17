import Netlist.Text.Basic

/-!
# Symbols of a text

A text read as UTF-8 is a sequence of symbols: characters, and stray bytes that belong to none. The
reading is lenient: where no well-formed character starts, one byte is set apart and the reading
goes on behind it.
-/

namespace Netlist.Text

inductive Symbol where
  | char (c : Char)
  | stray (b : UInt8)
  deriving DecidableEq, Repr

/-- The character that is shown where no character can be read. -/
def replacement : Char := Char.ofNat 0xFFFD

namespace Symbol

def bytes : Symbol → Text
  | .char c => String.utf8EncodeChar c
  | .stray b => [b]

/-- What is shown for a symbol. -/
def character : Symbol → Char
  | .char c => c
  | .stray _ => replacement

end Symbol

/-- The six bits that a continuation byte carries. -/
def continuation? (b : UInt8) : Option Nat :=
  if 0x80 ≤ b && b < 0xC0 then some (b.toNat - 0x80) else none

/-- A character from its code, if the code is that of a character and at least `least`, the smallest
one that needs as many bytes. -/
def character? (least code : Nat) : Option Char :=
  if least ≤ code ∧ code.isValidChar then some (Char.ofNat code) else none

/-- The character at the front of a text, with the number of bytes it has beyond the first. -/
def front? : Text → Option (Char × Nat)
  | [] => none
  | a :: t =>
    if a < 0x80 then some (Char.ofNat a.toNat, 0)
    else if a < 0xC0 then none
    else if a < 0xE0 then do
      let b ← t[0]? >>= continuation?
      return (← character? 0x80 ((a.toNat - 0xC0) * 64 + b), 1)
    else if a < 0xF0 then do
      let b ← t[0]? >>= continuation?
      let c ← t[1]? >>= continuation?
      return (← character? 0x800 (((a.toNat - 0xE0) * 64 + b) * 64 + c), 2)
    else if a < 0xF8 then do
      let b ← t[0]? >>= continuation?
      let c ← t[1]? >>= continuation?
      let d ← t[2]? >>= continuation?
      return (← character? 0x10000 ((((a.toNat - 0xF0) * 64 + b) * 64 + c) * 64 + d), 3)
    else none

def symbols (t : Text) : List Symbol :=
  match t with
  | [] => []
  | a :: rest => match front? (a :: rest) with
    | some (c, n) => .char c :: symbols (rest.drop n)
    | none => .stray a :: symbols rest
termination_by t.length
decreasing_by all_goals simp only [List.length_cons, List.length_drop]; omega

end Netlist.Text
