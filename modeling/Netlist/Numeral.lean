import Netlist.Text.Basic

/-!
# Numerals

A numeral is a run of digits in base ten, or in the base that its front announces: `0b`, `0o` and
`0x` stand for two, eight and sixteen, and a leading zero stands for eight. In such a numeral single
underscores may stand between digits and between the front and the first digit.

`natural` and `integer` read numerals whose base is announced, `decimalInteger` and `decimal?` read
base ten without underscores. Reading goes from left to right and stops at the first digit with
which the value passes the limit, so a numeral that is too large counts as out of range whatever
follows that digit.

`wrap` reduces an integer to a machine word of 64 bits with a sign.
-/

namespace Netlist

/-- The signed 64-bit word that an integer is congruent to. -/
def wrap (i : Int) : Int := i.bmod (1 <<< 64)

namespace Numeral

inductive Fault where
  | malformed
  | outOfRange
  deriving DecidableEq, Repr

def underscore : UInt8 := 95

/-- The value of a digit or, from ten on, of a letter of either case. -/
def digitValue? (b : UInt8) : Option Nat :=
  if 48 ≤ b && b ≤ 57 then some (b.toNat - 48)
  else if 65 ≤ b && b ≤ 90 then some (b.toNat - 55)
  else if 97 ≤ b && b ≤ 122 then some (b.toNat - 87)
  else none

/-- A base of ten, which the front does not announce, or one that it does. -/
structure Radix where
  base : Nat
  announced : Bool
  deriving DecidableEq, Repr

/-- The base of a numeral and the part of the numeral behind the front that announces it. -/
def radix : Text → Radix × Text
  | 48 :: c :: d :: t =>
    if c = 66 ∨ c = 98 then (⟨2, true⟩, d :: t)
    else if c = 79 ∨ c = 111 then (⟨8, true⟩, d :: t)
    else if c = 88 ∨ c = 120 then (⟨16, true⟩, d :: t)
    else (⟨8, true⟩, c :: d :: t)
  | 48 :: t => (⟨8, true⟩, t)
  | t => (⟨10, false⟩, t)

/-- Reads digits behind those that have the value `n`. -/
def readDigits (base : Nat) (limit : Option Nat) (separated : Bool) : Nat → Text → Except Fault Nat
  | n, [] => .ok n
  | n, b :: t =>
    if separated && b == underscore then readDigits base limit separated n t
    else match digitValue? b with
      | none => .error .malformed
      | some d =>
        if base ≤ d then .error .malformed
        else if limit.any (· < n * base + d) then .error .outOfRange
        else readDigits base limit separated (n * base + d) t

/-- Whether each underscore stands between two digits, where `behindDigit` tells whether a digit or
the front of the numeral comes before the text. -/
def wellSeparated : (behindDigit : Bool) → Text → Bool
  | behindDigit, [] => behindDigit
  | behindDigit, b :: t =>
    if b == underscore then behindDigit && wellSeparated false t else wellSeparated true t

def natural (limit : Option Nat) (t : Text) : Except Fault Nat :=
  if t.isEmpty then .error .malformed
  else
    let (radix, digits) := radix t
    match readDigits radix.base limit true 0 digits with
    | .error fault => .error fault
    | .ok n => if wellSeparated radix.announced digits then .ok n else .error .malformed

def decimal (limit : Option Nat) (t : Text) : Except Fault Nat :=
  if t.isEmpty then .error .malformed else readDigits 10 limit false 0 t

def decimal? (limit : Nat) (t : Text) : Option Nat := (decimal (some limit) t).toOption

/-- The largest value of an unsigned word. -/
def wordLimit : Nat := (1 <<< 64) - 1

/-- Gives the value of an unsigned word a sign, if it then fits a signed word. -/
def signed (negative : Bool) (n : Nat) : Except Fault Int :=
  if negative then if n ≤ 1 <<< 63 then .ok (-n) else .error .outOfRange
  else if n < 1 <<< 63 then .ok n else .error .outOfRange

/-- Reads a word with an optional sign by means of a reader of unsigned words. -/
def readSigned (unsigned : Text → Except Fault Nat) : Text → Except Fault Int
  | 45 :: t => unsigned t >>= signed true
  | 43 :: t => unsigned t >>= signed false
  | t => unsigned t >>= signed false

def integer : Text → Except Fault Int := readSigned (natural (some wordLimit))

def decimalInteger : Text → Except Fault Int := readSigned (decimal (some wordLimit))

/-- The number of bits that the digits of a number take in base two. -/
def bitLength (n : Nat) : Nat := if n = 0 then 0 else n.log2 + 1

end Numeral

end Netlist
