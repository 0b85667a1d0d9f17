/-!
# Texts

Names, messages and files are sequences of bytes. A file may hold any bytes at all, so a text is a
list of bytes and not a string of characters; a string literal stands for its UTF-8 bytes.

`decimal` and `ofInt` write numbers. `decimal` is never empty and holds digits only.
-/

namespace Netlist

abbrev Text := List UInt8

namespace Text

/-- Whether two texts are equal, byte by byte. -/
def same : Text → Text → Bool
  | [], [] => true
  | a :: s, b :: t => a == b && same s t
  | _, _ => false

theorem same_iff {s t : Text} : same s t = true ↔ s = t := by
  induction s generalizing t with
  | nil => cases t <;> simp [same]
  | cons a s ih => cases t <;> simp [same, ih]

instance : DecidableEq Text := fun _ _ => decidable_of_iff _ same_iff

instance : LawfulBEq Text := inferInstance

def ofString (s : String) : Text := s.toUTF8.data.toList

instance : Coe String Text := ⟨ofString⟩

/-- The parts in order, with the separator between neighbours. -/
def join (separator : Text) (parts : List Text) : Text := separator.intercalate parts

/-- The parts of a text between the places where a byte stands. -/
def split (separator : UInt8) (t : Text) : List Text :=
  t.foldr (fun b parts => if b = separator then [] :: parts else match parts with
    | [] => [[b]]
    | p :: ps => (b :: p) :: ps) [[]]

def digit (n : Nat) : UInt8 := 48 + n.toUInt8

def decimal (n : Nat) : Text :=
  if n < 10 then [digit n] else decimal (n / 10) ++ [digit (n % 10)]
termination_by n

def ofInt : Int → Text
  | .ofNat n => decimal n
  | .negSucc n => "-" ++ decimal (n + 1)

def isDigit (b : UInt8) : Bool := 48 ≤ b && b ≤ 57

def capital (b : UInt8) : UInt8 := if 97 ≤ b && b ≤ 122 then b - 32 else b

theorem isDigit_digit {n : Nat} (h : n < 10) : isDigit (digit n) = true := by
  revert n
  decide

theorem decimal_ne_nil (n : Nat) : decimal n ≠ [] := by
  rw [decimal]
  split <;> simp

theorem isDigit_of_mem_decimal {n : Nat} {b : UInt8} (h : b ∈ decimal n) : isDigit b = true := by
  induction n using Nat.strongRecOn with
  | _ n ih =>
    rw [decimal] at h
    split at h
    · rename_i hn
      rw [List.mem_singleton.1 h]
      exact isDigit_digit hn
    · rcases List.mem_append.1 h with h | h
      · exact ih (n / 10) (by omega) h
      · rw [List.mem_singleton.1 h]
        exact isDigit_digit (by omega)

end Text

end Netlist
