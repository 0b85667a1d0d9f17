/-!
# Classes of characters

A class of characters is a list of ranges of codes. The tables of the Unicode standard are of this
form.
-/

namespace Netlist

/-- The first and the last code of each range. -/
abbrev CharClass := List (Nat × Nat)

def CharClass.has (ranges : CharClass) (c : Char) : Bool :=
  ranges.any fun (first, last) => first ≤ c.toNat && c.toNat ≤ last

end Netlist
