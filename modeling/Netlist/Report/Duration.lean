import Netlist.Text.Basic

/-!
# Durations

A duration is a number of nanoseconds. Below a second it is written in the largest unit of which it
has at least one, from a second on in hours, minutes and seconds, beginning with the largest unit
that is not zero. The last unit has as many decimal places as it needs.
-/

namespace Netlist

structure Duration where
  nanoseconds : Int
  deriving DecidableEq, Repr

namespace Duration

/-- The decimal places of `n` parts of `10 ^ places`, with a point before them if there are any. -/
def fraction : (places : Nat) → (n : Nat) → Text
  | 0, _ => []
  | places + 1, n =>
    if n % 10 = 0 then fraction places (n / 10)
    else "." ++ digits (places + 1) n
where
  digits : Nat → Nat → Text
    | 0, _ => []
    | places + 1, n => digits places (n / 10) ++ [Text.digit (n % 10)]

/-- A number of parts of `10 ^ places` as a decimal. -/
def quantity (places n : Nat) : Text :=
  Text.decimal (n / Nat.pow 10 places) ++ fraction places (n % Nat.pow 10 places)

def clock (n : Nat) : Text :=
  let minutes := n / (60 * Nat.pow 10 9)
  let seconds := quantity 9 (n % (60 * Nat.pow 10 9)) ++ "s"
  if minutes = 0 then seconds
  else if minutes < 60 then Text.decimal minutes ++ "m" ++ seconds
  else Text.decimal (minutes / 60) ++ "h" ++ Text.decimal (minutes % 60) ++ "m" ++ seconds

def magnitude (n : Nat) : Text :=
  if n = 0 then "0s"
  else if n < Nat.pow 10 3 then Text.decimal n ++ "ns"
  else if n < Nat.pow 10 6 then quantity 3 n ++ "µs"
  else if n < Nat.pow 10 9 then quantity 6 n ++ "ms"
  else clock n

def text (d : Duration) : Text :=
  let size := magnitude d.nanoseconds.natAbs
  if d.nanoseconds < 0 then "-" ++ size else size

end Duration

end Netlist
