/-!
# Random numbers

A `RandomSource` answers the question for a number between two bounds, both included. `WordSource`
makes one from a stream of words below `2 ^ 63`: for a range whose size is a power of two it takes
the low bits of a word, and otherwise the remainder of the first word below the largest multiple of
the size, so that all remainders are equally likely.
-/

namespace Netlist

structure RandomSource (σ : Type) where
  between : (low high : Int) → σ → Int × σ

namespace RandomSource

/-- All answers lie between the bounds, as long as there is a number between them. -/
def Fair {σ : Type} (r : RandomSource σ) : Prop :=
  ∀ low high s, low ≤ high → low ≤ (r.between low high s).1 ∧ (r.between low high s).1 ≤ high

end RandomSource

/-- A stream of words, and how many of them are drawn at most for one number. -/
structure WordSource (σ : Type) where
  next : σ → Nat × σ
  tries : Nat

namespace WordSource

variable {σ : Type}

/-- The first word from the stream that is at most `bound`. -/
def drawUpTo (w : WordSource σ) (bound : Nat) : (tries : Nat) → σ → Nat × σ
  | 0, s => w.next s
  | tries + 1, s =>
    let (v, s') := w.next s
    if v ≤ bound then (v, s') else drawUpTo w bound tries s'

def isPowerOfTwo (n : Nat) : Bool := n &&& (n - 1) = 0

/-- A number below `n`. -/
def below (w : WordSource σ) (n : Nat) (s : σ) : Nat × σ :=
  if isPowerOfTwo n then
    let (v, s) := w.next s
    (v &&& (n - 1), s)
  else
    let (v, s) := w.drawUpTo ((1 <<< 63) - 1 - (1 <<< 63) % n) w.tries s
    (v % n, s)

def toRandomSource (w : WordSource σ) : RandomSource σ where
  between low high s :=
    if low = high then (low, s)
    else
      let (v, s) := w.below (high - low + 1).toNat s
      (low + v, s)

/-- Words from a list, over and over again. The state is the position of the next one. -/
def cycle (words : List Nat) : WordSource Nat where
  next i := (words[i % words.length]?.getD 0, i + 1)
  tries := words.length

/-- A linear congruential generator on 64-bit words, of which the lowest bit is dropped. -/
def congruential : WordSource UInt64 where
  next x :=
    let x := x * 6364136223846793005 + 1442695040888963407
    ((x >>> 1).toNat, x)
  tries := 256

end WordSource

end Netlist
