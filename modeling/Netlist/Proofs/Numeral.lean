import Mathlib.Algebra.Order.Ring.Nat
import Netlist.Format.Statement
import Netlist.Proofs.Outcome

/-!
# Values of numerals

A number that is written in base ten is read back, if it does not pass the limit. The value of a
numeral is bounded by its length: a run of digits stands for no more than the largest number with
as many digits, so a number written anew is never longer than the numeral it was read from, and a
constant is at most four times as wide as its numeral is long.
-/

namespace Netlist

theorem wrap_eq_bmod (i : Int) : wrap i = i.bmod 18446744073709551616 := rfl

theorem wrap_eq_self {i : Int} (hge : -2 ^ 63 ≤ i) (hlt : i < 2 ^ 63) : wrap i = i := by
  rw [wrap_eq_bmod]
  exact Int.bmod_eq_of_le (by omega) (by omega)

namespace Numeral

variable {base n m : Nat} {limit : Option Nat} {separated : Bool} {t : Text}

theorem readDigits_append (x y : Text) : readDigits base limit separated n (x ++ y) =
    readDigits base limit separated n x >>= fun m => readDigits base limit separated m y := by
  induction x generalizing n with
  | nil => rfl
  | cons b x ih =>
    rw [List.cons_append, readDigits, readDigits]
    split_ifs
    · exact ih
    · cases digitValue? b with
      | none => rfl
      | some d =>
        dsimp only
        split_ifs
        · rfl
        · rfl
        · exact ih

theorem digitValue?_digit (hn : n < 10) : digitValue? (Text.digit n) = some n := by
  revert n
  decide

theorem readDigits_digit {d : Nat} (hd : d < 10) (h : n * 10 + d ≤ m) :
    readDigits 10 (some m) false n [Text.digit d] = .ok (n * 10 + d) := by
  have hle : ¬10 ≤ d := Nat.not_le.2 hd
  have hlim : ¬m < n * 10 + d := Nat.not_lt.2 h
  simp [readDigits, digitValue?_digit hd, hle, hlim]

theorem readDigits_decimal (h : n ≤ m) :
    readDigits 10 (some m) false 0 (Text.decimal n) = .ok n := by
  induction n using Nat.strongRecOn with
  | _ n ih =>
    rw [Text.decimal]
    split_ifs with hn
    · have hread := readDigits_digit (n := 0) (m := m) hn (by omega)
      rwa [Nat.zero_mul, Nat.zero_add] at hread
    · have hsum : n / 10 * 10 + n % 10 = n := by omega
      have hread := readDigits_digit (n := n / 10) (d := n % 10) (m := m) (by omega) (by omega)
      rw [hsum] at hread
      rw [readDigits_append, ih (n / 10) (by omega) (by omega)]
      exact hread

theorem decimal?_decimal (h : n ≤ m) : decimal? m (Text.decimal n) = some n := by
  have hne : (Text.decimal n).isEmpty = false := by simpa using Text.decimal_ne_nil n
  rw [decimal?, decimal, hne, if_neg Bool.false_ne_true, readDigits_decimal h]
  rfl

/-- A byte is passed over or is a digit, and then the number stays within the limit. -/
theorem readDigits_cons_eq_ok {b : UInt8}
    (h : readDigits base limit separated n (b :: t) = .ok m) :
    readDigits base limit separated n t = .ok m ∨
      ∃ d < base, (∀ l, limit = some l → n * base + d ≤ l) ∧
        readDigits base limit separated (n * base + d) t = .ok m := by
  rw [readDigits] at h
  split_ifs at h
  · exact .inl h
  · cases hd : digitValue? b with
    | none =>
      rw [hd] at h
      cases h
    | some d =>
      rw [hd] at h
      dsimp only at h
      split_ifs at h with hbig hlimit
      refine .inr ⟨d, Nat.lt_of_not_le hbig, ?_, h⟩
      rintro l rfl
      simpa using hlimit

/-- What is read is what was read before followed by as many digits as the text has at most. -/
theorem readDigits_lt (hbase : 0 < base) (h : readDigits base limit separated n t = .ok m) :
    m < (n + 1) * base ^ t.length := by
  induction t generalizing n with
  | nil =>
    cases h
    simp
  | cons b t ih =>
    rcases readDigits_cons_eq_ok h with h | ⟨d, hd, -, h⟩
    · have hgrow : (n + 1) * base ^ t.length ≤ (n + 1) * base ^ (b :: t).length :=
        Nat.mul_le_mul_left _ (Nat.pow_le_pow_right hbase (by simp))
      exact (ih h).trans_le hgrow
    · have hnext : n * base + d + 1 ≤ (n + 1) * base := by
        rw [Nat.add_mul]
        omega
      calc m < (n * base + d + 1) * base ^ t.length := ih h
        _ ≤ (n + 1) * base * base ^ t.length := Nat.mul_le_mul_right _ hnext
        _ = (n + 1) * base ^ (b :: t).length := by
          rw [List.length_cons, Nat.pow_succ', Nat.mul_assoc]

theorem readDigits_le_limit {l : Nat} (hn : n ≤ l)
    (h : readDigits base (some l) separated n t = .ok m) : m ≤ l := by
  induction t generalizing n with
  | nil =>
    cases h
    exact hn
  | cons b t ih =>
    rcases readDigits_cons_eq_ok h with h | ⟨d, -, hlimit, h⟩
    · exact ih hn h
    · exact ih (hlimit l rfl) h

theorem length_decimal_le {k : Nat} (hk : 0 < k) (h : n < 10 ^ k) :
    (Text.decimal n).length ≤ k := by
  induction k generalizing n with
  | zero => cases hk
  | succ k ih =>
    rw [Text.decimal]
    split_ifs with hn
    · simp
    · have hpos : 0 < k := by
        rcases Nat.eq_zero_or_pos k with rfl | hpos
        · omega
        · exact hpos
      have hdiv : n / 10 < 10 ^ k := by
        rw [Nat.pow_succ] at h
        omega
      rw [List.length_append, List.length_singleton]
      exact Nat.succ_le_succ (ih hpos hdiv)

/-- A number within the limit that is written anew is no longer than what it was read from. -/
theorem decimal?_eq_some {l : Nat} (h : decimal? l t = some n) :
    n ≤ l ∧ (Text.decimal n).length ≤ t.length := by
  rw [decimal?, decimal] at h
  split_ifs at h with hempty
  · cases h
  · cases hread : readDigits 10 (some l) false 0 t with
    | error fault =>
      rw [hread] at h
      cases h
    | ok m =>
      rw [hread] at h
      cases h
      have hlt := readDigits_lt (by decide) hread
      rw [Nat.zero_add, Nat.one_mul] at hlt
      have hpos : 0 < t.length := List.length_pos_iff.2 (by simpa using hempty)
      exact ⟨readDigits_le_limit (Nat.zero_le l) hread, length_decimal_le hpos hlt⟩

theorem radix_bounds (t : Text) :
    0 < (radix t).1.base ∧ (radix t).1.base ≤ 16 ∧ (radix t).2.length ≤ t.length := by
  fun_cases radix t <;> simp

theorem natural_lt (h : natural limit t = .ok n) : n < 16 ^ t.length := by
  rw [natural] at h
  split_ifs at h
  obtain ⟨hpos, hbase, hlen⟩ := radix_bounds t
  cases hread : readDigits (radix t).1.base limit true 0 (radix t).2 with
  | error fault => simp [hread] at h
  | ok m =>
    obtain rfl : m = n := by
      simp only [hread] at h
      split_ifs at h
      cases h
      rfl
    calc m < (0 + 1) * (radix t).1.base ^ (radix t).2.length := readDigits_lt hpos hread
      _ = (radix t).1.base ^ (radix t).2.length := by simp
      _ ≤ 16 ^ (radix t).2.length := Nat.pow_le_pow_left hbase _
      _ ≤ 16 ^ t.length := Nat.pow_le_pow_right (by decide) hlen

theorem bitLength_le {k : Nat} (h : n < 2 ^ k) : bitLength n ≤ k := by
  rw [bitLength]
  split_ifs with hn
  · exact Nat.zero_le k
  · exact (Nat.log2_lt hn).2 h

end Numeral

theorem magnitude?_width {t : Text} {n : Nat} (h : magnitude? t = some n) :
    Numeral.bitLength n ≤ 4 * t.length := by
  have hnatural {t : Text} (h : (Numeral.natural none t).toOption = some n) :
      Numeral.bitLength n ≤ 4 * t.length := by
    cases hread : Numeral.natural none t with
    | error fault =>
      rw [hread] at h
      cases h
    | ok m =>
      rw [hread] at h
      cases h
      apply Numeral.bitLength_le
      rw [Nat.pow_mul]
      exact Numeral.natural_lt hread
  unfold magnitude? at h
  split at h
  · exact (hnatural h).trans (by simp)
  · exact hnatural h

end Netlist
