import Mathlib
import Netlist.Proofs.Numeral

/-!
# How numbers are spelled

`IsDecimal` and `Spells` say which texts stand for which numbers, and the readers of numerals accept
exactly these texts.

A decimal is a run of digits. Other numerals may have an underscore before a digit if a digit or the
front of the numeral comes before it. They start with a digit other than zero, or with a zero that
is followed by octal digits, or with a front that names the base.
-/

namespace Netlist

theorem toOption_eq_some_iff {ε α : Type} {x : Except ε α} {a : α} :
    x.toOption = some a ↔ x = .ok a := by
  cases x <;> simp [Except.toOption]

theorem Text.isDigit_iff {b : UInt8} : Text.isDigit b = true ↔ 48 ≤ b.toNat ∧ b.toNat ≤ 57 := by
  simp only [Text.isDigit, Bool.and_eq_true, decide_eq_true_eq, UInt8.le_iff_toNat_le]
  rfl

namespace Numeral

variable {base n m d : Nat} {limit : Option Nat} {separated : Bool} {t : Text} {b : UInt8}

theorem digitValue?_of_isDigit (h : Text.isDigit b = true) :
    digitValue? b = some (b.toNat - 48) := by
  rw [Text.isDigit] at h
  rw [digitValue?, if_pos h]

theorem isDigit_of_digitValue? (h : digitValue? b = some d) (hd : d < 10) :
    Text.isDigit b = true := by
  rw [Text.isDigit]
  unfold digitValue? at h
  split_ifs at h with h₁ h₂ h₃
  · exact h₁
  · simp only [Bool.and_eq_true, decide_eq_true_eq, UInt8.le_iff_toNat_le] at h₂
    obtain rfl := Option.some.inj h
    have hle : 65 ≤ b.toNat := h₂.1
    omega
  · simp only [Bool.and_eq_true, decide_eq_true_eq, UInt8.le_iff_toNat_le] at h₃
    obtain rfl := Option.some.inj h
    have hle : 97 ≤ b.toNat := h₃.1
    omega

theorem eq_of_digitValue?_eq_zero (h : digitValue? b = some 0) : b = 48 := by
  have hb := isDigit_of_digitValue? h (by decide)
  have hvalue : b.toNat - 48 = 0 := Option.some.inj ((digitValue?_of_isDigit hb).symm.trans h)
  have hle : b.toNat ≤ 48 := Nat.sub_eq_zero_iff_le.1 hvalue
  exact UInt8.toNat_inj.1 (Nat.le_antisymm hle (Text.isDigit_iff.1 hb).1)

theorem digitValue?_underscore : digitValue? underscore = none := by decide

theorem readDigits_cons_iff (hb : (separated && b == underscore) = false) :
    readDigits base limit separated n (b :: t) = .ok m ↔ ∃ d, digitValue? b = some d ∧ d < base ∧
      (∀ l ∈ limit, n * base + d ≤ l) ∧
      readDigits base limit separated (n * base + d) t = .ok m := by
  have hlimit (k : Nat) : limit.any (· < k) = true ↔ ¬∀ l ∈ limit, k ≤ l := by
    cases limit <;> simp
  rw [readDigits, hb]
  cases digitValue? b with
  | none => simp
  | some d =>
    by_cases hd : base ≤ d
    · simp [hd]
    · by_cases hl : ∀ l ∈ limit, n * base + d ≤ l
      · have hany : limit.any (· < n * base + d) = false := by
          rw [Bool.eq_false_iff, ne_eq, hlimit, not_not]
          exact hl
        simp only [Bool.false_eq_true, if_false, hd, hany, Option.some.injEq, exists_eq_left']
        exact ⟨fun h => ⟨Nat.lt_of_not_le hd, hl, h⟩, fun h => h.2.2⟩
      · simp only [Bool.false_eq_true, if_false, hd, (hlimit _).2 hl, if_true]
        constructor
        · intro h
          cases h
        · rintro ⟨d', hd', -, hl', -⟩
          obtain rfl := Option.some.inj hd'
          exact absurd hl' hl

/-- What digits in base ten make of the number before them. -/
def decimalValue (n : Nat) (t : Text) : Nat := t.foldl (fun n b => n * 10 + (b.toNat - 48)) n

theorem decimalValue_cons :
    decimalValue n (b :: t) = decimalValue (n * 10 + (b.toNat - 48)) t := List.foldl_cons

theorem le_decimalValue (n : Nat) (t : Text) : n ≤ decimalValue n t := by
  induction t generalizing n with
  | nil => exact le_rfl
  | cons b t ih =>
    have hstep : n ≤ n * 10 + (b.toNat - 48) := by omega
    exact hstep.trans (ih _)

/-- A run of digits in base ten with its value. -/
structure IsDecimal (t : Text) (n : Nat) : Prop where
  ne_nil : t ≠ []
  digits : ∀ b ∈ t, Text.isDigit b = true
  value : decimalValue 0 t = n

theorem readDigits_ten_iff {l : Nat} (hn : n ≤ l) :
    readDigits 10 (some l) false n t = .ok m ↔
      (∀ b ∈ t, Text.isDigit b = true) ∧ decimalValue n t = m ∧ m ≤ l := by
  induction t generalizing n with
  | nil =>
    simp only [readDigits, Except.ok.injEq, List.not_mem_nil, false_imp_iff, implies_true,
      decimalValue, List.foldl_nil, true_and]
    exact ⟨fun h => ⟨h, h ▸ hn⟩, fun h => h.1⟩
  | cons b t ih =>
    rw [readDigits_cons_iff rfl, List.forall_mem_cons, decimalValue_cons]
    constructor
    · rintro ⟨d, hd, hlt, hl, h⟩
      have hb := isDigit_of_digitValue? hd hlt
      obtain rfl := Option.some.inj ((digitValue?_of_isDigit hb).symm.trans hd)
      obtain ⟨ht, hvalue, hm⟩ := (ih (hl l rfl)).1 h
      exact ⟨⟨hb, ht⟩, hvalue, hm⟩
    · rintro ⟨⟨hb, ht⟩, hvalue, hm⟩
      have hlt : b.toNat - 48 < 10 := by
        have hle := (Text.isDigit_iff.1 hb).2
        omega
      have hl : n * 10 + (b.toNat - 48) ≤ l := by
        refine (le_decimalValue _ t).trans ?_
        rwa [hvalue]
      refine ⟨_, digitValue?_of_isDigit hb, hlt, ?_, (ih hl).2 ⟨ht, hvalue, hm⟩⟩
      rintro _ ⟨⟩
      exact hl

theorem decimal?_eq_some_iff {l : Nat} : decimal? l t = some n ↔ IsDecimal t n ∧ n ≤ l := by
  have hread : decimal? l t = some n ↔ t ≠ [] ∧ readDigits 10 (some l) false 0 t = .ok n := by
    rw [decimal?, toOption_eq_some_iff, decimal]
    cases t <;> simp
  rw [hread, readDigits_ten_iff (Nat.zero_le l)]
  constructor
  · rintro ⟨hne, hdigits, hvalue, hle⟩
    exact ⟨⟨hne, hdigits, hvalue⟩, hle⟩
  · rintro ⟨⟨hne, hdigits, hvalue⟩, hle⟩
    exact ⟨hne, hdigits, hvalue, hle⟩

/-- The digits of a base, each with an underscore before it or not, that follow a number, and the
number that they make of it. -/
inductive Digits (base : Nat) : Nat → Text → Nat → Prop
  | nil (n : Nat) : Digits base n [] n
  | digit {n m d : Nat} {b : UInt8} {t : Text} (hb : digitValue? b = some d) (hd : d < base)
      (h : Digits base (n * base + d) t m) : Digits base n (b :: t) m
  | separated {n m d : Nat} {b : UInt8} {t : Text} (hb : digitValue? b = some d) (hd : d < base)
      (h : Digits base (n * base + d) t m) : Digits base n (underscore :: b :: t) m

theorem Digits.le (hbase : 0 < base) (h : Digits base n t m) : n ≤ m := by
  have hstep (n d : Nat) : n ≤ n * base + d :=
    (Nat.le_mul_of_pos_right n hbase).trans (Nat.le_add_right _ _)
  induction h with
  | nil n => exact le_rfl
  | digit _ _ _ ih => exact (hstep _ _).trans ih
  | separated _ _ _ ih => exact (hstep _ _).trans ih

/-- Digits of which the first has no underscore before it. -/
def Opens (base n : Nat) (t : Text) (m : Nat) : Prop :=
  ∃ b t' d, t = b :: t' ∧ digitValue? b = some d ∧ d < base ∧ Digits base (n * base + d) t' m

theorem digits_underscore_iff : Digits base n (underscore :: t) m ↔ Opens base n t m := by
  constructor
  · intro h
    cases h with
    | digit hb => cases digitValue?_underscore.symm.trans hb
    | separated hb hd h => exact ⟨_, _, _, rfl, hb, hd, h⟩
  · rintro ⟨b, t', d, rfl, hb, hd, h⟩
    exact .separated hb hd h

theorem opens_underscore_iff : ¬Opens base n (underscore :: t) m := by
  rintro ⟨b, t', d, heq, hb, -⟩
  obtain ⟨rfl, -⟩ := List.cons.inj heq
  cases digitValue?_underscore.symm.trans hb

theorem digits_cons_iff (hb : b ≠ underscore) :
    Digits base n (b :: t) m ↔ Opens base n (b :: t) m := by
  constructor
  · intro h
    cases h with
    | digit hb hd h => exact ⟨_, _, _, rfl, hb, hd, h⟩
    | separated => exact absurd rfl hb
  · rintro ⟨b, t', d, ⟨⟩, hb, hd, h⟩
    exact .digit hb hd h

/-- Reading takes the digits that are well separated, behind a digit and at the start. -/
theorem readDigits_separated_iff (hbase : 0 < base) (hn : ∀ l ∈ limit, n ≤ l) :
    (readDigits base limit true n t = .ok m ∧ wellSeparated true t = true ↔
      Digits base n t m ∧ ∀ l ∈ limit, m ≤ l) ∧
    (readDigits base limit true n t = .ok m ∧ wellSeparated false t = true ↔
      Opens base n t m ∧ ∀ l ∈ limit, m ≤ l) := by
  induction t generalizing n with
  | nil =>
    have hnil : Digits base n [] m ↔ n = m :=
      ⟨fun h => by cases h; rfl, fun h => h ▸ .nil n⟩
    have hopens : ¬Opens base n [] m := by
      rintro ⟨b, t', d, ⟨⟩, -⟩
    simp only [readDigits, wellSeparated, Except.ok.injEq, and_true, hnil, hopens,
      Bool.false_eq_true, and_false, false_and]
    exact ⟨fun h => ⟨h, h ▸ hn⟩, fun h => h.1⟩
  | cons b t ih =>
    by_cases hb : b = underscore
    · subst hb
      have hread : readDigits base limit true n (underscore :: t) =
          readDigits base limit true n t := by simp [readDigits]
      rw [hread, digits_underscore_iff, ← (ih hn).2]
      simp [wellSeparated, opens_underscore_iff]
    · have hseparated (behind : Bool) :
          wellSeparated behind (b :: t) = wellSeparated true t := by simp [wellSeparated, hb]
      rw [hseparated, hseparated, digits_cons_iff hb, readDigits_cons_iff (by simp [hb])]
      refine (and_self_iff (a := _ ↔ _)).2 ⟨?_, ?_⟩
      · rintro ⟨⟨d, hd, hlt, hl, h⟩, hw⟩
        obtain ⟨hdigits, hm⟩ := (ih hl).1.1 ⟨h, hw⟩
        exact ⟨⟨b, t, d, rfl, hd, hlt, hdigits⟩, hm⟩
      · rintro ⟨⟨_, _, d, ⟨⟩, hd, hlt, hdigits⟩, hm⟩
        have hl : ∀ l ∈ limit, n * base + d ≤ l := fun l hl => (hdigits.le hbase).trans (hm l hl)
        obtain ⟨h, hw⟩ := (ih hl).1.2 ⟨hdigits, hm⟩
        exact ⟨⟨d, hd, hlt, hl, h⟩, hw⟩

/-- The letters behind a zero that name a base. -/
def fronts : List (UInt8 × Nat) := [(66, 2), (98, 2), (79, 8), (111, 8), (88, 16), (120, 16)]

/-- The numerals and their values. -/
inductive Spells : Text → Nat → Prop
  | decimal {b : UInt8} {d n : Nat} {t : Text} (hb : digitValue? b = some d) (hpos : 0 < d)
      (hd : d < 10) (h : Digits 10 d t n) : Spells (b :: t) n
  | octal {t : Text} {n : Nat} (h : Digits 8 0 t n) : Spells (48 :: t) n
  | announced {c : UInt8} {base n : Nat} {t : Text} (hc : (c, base) ∈ fronts) (hne : t ≠ [])
      (h : Digits base 0 t n) : Spells (48 :: c :: t) n

theorem not_digits_front {c : UInt8} (hc : (c, base) ∈ fronts) : ¬Digits 8 n (c :: t) m := by
  have hlarge : ∀ p ∈ fronts, p.1 ≠ underscore ∧ ∀ d < 8, digitValue? p.1 ≠ some d := by decide
  obtain ⟨hne, hvalue⟩ := hlarge _ hc
  rw [digits_cons_iff hne]
  rintro ⟨_, _, d, ⟨⟩, hb, hd, -⟩
  exact hvalue d hd hb

theorem radix_front {c : UInt8} (hc : (c, base) ∈ fronts) (hne : t ≠ []) :
    radix (48 :: c :: t) = (⟨base, true⟩, t) := by
  obtain ⟨b, t, rfl⟩ := List.exists_cons_of_ne_nil hne
  simp only [fronts, List.mem_cons, Prod.mk.injEq, List.not_mem_nil, or_false] at hc
  rcases hc with ⟨rfl, rfl⟩ | ⟨rfl, rfl⟩ | ⟨rfl, rfl⟩ | ⟨rfl, rfl⟩ | ⟨rfl, rfl⟩ | ⟨rfl, rfl⟩ <;> rfl

theorem radix_zero
    (h : ∀ c base t', t = c :: t' → (c, base) ∈ fronts → t' = []) :
    radix (48 :: t) = (⟨8, true⟩, t) := by
  match t with
  | [] => rfl
  | [c] => rfl
  | c :: d :: t =>
    have hfront (base : Nat) : (c, base) ∉ fronts := fun hc =>
      List.cons_ne_nil d t (h c base (d :: t) rfl hc)
    have hcs (c' : UInt8) (hc' : ∃ base, (c', base) ∈ fronts) : c ≠ c' := by
      rintro rfl
      exact hc'.elim hfront
    rw [radix, if_neg, if_neg, if_neg]
    · exact not_or.2 ⟨hcs 88 ⟨16, by decide⟩, hcs 120 ⟨16, by decide⟩⟩
    · exact not_or.2 ⟨hcs 79 ⟨8, by decide⟩, hcs 111 ⟨8, by decide⟩⟩
    · exact not_or.2 ⟨hcs 66 ⟨2, by decide⟩, hcs 98 ⟨2, by decide⟩⟩

theorem radix_cons (hb : b ≠ 48) : radix (b :: t) = (⟨10, false⟩, b :: t) := by
  rw [radix]
  · rintro c d t ⟨⟩
    exact hb rfl
  · rintro t ⟨⟩
    exact hb rfl

/-- The digits that follow the front of a numeral, whose first may have an underscore before it if
the front announces the base. -/
def Radix.Reads (r : Radix) (t : Text) (n : Nat) : Prop :=
  if r.announced then Digits r.base 0 t n else Opens r.base 0 t n

theorem natural_iff_reads : natural limit t = .ok n ↔
    t ≠ [] ∧ (radix t).1.Reads (radix t).2 n ∧ ∀ l ∈ limit, n ≤ l := by
  have hread : natural limit t = .ok n ↔
      t ≠ [] ∧ readDigits (radix t).1.base limit true 0 (radix t).2 = .ok n ∧
        wellSeparated (radix t).1.announced (radix t).2 = true := by
    rw [natural]
    by_cases ht : t = []
    · simp [ht]
    · cases hr : readDigits (radix t).1.base limit true 0 (radix t).2 with
      | error fault => simp [ht, hr]
      | ok m =>
        by_cases hw : wellSeparated (radix t).1.announced (radix t).2 <;> simp [ht, hr, hw]
  have hbase := (radix_bounds t).1
  have hzero : ∀ l ∈ limit, 0 ≤ l := fun l _ => Nat.zero_le l
  rw [hread, Radix.Reads]
  cases (radix t).1.announced with
  | true => rw [(readDigits_separated_iff hbase hzero).1, if_pos rfl]
  | false => rw [(readDigits_separated_iff hbase hzero).2, if_neg Bool.false_ne_true]

theorem spells_iff_reads : Spells t n ↔ t ≠ [] ∧ (radix t).1.Reads (radix t).2 n := by
  constructor
  · intro h
    refine ⟨by cases h <;> exact List.cons_ne_nil _ _, ?_⟩
    cases h with
    | @decimal b d _ _ hb hpos hd h =>
      have hne : b ≠ 48 := by
        rintro rfl
        obtain rfl : 0 = d := Option.some.inj hb
        exact Nat.lt_irrefl 0 hpos
      rw [radix_cons hne]
      exact ⟨_, _, _, rfl, hb, hd, by simpa using h⟩
    | octal h =>
      rw [radix_zero]
      · exact h
      · rintro c base t' rfl hc
        exact absurd h (not_digits_front hc)
    | announced hc hne h =>
      rw [radix_front hc hne]
      exact h
  · rintro ⟨hne, h⟩
    obtain ⟨b, t, rfl⟩ := List.exists_cons_of_ne_nil hne
    by_cases hb : b = 48
    · subst hb
      by_cases hfront : ∃ c base t', t = c :: t' ∧ (c, base) ∈ fronts ∧ t' ≠ []
      · obtain ⟨c, base, t', rfl, hc, hne'⟩ := hfront
        rw [radix_front hc hne'] at h
        exact .announced hc hne' h
      · rw [radix_zero] at h
        · exact .octal h
        · intro c base t' ht hc
          by_contra hne'
          exact hfront ⟨c, base, t', ht, hc, hne'⟩
    · rw [radix_cons hb] at h
      obtain ⟨_, _, d, ⟨⟩, hd, hlt, h⟩ := h
      rw [Nat.zero_mul, Nat.zero_add] at h
      refine .decimal hd (Nat.pos_of_ne_zero ?_) hlt h
      rintro rfl
      exact hb (eq_of_digitValue?_eq_zero hd)

theorem natural_eq_ok_iff : natural limit t = .ok n ↔ Spells t n ∧ ∀ l ∈ limit, n ≤ l := by
  rw [natural_iff_reads, spells_iff_reads, and_assoc]

theorem natural_word_iff : natural (some wordLimit) t = .ok n ↔ Spells t n ∧ n < 2 ^ 64 := by
  rw [natural_eq_ok_iff, Nat.lt_iff_le_pred (by decide)]
  simp [wordLimit]

theorem Digits.bytes (h : Digits base n t m) :
    ∀ b ∈ t, b = underscore ∨ (digitValue? b).isSome = true := by
  induction h with
  | nil => exact List.forall_mem_nil _
  | digit hb _ _ ih =>
    exact List.forall_mem_cons.2 ⟨.inr (Option.isSome_iff_exists.2 ⟨_, hb⟩), ih⟩
  | separated hb _ _ ih =>
    exact List.forall_mem_cons.2 ⟨.inl rfl,
      List.forall_mem_cons.2 ⟨.inr (Option.isSome_iff_exists.2 ⟨_, hb⟩), ih⟩⟩

namespace Spells

theorem head (h : Spells t n) : ∃ b t', t = b :: t' ∧ Text.isDigit b = true := by
  cases h with
  | decimal hb _ hd _ => exact ⟨_, _, rfl, isDigit_of_digitValue? hb hd⟩
  | octal => exact ⟨_, _, rfl, rfl⟩
  | announced => exact ⟨_, _, rfl, rfl⟩

theorem ne_nil (h : Spells t n) : t ≠ [] := by
  obtain ⟨b, t', rfl, -⟩ := h.head
  exact List.cons_ne_nil b t'

theorem bytes (h : Spells t n) : ∀ b ∈ t, b = underscore ∨ (digitValue? b).isSome = true := by
  have hfront : ∀ p ∈ fronts, (digitValue? p.1).isSome = true := by decide
  cases h with
  | decimal hb _ _ h =>
    exact List.forall_mem_cons.2 ⟨.inr (Option.isSome_iff_exists.2 ⟨_, hb⟩), h.bytes⟩
  | octal h => exact List.forall_mem_cons.2 ⟨.inr rfl, h.bytes⟩
  | announced hc _ h =>
    exact List.forall_mem_cons.2 ⟨.inr rfl, List.forall_mem_cons.2 ⟨.inr (hfront _ hc), h.bytes⟩⟩

theorem unique (h : Spells t n) (h' : Spells t m) : n = m := by
  have hread : natural none t = .ok n := natural_eq_ok_iff.2 ⟨h, by simp⟩
  have hread' : natural none t = .ok m := natural_eq_ok_iff.2 ⟨h', by simp⟩
  exact Except.ok.inj (hread.symm.trans hread')

end Spells

end Numeral

/-- An integer as it is written with a sign at most if it is negative. -/
def SpellsInteger (t : Text) (n : Nat) : Prop :=
  Numeral.Spells t n ∨ ∃ t', t = 45 :: t' ∧ Numeral.Spells t' n

theorem magnitude?_eq_some_iff {t : Text} {n : Nat} :
    magnitude? t = some n ↔ SpellsInteger t n := by
  have hnatural (t : Text) :
      (Numeral.natural none t).toOption = some n ↔ Numeral.Spells t n := by
    simp [toOption_eq_some_iff, Numeral.natural_eq_ok_iff]
  have hminus (t : Text) : ¬Numeral.Spells (45 :: t) n := by
    rintro ⟨hb, -, -, -⟩
    cases hb
  fun_cases magnitude? t with
  | case1 t => simp [hnatural, SpellsInteger, hminus]
  | case2 t ht =>
    rw [hnatural, SpellsInteger, or_iff_left]
    rintro ⟨t', rfl, -⟩
    exact ht t' rfl

/-- The words for an integer: a numeral, with a minus sign before it if the integer is negative. -/
inductive SpellsInt : Text → ℤ → Prop
  | plain {t : Text} {n : ℕ} (h : Numeral.Spells t n) : SpellsInt t n
  | minus {t : Text} {n : ℕ} (h : Numeral.Spells t n) : SpellsInt (45 :: t) (-n)

theorem SpellsInt.magnitude {t : Text} {i : ℤ} (h : SpellsInt t i) : SpellsInteger t i.natAbs := by
  cases h with
  | plain h => exact .inl (by simpa using h)
  | minus h => exact .inr ⟨_, rfl, by simpa using h⟩

end Netlist
