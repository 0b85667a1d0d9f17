import Mathlib
import Netlist.Proofs.Spelling
import Netlist.Settings

/-!
# Numbers from the environment

The text of a setting is read as an unsigned word of 64 bits and then taken as a signed one. Values
from `2 ^ 63` on turn negative by that. No bound below zero is in use, so all of them are refused as
too small, together with the values that are smaller than the bound, and a number that is returned
is the one that the text spells.
-/

namespace Netlist

variable {n : ℕ} {value key : Text} {default least r : Int}

theorem wrap_of_lt (h : n < 2 ^ 63) : wrap n = n :=
  wrap_eq_self (by omega) (by omega)

theorem wrap_neg (h : 2 ^ 63 ≤ n) (hlt : n < 2 ^ 64) : wrap n < 0 := by
  rw [wrap_eq_bmod, Int.bmod_neg_iff (by omega) (by omega)]
  omega

/-- A value is too small as a signed word if it is below the bound or has no sign bit to spare. -/
theorem wrap_lt_iff (hleast : 0 ≤ least) (hn : n < 2 ^ 64) :
    wrap n < least ↔ (n : ℤ) < least ∨ 2 ^ 63 ≤ n := by
  rcases Nat.lt_or_ge n (2 ^ 63) with h | h
  · rw [wrap_of_lt h, or_iff_left (Nat.not_le.2 h)]
  · exact iff_of_true ((wrap_neg h hn).trans_le hleast) (.inr h)

open Numeral

/-- What the text of a setting gives. -/
inductive Settles (key : Text) (default least : Int) : Text → Except Misuse Int → Prop
  | empty : Settles key default least [] (.ok default)
  | number {value : Text} {n : ℕ} (h : Spells value n) (hle : least ≤ n) (hlt : n < 2 ^ 63) :
      Settles key default least value (.ok n)
  | tooSmall {value : Text} {n : ℕ} (h : Spells value n) (hlt : n < 2 ^ 64)
      (hsmall : (n : ℤ) < least ∨ 2 ^ 63 ≤ n) :
      Settles key default least value (.error (.settingTooSmall key))
  | invalid {value : Text} (hne : value ≠ []) (h : ∀ n, Spells value n → 2 ^ 64 ≤ n) :
      Settles key default least value (.error (.invalidSetting key))

theorem settingNumber_of_spells (h : Spells value n) (hn : n < 2 ^ 64) :
    settingNumber key value default least =
      if wrap n < least then .error (.settingTooSmall key) else .ok (wrap n) := by
  have hempty : value.isEmpty = false := by simpa using h.ne_nil
  rw [settingNumber, hempty, natural_word_iff.2 ⟨h, hn⟩]
  rfl

theorem settingNumber_of_not_spells (hne : value ≠ []) (h : ∀ n, Spells value n → 2 ^ 64 ≤ n) :
    settingNumber key value default least = .error (.invalidSetting key) := by
  have hempty : value.isEmpty = false := by simpa using hne
  rw [settingNumber, hempty]
  cases hread : natural (some wordLimit) value with
  | error fault => rfl
  | ok n =>
    obtain ⟨hspells, hlt⟩ := natural_word_iff.1 hread
    exact absurd (h n hspells) (Nat.not_le.2 hlt)

theorem settles_settingNumber (hleast : 0 ≤ least) (key value : Text) (default : Int) :
    Settles key default least value (settingNumber key value default least) := by
  by_cases hempty : value = []
  · subst hempty
    exact .empty
  by_cases hspells : ∃ n, Spells value n ∧ n < 2 ^ 64
  · obtain ⟨n, hn, hlt⟩ := hspells
    rw [settingNumber_of_spells hn hlt]
    split_ifs with hsmall
    · exact .tooSmall hn hlt ((wrap_lt_iff hleast hlt).1 hsmall)
    · rw [wrap_lt_iff hleast hlt, not_or, not_lt, not_le] at hsmall
      rw [wrap_of_lt hsmall.2]
      exact .number hn hsmall.1 hsmall.2
  · have hlarge : ∀ n, Spells value n → 2 ^ 64 ≤ n := by
      intro n hn
      by_contra hlt
      exact hspells ⟨n, hn, Nat.lt_of_not_le hlt⟩
    rw [settingNumber_of_not_spells hempty hlarge]
    exact .invalid hempty hlarge

theorem settingNumber_eq_iff (hleast : 0 ≤ least) {x : Except Misuse Int} :
    settingNumber key value default least = x ↔ Settles key default least value x := by
  constructor
  · rintro rfl
    exact settles_settingNumber hleast key value default
  · intro h
    cases h with
    | empty => rfl
    | number h hle hlt =>
      rw [settingNumber_of_spells h (by omega), wrap_of_lt hlt, if_neg (not_lt.2 hle)]
    | tooSmall h hlt hsmall =>
      rw [settingNumber_of_spells h hlt, if_pos ((wrap_lt_iff hleast hlt).2 hsmall)]
    | invalid hne h => exact settingNumber_of_not_spells hne h

theorem tooSmall_message_ne (key : Text) :
    Misuse.message (.settingTooSmall key) ≠ Misuse.message (.invalidSetting key) := by
  intro h
  have hbyte : some (118 : UInt8) = some 105 := congrArg (fun t : Text => t[8]?) h
  cases hbyte

/-- An empty setting stands for the default. Any other text is refused, or the number that it gives
is the one that it spells, which is then at least the bound and below `2 ^ 63`. It is refused as too
small exactly if it spells a number below `2 ^ 64` that is less than the bound or at least `2 ^ 63`,
and as invalid if it spells no number below `2 ^ 64` at all. -/
theorem settings_never_wrap (hleast : 0 ≤ least) (key value : Text) (default : Int) :
    (value = [] → settingNumber key value default least = .ok default) ∧
    (value ≠ [] → ∀ r, settingNumber key value default least = .ok r ↔
      ∃ n : ℕ, Spells value n ∧ r = n ∧ least ≤ n ∧ n < 2 ^ 63) ∧
    ((∃ e, settingNumber key value default least = .error e ∧
        e.message = "floopt: value too small for " ++ key) ↔
      ∃ n : ℕ, Spells value n ∧ n < 2 ^ 64 ∧ ((n : ℤ) < least ∨ 2 ^ 63 ≤ n)) ∧
    ((∃ e, settingNumber key value default least = .error e ∧
        e.message = "floopt: invalid value for " ++ key) ↔
      value ≠ [] ∧ ∀ n, Spells value n → 2 ^ 64 ≤ n) ∧
    ∀ n m, Spells value n → Spells value m → n = m := by
  simp only [settingNumber_eq_iff hleast]
  refine ⟨?_, fun hne r => ⟨fun h => ?_, ?_⟩, ⟨?_, ?_⟩, ⟨?_, ?_⟩, fun n m hn hm => hn.unique hm⟩
  · rintro rfl
    exact .empty
  · cases h with
    | empty => exact absurd rfl hne
    | number h hle hlt => exact ⟨_, h, rfl, hle, hlt⟩
  · rintro ⟨n, h, rfl, hle, hlt⟩
    exact .number h hle hlt
  · rintro ⟨e, h, hmessage⟩
    cases h with
    | tooSmall h hlt hsmall => exact ⟨_, h, hlt, hsmall⟩
    | invalid => exact absurd hmessage.symm (tooSmall_message_ne key)
  · rintro ⟨n, h, hlt, hsmall⟩
    exact ⟨_, .tooSmall h hlt hsmall, rfl⟩
  · rintro ⟨e, h, hmessage⟩
    cases h with
    | tooSmall => exact absurd hmessage (tooSmall_message_ne key)
    | invalid hne h => exact ⟨hne, h⟩
  · rintro ⟨hne, h⟩
    exact ⟨_, .invalid hne h, rfl⟩

theorem workersSetting_never_wraps :
    (0 : ℤ) ≤ 2 ∧ settingNumber "FLOOPT_WORKERS" "" 1 2 = .ok 1 ∧
      settingNumber "FLOOPT_WORKERS" "0B1_1" 1 2 = .ok 3 ∧
      (∃ n : ℕ, Spells "0B1_1" n ∧ (3 : ℤ) = n ∧ 2 ≤ (n : ℤ) ∧ n < 2 ^ 63) ∧
      settingNumber "FLOOPT_WORKERS" "0x8000_0000_0000_0000" 1 2 =
        .error (.settingTooSmall "FLOOPT_WORKERS") ∧
      ∃ n : ℕ, Spells "0x8000_0000_0000_0000" n ∧ n < 2 ^ 64 ∧ ((n : ℤ) < 2 ∨ 2 ^ 63 ≤ n) := by
  have hleast : (0 : ℤ) ≤ 2 := by decide
  have hok : settingNumber "FLOOPT_WORKERS" "0B1_1" 1 2 = .ok 3 := by cbv
  have herror : settingNumber "FLOOPT_WORKERS" "0x8000_0000_0000_0000" 1 2 =
      .error (.settingTooSmall "FLOOPT_WORKERS") := by cbv
  obtain ⟨hempty, -⟩ := settings_never_wrap hleast "FLOOPT_WORKERS" "" 1
  obtain ⟨-, hnumber, -⟩ := settings_never_wrap hleast "FLOOPT_WORKERS" "0B1_1" 1
  obtain ⟨-, -, hsmall, -⟩ :=
    settings_never_wrap hleast "FLOOPT_WORKERS" "0x8000_0000_0000_0000" 1
  exact ⟨hleast, hempty (by decide), hok, (hnumber (by decide) 3).1 hok, herror,
    hsmall.1 ⟨_, herror, rfl⟩⟩

end Netlist
