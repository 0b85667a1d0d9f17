import Mathlib.Data.List.Find
import Mathlib.Data.List.Infix
import Netlist.Text.Blank

/-!
# Words that are put together and taken apart

A word is a text that is not empty and in which no blank occurs. The parts that `words` cuts a text
into are words, and together, with one space between neighbours, they are no longer than the text.
No blank but the space itself holds a space byte, so a text is cut at a space whatever stands around
it. Hence words that are joined by spaces are found again.

Lines are treated in the same way: what is ended by line feeds is found again if it holds none.
-/

namespace Netlist.Text

variable {s t w x y : Text} {ws : List Text}

theorem ne_nil_of_mem_blanks : ∀ s ∈ blanks, s ≠ [] := by decide

theorem eq_space_of_mem : ∀ s ∈ blanks, 32 ∈ s → s = [32] := by decide

theorem space_mem_blanks : [32] ∈ blanks := by decide

theorem find?_blank_eq_some (h : blanks.find? (·.isPrefixOf t) = some s) : s ∈ blanks ∧ s <+: t :=
  ⟨List.mem_of_find?_eq_some h, by simpa using List.find?_some h⟩

theorem blankLength_eq_zero : blankLength t = 0 ↔ ∀ s ∈ blanks, ¬s <+: t := by
  rw [blankLength]
  cases hf : blanks.find? (·.isPrefixOf t) with
  | none => simpa using hf
  | some s =>
    obtain ⟨hs, hp⟩ := find?_blank_eq_some hf
    have hlen : s.length ≠ 0 := by simpa using ne_nil_of_mem_blanks s hs
    simp only [Option.map_some, Option.getD_some, hlen, false_iff]
    exact fun h => h s hs hp

theorem blankLength_le (t : Text) : blankLength t ≤ t.length := by
  rw [blankLength]
  cases hf : blanks.find? (·.isPrefixOf t) with
  | none => exact Nat.zero_le _
  | some s => exact (find?_blank_eq_some hf).2.length_le

theorem blankLength_space (t : Text) : blankLength (32 :: t) = 1 := by
  rw [blankLength]
  cases hf : blanks.find? (·.isPrefixOf (32 :: t)) with
  | none => simpa using List.find?_eq_none.1 hf [32] space_mem_blanks
  | some s =>
    obtain ⟨hs, hp⟩ := find?_blank_eq_some hf
    obtain hnil | ⟨r, rfl, -⟩ := List.prefix_cons_iff.1 hp
    · exact absurd hnil (ne_nil_of_mem_blanks s hs)
    · rw [eq_space_of_mem _ hs List.mem_cons_self]
      rfl

theorem prefix_append_space (hs : s ∈ blanks) (hx : x ≠ []) : s <+: x ++ 32 :: y ↔ s <+: x := by
  refine ⟨fun h => ?_, fun h => h.trans (List.prefix_append _ _)⟩
  rcases List.prefix_or_prefix_of_prefix h (List.prefix_append x (32 :: y)) with h' | ⟨r, rfl⟩
  · exact h'
  · rcases List.prefix_cons_iff.1 ((List.prefix_append_right_inj x).1 h) with rfl | ⟨r, rfl, -⟩
    · rw [List.append_nil]
    · have heq := eq_space_of_mem _ hs (by simp)
      simp [List.append_eq_singleton_iff, hx] at heq

theorem blankLength_append_space (hx : x ≠ []) :
    blankLength (x ++ 32 :: y) = blankLength x := by
  have hcongr : blanks.find? (·.isPrefixOf (x ++ 32 :: y)) = blanks.find? (·.isPrefixOf x) := by
    refine List.find?_congr fun s hs => ?_
    rw [Bool.eq_iff_iff, List.isPrefixOf_iff_prefix, List.isPrefixOf_iff_prefix]
    exact prefix_append_space hs hx
  rw [blankLength, hcongr, blankLength]

theorem suffix_append_space (hs : s ∈ blanks) (hy : y ≠ []) (h : s <:+ x ++ 32 :: y) :
    s <:+ y := by
  have hy' : 32 :: y <:+ x ++ 32 :: y := List.suffix_append x (32 :: y)
  rcases List.suffix_or_suffix_of_suffix h hy' with h' | h'
  · rcases List.suffix_cons_iff.1 h' with rfl | h'
    · have heq := eq_space_of_mem _ hs List.mem_cons_self
      simp [hy] at heq
    · exact h'
  · have heq := eq_space_of_mem s hs (h'.subset List.mem_cons_self)
    have hlen := h'.length_le
    simp [heq, hy] at hlen

/-- A text that the words of a line may be. -/
structure IsWord (w : Text) : Prop where
  ne_nil : w ≠ []
  blankFree : ∀ s ∈ blanks, ¬s <:+: w

theorem IsWord.notMem (hw : IsWord w) {b : UInt8} (hb : [b] ∈ blanks) : b ∉ w := by
  intro hmem
  obtain ⟨l, r, rfl⟩ := List.append_of_mem hmem
  exact hw.blankFree [b] hb ⟨l, r, by simp⟩

theorem wordsFrom_space (word y : Text) :
    wordsFrom 0 word (32 :: y) = (if word.isEmpty then [] else [word.reverse]) ++ words y := by
  rw [wordsFrom, blankLength_space]
  split_ifs <;> rfl

theorem wordsFrom_append_space {skip : Nat} {word : Text} (hskip : skip ≤ x.length) :
    wordsFrom skip word (x ++ 32 :: y) = wordsFrom skip word x ++ words y := by
  induction x generalizing skip word with
  | nil =>
    obtain rfl : skip = 0 := by simpa using hskip
    rw [List.nil_append, wordsFrom_space, wordsFrom]
  | cons b x ih =>
    cases skip with
    | succ skip =>
      rw [List.cons_append, wordsFrom, wordsFrom]
      exact ih (by simpa using hskip)
    | zero =>
      have hlen := blankLength_le (b :: x)
      rw [List.cons_append, wordsFrom, wordsFrom, ← List.cons_append,
        blankLength_append_space (List.cons_ne_nil b x)]
      cases hn : blankLength (b :: x) with
      | zero => exact ih (Nat.zero_le _)
      | succ n =>
        rw [hn, List.length_cons] at hlen
        simp only [ih (Nat.le_of_succ_le_succ hlen)]
        split_ifs <;> rfl

/-- A space separates words, whatever stands on either side of it. -/
theorem words_append_space (x y : Text) : words (x ++ 32 :: y) = words x ++ words y :=
  wordsFrom_append_space (Nat.zero_le _)

theorem wordsFrom_of_blankFree {word : Text} (h : ∀ s ∈ blanks, ¬s <:+: w) :
    wordsFrom 0 word w = if word.reverse ++ w = [] then [] else [word.reverse ++ w] := by
  induction w generalizing word with
  | nil => simp [wordsFrom]
  | cons b w ih =>
    have hb : blankLength (b :: w) = 0 :=
      blankLength_eq_zero.2 fun s hs hp => h s hs hp.isInfix
    have hw : ∀ s ∈ blanks, ¬s <:+: w := fun s hs hi => h s hs (List.infix_cons hi)
    rw [wordsFrom, hb]
    simp [ih hw]

theorem IsWord.words_eq (hw : IsWord w) : words w = [w] := by
  simp [words, wordsFrom_of_blankFree hw.blankFree, hw.ne_nil]

/-- No blank starts in a word that is being read, so none lies in it. -/
theorem isWord_of_suffixes (hw : w ≠ []) (h : ∀ s ≠ [], s <:+ w → blankLength (s ++ t) = 0) :
    IsWord w := by
  refine ⟨hw, fun b hb hi => ?_⟩
  obtain ⟨s, hp, hs⟩ := List.infix_iff_prefix_suffix.1 hi
  have hne : s ≠ [] := fun he => ne_nil_of_mem_blanks b hb (List.prefix_nil.1 (he ▸ hp))
  exact blankLength_eq_zero.1 (h s hne hs) b hb (hp.trans (List.prefix_append s t))

theorem isWord_of_mem_wordsFrom {skip : Nat} {word : Text} (hskip : skip = 0 ∨ word = [])
    (hword : ∀ s ≠ [], s <:+ word.reverse → blankLength (s ++ t) = 0)
    (hw : w ∈ wordsFrom skip word t) : IsWord w := by
  have hnew (t : Text) (s : Text) (hs : s ≠ []) (hsuf : s <:+ ([] : Text).reverse) :
      blankLength (s ++ t) = 0 := absurd (List.suffix_nil.1 hsuf) hs
  fun_induction wordsFrom skip word t with
  | case1 skip word hempty => cases hw
  | case2 skip word hempty =>
    rw [List.mem_singleton.1 hw]
    exact isWord_of_suffixes (by simpa using hempty) hword
  | case3 skip word b t ih =>
    obtain rfl : word = [] := hskip.resolve_left (Nat.succ_ne_zero skip)
    exact ih (.inr rfl) (hnew t) hw
  | case4 word b t hb ih =>
    refine ih (.inl rfl) (fun s hs hsuf => ?_) hw
    rw [List.reverse_cons, List.suffix_concat_iff] at hsuf
    obtain ⟨r, rfl, hr⟩ := hsuf.resolve_left hs
    rw [List.append_assoc, List.singleton_append]
    rcases eq_or_ne r [] with rfl | hne
    · exact hb
    · exact hword r hne hr
  | case5 word b t n hb hempty ih => exact ih (.inr rfl) (hnew t) hw
  | case6 word b t n hb hempty ih =>
    rcases List.mem_cons.1 hw with rfl | hw
    · exact isWord_of_suffixes (by simpa using hempty) hword
    · exact ih (.inr rfl) (hnew t) hw

theorem isWord_of_mem_words (hw : w ∈ words t) : IsWord w :=
  isWord_of_mem_wordsFrom (.inl rfl)
    (fun _ hs hsuf => absurd (List.suffix_nil.1 hsuf) hs) hw

theorem exists_wordsFrom_cons {word : Text} (hword : word ≠ []) (t : Text) :
    ∃ w ws, wordsFrom 0 word t = (word.reverse ++ w) :: ws := by
  induction t generalizing word with
  | nil => exact ⟨[], [], by simp [wordsFrom, hword]⟩
  | cons b t ih =>
    rw [wordsFrom]
    cases blankLength (b :: t) with
    | zero =>
      obtain ⟨w, ws, h⟩ := ih (List.cons_ne_nil b word)
      exact ⟨b :: w, ws, by simp [h]⟩
    | succ n => exact ⟨[], wordsFrom n [] t, by simp [hword]⟩

/-- The first word of a text that starts with no blank starts as the text does. -/
theorem head?_of_words_cons (ht : blankLength t = 0) (h : words t = w :: ws) :
    w.head? = t.head? := by
  cases t with
  | nil => cases h
  | cons b t =>
    obtain ⟨w', ws', h'⟩ := exists_wordsFrom_cons (List.cons_ne_nil b []) t
    rw [words, wordsFrom, ht] at h
    rw [h'] at h
    obtain ⟨rfl, -⟩ := List.cons.inj h
    rfl

/-- Each word can be followed by a space of its own in the room of the text and one space more. -/
theorem length_wordsFrom_le (skip : Nat) (word t : Text) :
    ((wordsFrom skip word t).flatMap (· ++ [32])).length ≤ word.length + t.length + 1 := by
  fun_induction wordsFrom skip word t with
  | case1 skip word hempty => simp
  | case2 skip word hempty => simp
  | case3 skip word b t ih =>
    rw [List.length_cons]
    omega
  | case4 word b t hb ih =>
    rw [List.length_cons] at ih ⊢
    omega
  | case5 word b t n hb hempty ih =>
    rw [List.length_cons]
    rw [List.length_nil] at ih
    omega
  | case6 word b t n hb hempty ih =>
    rw [List.flatMap_cons, List.length_append, List.length_append, List.length_reverse,
      List.length_singleton, List.length_cons]
    rw [List.length_nil] at ih
    omega

theorem join_byte (b : UInt8) (w w' : Text) (ws : List Text) :
    join [b] (w :: w' :: ws) = w ++ b :: join [b] (w' :: ws) := by
  rw [join, List.intercalate_cons_cons, List.append_assoc]
  rfl

theorem join_cons_cons (w w' : Text) (ws : List Text) :
    join " " (w :: w' :: ws) = w ++ 32 :: join " " (w' :: ws) := by
  have hspace : (" " : Text) = [32] := by decide
  rw [hspace, join_byte]

theorem join_singleton (w : Text) : join " " [w] = w := List.intercalate_singleton

theorem join_append_space (w : Text) (ws : List Text) :
    join " " (w :: ws) ++ [32] = (w :: ws).flatMap (· ++ [32]) := by
  induction ws generalizing w with
  | nil => simp [join_singleton]
  | cons w' ws ih =>
    rw [join_cons_cons, List.append_assoc, List.cons_append, ih w', List.append_cons]
    rfl

theorem length_le_join (hw : w ∈ ws) : w.length ≤ (join " " ws).length := by
  induction ws with
  | nil => cases hw
  | cons w' ws ih =>
    cases ws with
    | nil => rw [join_singleton, List.mem_singleton.1 hw]
    | cons w'' ws =>
      rw [join_cons_cons, List.length_append, List.length_cons]
      rcases List.mem_cons.1 hw with rfl | hw
      · exact Nat.le_add_right _ _
      · have hle := ih hw
        omega

theorem length_join_words_le (t : Text) : (join " " (words t)).length ≤ t.length := by
  have hlen := length_wordsFrom_le 0 [] t
  rw [← words] at hlen
  cases hw : words t with
  | nil => exact Nat.zero_le _
  | cons w ws =>
    rw [hw, ← join_append_space, List.length_append, List.length_singleton, List.length_nil] at hlen
    omega

theorem join_ne_nil {separator : Text} (hw : w ≠ []) : join separator (w :: ws) ≠ [] := by
  cases ws with
  | nil => rwa [join, List.intercalate_singleton]
  | cons w' ws => simp [join, List.intercalate_cons_cons, hw]

theorem words_join (h : ∀ w ∈ ws, IsWord w) : words (join " " ws) = ws := by
  induction ws with
  | nil => rfl
  | cons w ws ih =>
    obtain ⟨hw, hws⟩ := List.forall_mem_cons.1 h
    cases ws with
    | nil => rw [join_singleton, hw.words_eq]
    | cons w' ws =>
      rw [join_cons_cons, words_append_space, hw.words_eq, ih hws, List.singleton_append]

/-- No blank stands at either end. -/
structure Trimmed (t : Text) : Prop where
  front : ∀ s ∈ blanks, ¬s <+: t
  back : ∀ s ∈ blanks, ¬s <:+ t

theorem trimmed_join (hw : IsWord w) (hws : ∀ w' ∈ ws, IsWord w') :
    Trimmed (join " " (w :: ws)) := by
  induction ws generalizing w with
  | nil =>
    rw [join_singleton]
    exact ⟨fun s hs h => hw.blankFree s hs h.isInfix, fun s hs h => hw.blankFree s hs h.isInfix⟩
  | cons w' ws ih =>
    obtain ⟨hw', hws⟩ := List.forall_mem_cons.1 hws
    rw [join_cons_cons]
    refine ⟨fun s hs h => ?_, fun s hs h => ?_⟩
    · exact hw.blankFree s hs ((prefix_append_space hs hw.ne_nil).1 h).isInfix
    · exact (ih hw' hws).back s hs (suffix_append_space hs (join_ne_nil hw'.ne_nil) h)

theorem after?_eq_none {openings : List Text} :
    after? openings t = none ↔ ∀ s ∈ openings, ¬s <+: t := by
  rw [after?, List.findSome?_eq_none_iff]
  refine forall₂_congr fun s _ => ?_
  rw [Option.eq_none_iff_forall_ne_some, List.IsPrefix]
  simp [List.isPrefixOf?_eq_some_iff_append_eq]

theorem after?_eq_some {openings : List Text} (h : after? openings t = some x) :
    ∃ s ∈ openings, s ++ x = t := by
  obtain ⟨s, hs, hx⟩ := List.exists_of_findSome?_eq_some h
  exact ⟨s, hs, List.isPrefixOf?_eq_some_iff_append_eq.1 hx⟩

section Openings

variable {openings : List Text}

theorem dropOpenings_eq_self (h : ∀ s ∈ openings, ¬s <+: t) (n : Nat) :
    dropOpenings openings n t = t := by
  cases n with
  | zero => rfl
  | succ n => rw [dropOpenings, after?_eq_none.2 h]

theorem dropOpenings_suffix (openings : List Text) (n : Nat) (t : Text) :
    dropOpenings openings n t <:+ t := by
  induction n generalizing t with
  | zero => exact List.suffix_refl t
  | succ n ih =>
    rw [dropOpenings]
    cases h : after? openings t with
    | none => exact List.suffix_refl t
    | some x =>
      obtain ⟨s, -, rfl⟩ := after?_eq_some h
      exact (ih x).trans (List.suffix_append s x)

theorem not_prefix_dropOpenings (hne : ∀ s ∈ openings, s ≠ []) {n : Nat} (hn : t.length ≤ n) :
    ∀ s ∈ openings, ¬s <+: dropOpenings openings n t := by
  induction n generalizing t with
  | zero =>
    obtain rfl : t = [] := by simpa using hn
    exact fun s hs h => hne s hs (List.prefix_nil.1 h)
  | succ n ih =>
    rw [dropOpenings]
    cases h : after? openings t with
    | none => exact after?_eq_none.1 h
    | some x =>
      obtain ⟨s, hs, rfl⟩ := after?_eq_some h
      have hpos := List.length_pos_iff.2 (hne s hs)
      rw [List.length_append] at hn
      exact ih (by omega)

end Openings

theorem Trimmed.trimStart_eq (h : Trimmed t) : trimStart t = t := dropOpenings_eq_self h.front _

theorem Trimmed.trimEnd_eq (h : Trimmed t) : trimEnd t = t := by
  have hback : ∀ s ∈ blanks.map List.reverse, ¬s <+: t.reverse := by
    intro r hr hp
    obtain ⟨s, hs, rfl⟩ := List.mem_map.1 hr
    exact h.back s hs (List.reverse_prefix.1 hp)
  rw [trimEnd, dropOpenings_eq_self hback, List.reverse_reverse]

theorem Trimmed.dropReturn_eq (h : Trimmed t) : dropReturn t = t := by
  rw [dropReturn, if_neg]
  intro hlast
  obtain ⟨l, rfl⟩ := List.getLast?_eq_some_iff.1 hlast
  exact h.back [13] (by decide) (List.suffix_append l [13])

theorem blankLength_trimStart (t : Text) : blankLength (trimStart t) = 0 :=
  blankLength_eq_zero.2 (not_prefix_dropOpenings ne_nil_of_mem_blanks le_rfl)

theorem trimEnd_prefix (t : Text) : trimEnd t <+: t := by
  rw [← List.reverse_suffix, trimEnd, List.reverse_reverse]
  exact dropOpenings_suffix _ _ _

theorem dropReturn_prefix (t : Text) : dropReturn t <+: t := by
  rw [dropReturn]
  split_ifs
  · exact List.dropLast_prefix t
  · exact List.prefix_refl t

theorem lines_append_lineFeed (hx : lineFeed ∉ x) : lines (x ++ lineFeed :: y) = x :: lines y := by
  induction x with
  | nil => rw [List.nil_append, lines_cons, consByte.eq_def, if_pos rfl]
  | cons b x ih =>
    obtain ⟨hb, hx⟩ := not_or.1 (List.mem_cons.not.1 hx)
    rw [List.cons_append, lines_cons, ih hx, consByte.eq_def, if_neg (Ne.symm hb)]

theorem lines_flatMap {ls : List Text} (h : ∀ l ∈ ls, lineFeed ∉ l) :
    lines (ls.flatMap (· ++ [lineFeed])) = ls := by
  induction ls with
  | nil => rfl
  | cons l ls ih =>
    obtain ⟨hl, hls⟩ := List.forall_mem_cons.1 h
    rw [List.flatMap_cons, List.append_assoc, List.singleton_append, lines_append_lineFeed hl,
      ih hls]

theorem lineFeed_notMem_join (h : ∀ w ∈ ws, IsWord w) : lineFeed ∉ join " " ws := by
  induction ws with
  | nil => exact List.not_mem_nil
  | cons w ws ih =>
    obtain ⟨hw, hws⟩ := List.forall_mem_cons.1 h
    have hfeed : lineFeed ∉ w := hw.notMem (by decide)
    cases ws with
    | nil => rwa [join_singleton]
    | cons w' ws =>
      rw [join_cons_cons, List.mem_append, List.mem_cons]
      rintro (hmem | hmem | hmem)
      · exact hfeed hmem
      · exact absurd hmem (by decide)
      · exact ih hws hmem

end Netlist.Text
