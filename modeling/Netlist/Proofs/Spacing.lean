import Mathlib
import Netlist.Format.Parse
import Netlist.Proofs.Words

/-!
# Texts as words between blanks

`Spaced` says how a text is made of words and blanks: a word is closed by the end of the text or by
a blank. `words` finds these words and no others. Two facts about the bytes of blanks make the
reading unique: no blank is the beginning of another one, and a byte inside a blank never begins
one, so a word and what follows it have no blank in common.

`Lined` says the same of lines and the line feeds between them, and `Skipped` which lines hold no
statement.
-/

namespace Netlist.Text

variable {s t w x y : Text} {ws : List Text}

theorem eq_of_blank_prefix_blank : ∀ s ∈ blanks, ∀ s' ∈ blanks, s <+: s' → s = s' := by decide

def isContinuation (b : UInt8) : Bool := 128 ≤ b && b < 192

theorem all_tail_isContinuation : ∀ s ∈ blanks, s.tail.all isContinuation = true := by decide

theorem not_isContinuation_head : ∀ s ∈ blanks, s.head?.any isContinuation = false := by decide

theorem blank_unique {s' : Text} (hs : s ∈ blanks) (hs' : s' ∈ blanks) (h : s <+: t)
    (h' : s' <+: t) : s = s' := by
  rcases List.prefix_or_prefix_of_prefix h h' with hp | hp
  · exact eq_of_blank_prefix_blank s hs s' hs' hp
  · exact (eq_of_blank_prefix_blank s' hs' s hs hp).symm

theorem blankLength_blank_append (hs : s ∈ blanks) (t : Text) :
    blankLength (s ++ t) = s.length := by
  have hprefix : s <+: s ++ t := List.prefix_append s t
  rw [blankLength]
  cases hf : blanks.find? (·.isPrefixOf (s ++ t)) with
  | none => simpa using List.find?_eq_none.1 hf s hs
  | some s' =>
    obtain ⟨hs', hp⟩ := find?_blank_eq_some hf
    rw [blank_unique hs hs' hprefix hp]
    rfl

/-- The end of a text, or a place where a blank stands. -/
def Ended (t : Text) : Prop := t = [] ∨ ∃ s ∈ blanks, s <+: t

theorem ended_iff : Ended t ↔ t = [] ∨ blankLength t ≠ 0 := by
  rw [Ended, ne_eq, blankLength_eq_zero]
  push Not
  rfl

/-- A blank that starts before the end of a text or before a blank ends there at the latest. -/
theorem not_prefix_append_ended (hx : x ≠ []) (ht : Ended t) (hfree : ∀ s ∈ blanks, ¬s <+: x) :
    ∀ s ∈ blanks, ¬s <+: x ++ t := by
  intro s hs hp
  obtain ⟨r, rfl⟩ :=
    (List.prefix_or_prefix_of_prefix hp (List.prefix_append x t)).resolve_left (hfree s hs)
  have hr : r <+: t := (List.prefix_append_right_inj x).1 hp
  cases r with
  | nil => exact hfree _ hs (by rw [List.append_nil])
  | cons b r =>
    rcases ht with rfl | ⟨s', hs', hp'⟩
    · cases List.prefix_nil.1 hr
    · have hhead : s'.head? = some b := by
        obtain ⟨c, s', rfl⟩ := List.exists_cons_of_ne_nil (ne_nil_of_mem_blanks s' hs')
        obtain ⟨_, rfl⟩ := hr
        obtain ⟨rfl, -⟩ := List.cons_prefix_cons.1 hp'
        rfl
      have htail : b ∈ (x ++ b :: r).tail := by
        rw [List.tail_append_of_ne_nil hx]
        simp
      have hinside := List.all_eq_true.1 (all_tail_isContinuation _ hs) b htail
      have hfirst := not_isContinuation_head s' hs'
      rw [hhead, Option.any_some, hinside] at hfirst
      cases hfirst

theorem IsWord.blankLength_suffix (hw : IsWord w) (ht : Ended t) (hx : x ≠ []) (h : x <:+ w) :
    blankLength (x ++ t) = 0 := by
  rw [blankLength_eq_zero]
  refine not_prefix_append_ended hx ht fun s hs hsx => ?_
  exact hw.blankFree s hs (List.infix_iff_prefix_suffix.2 ⟨x, hsx, h⟩)

theorem wordsFrom_skip (x word t : Text) :
    wordsFrom x.length word (x ++ t) = wordsFrom 0 word t := by
  induction x with
  | nil => rfl
  | cons b x ih => rw [List.cons_append, List.length_cons, wordsFrom, ih]

theorem wordsFrom_blank (hs : s ∈ blanks) (word t : Text) :
    wordsFrom 0 word (s ++ t) = if word = [] then words t else word.reverse :: words t := by
  have hlen := blankLength_blank_append hs t
  obtain ⟨b, s, rfl⟩ := List.exists_cons_of_ne_nil (ne_nil_of_mem_blanks s hs)
  rw [List.cons_append, List.length_cons] at hlen
  rw [List.cons_append, wordsFrom, hlen]
  simp only [wordsFrom_skip, words, List.isEmpty_iff]

theorem words_blank_append (hs : s ∈ blanks) (t : Text) : words (s ++ t) = words t := by
  rw [words, wordsFrom_blank hs, if_pos rfl]

theorem wordsFrom_append {word : Text} (h : ∀ x ≠ [], x <:+ w → blankLength (x ++ t) = 0) :
    wordsFrom 0 word (w ++ t) = wordsFrom 0 (w.reverse ++ word) t := by
  induction w generalizing word with
  | nil => rfl
  | cons b w ih =>
    have hb := h (b :: w) (List.cons_ne_nil b w) (List.suffix_refl _)
    rw [List.cons_append] at hb
    rw [List.cons_append, wordsFrom, hb]
    simp only
    rw [ih fun x hx hsuf => h x hx (hsuf.trans (List.suffix_cons b w)), List.reverse_cons,
      List.append_assoc, List.singleton_append]

theorem IsWord.words_append (hw : IsWord w) (ht : Ended t) : words (w ++ t) = w :: words t := by
  have hne : w.reverse ≠ [] := by simpa using hw.ne_nil
  rw [words, wordsFrom_append fun x hx h => hw.blankLength_suffix ht hx h, List.append_nil]
  rcases ht with rfl | ⟨s, hs, t, rfl⟩
  · simp [wordsFrom, words, hw.ne_nil]
  · rw [wordsFrom_blank hs, if_neg hne, words_blank_append hs, List.reverse_reverse]

theorem exists_word_append (hne : t ≠ []) (ht : blankLength t = 0) :
    ∃ w y, t = w ++ y ∧ IsWord w ∧ Ended y := by
  have hcut : ∃ w y, t = w ++ y ∧ w ≠ [] ∧ Ended y ∧
      ∀ x ≠ [], x <:+ w → blankLength (x ++ y) = 0 := by
    induction t with
    | nil => exact absurd rfl hne
    | cons b t ih =>
      by_cases hend : Ended t
      · refine ⟨[b], t, rfl, List.cons_ne_nil b [], hend, fun x hx hsuf => ?_⟩
        obtain rfl := (List.suffix_cons_iff.1 hsuf).resolve_right fun h => hx (List.suffix_nil.1 h)
        exact ht
      · rw [ended_iff, not_or, not_not] at hend
        obtain ⟨w, y, rfl, -, hy, hw⟩ := ih hend.1 hend.2
        refine ⟨b :: w, y, rfl, List.cons_ne_nil b w, hy, fun x hx hsuf => ?_⟩
        rcases List.suffix_cons_iff.1 hsuf with rfl | hsuf
        · exact ht
        · exact hw x hx hsuf
  obtain ⟨w, y, rfl, hw, hy, hfree⟩ := hcut
  exact ⟨w, y, rfl, isWord_of_suffixes hw hfree, hy⟩

/-- The words of a text, with blanks before, between and behind them. -/
inductive Spaced : Text → List Text → Prop
  | nil : Spaced [] []
  | blank {s t : Text} {ws : List Text} (hs : s ∈ blanks) (h : Spaced t ws) : Spaced (s ++ t) ws
  | word {w t : Text} {ws : List Text} (hw : IsWord w) (ht : Ended t) (h : Spaced t ws) :
      Spaced (w ++ t) (w :: ws)

theorem spaced_words (t : Text) : Spaced t (words t) := by
  induction hn : t.length using Nat.strongRecOn generalizing t with
  | _ n ih =>
    subst hn
    rcases eq_or_ne t [] with rfl | hne
    · exact .nil
    · by_cases ht : blankLength t = 0
      · obtain ⟨w, y, rfl, hw, hy⟩ := exists_word_append hne ht
        have hpos := List.length_pos_iff.2 hw.ne_nil
        rw [hw.words_append hy]
        exact .word hw hy (ih _ (by rw [List.length_append]; omega) y rfl)
      · obtain ⟨s, hs, y, rfl⟩ := (ended_iff.2 (.inr ht)).resolve_left hne
        have hpos := List.length_pos_iff.2 (ne_nil_of_mem_blanks s hs)
        rw [words_blank_append hs]
        exact .blank hs (ih _ (by rw [List.length_append]; omega) y rfl)

theorem words_eq_iff : words t = ws ↔ Spaced t ws := by
  constructor
  · rintro rfl
    exact spaced_words t
  · intro h
    induction h with
    | nil => rfl
    | blank hs _ ih => rw [words_blank_append hs, ih]
    | word hw ht _ ih => rw [hw.words_append ht, ih]

theorem Spaced.append_blank (hs : s ∈ blanks) (h : Spaced t ws) : Spaced (t ++ s) ws := by
  induction h with
  | nil =>
    rw [List.nil_append, ← List.append_nil s]
    exact .blank hs .nil
  | blank hs' _ ih =>
    rw [List.append_assoc]
    exact .blank hs' ih
  | word hw ht _ ih =>
    rw [List.append_assoc]
    refine .word hw (.inr ?_) ih
    rcases ht with rfl | ⟨s', hs', hp⟩
    · exact ⟨s, hs, List.prefix_refl s⟩
    · exact ⟨s', hs', hp.trans (List.prefix_append _ s)⟩

/-- What holds behind some openings and goes on to hold with an opening more holds of the whole. -/
theorem of_dropOpenings {openings : List Text} {P : Text → Prop}
    (hopening : ∀ s ∈ openings, ∀ x, P x → P (s ++ x)) {n : Nat}
    (h : P (dropOpenings openings n t)) : P t := by
  induction n generalizing t with
  | zero => exact h
  | succ n ih =>
    rw [dropOpenings] at h
    cases hafter : after? openings t with
    | none => rwa [hafter] at h
    | some x =>
      rw [hafter] at h
      obtain ⟨s, hs, rfl⟩ := after?_eq_some hafter
      exact hopening s hs x (ih h)

theorem words_trimStart (t : Text) : words (trimStart t) = words t :=
  (of_dropOpenings (P := fun x => words x = words (trimStart t))
    (fun s hs x hx => by rw [words_blank_append hs, hx]) rfl).symm

theorem words_trimEnd (t : Text) : words (trimEnd t) = words t := by
  have hopening (r : Text) (hr : r ∈ blanks.map List.reverse) (x : Text)
      (hx : words x.reverse = words (trimEnd t)) : words (r ++ x).reverse = words (trimEnd t) := by
    obtain ⟨s, hs, rfl⟩ := List.mem_map.1 hr
    rw [List.reverse_append, List.reverse_reverse]
    exact words_eq_iff.2 ((words_eq_iff.1 hx).append_blank hs)
  have hwhole := of_dropOpenings (P := fun x => words x.reverse = words (trimEnd t)) hopening
    (n := t.length) (t := t.reverse) rfl
  rw [← hwhole, List.reverse_reverse]

theorem ne_nil_of_mem_reverse : ∀ s ∈ blanks.map List.reverse, s ≠ [] := by decide

theorem eq_of_blank_suffix_blank : ∀ s ∈ blanks, ∀ s' ∈ blanks, s <:+ s' → s = s' := by decide

/-- If no opening is the beginning of another one, an opening is found as it stands. -/
theorem after?_append {openings : List Text}
    (hunique : ∀ s ∈ openings, ∀ s' ∈ openings, s <+: s' → s = s') (hs : s ∈ openings) :
    after? openings (s ++ x) = some x := by
  cases h : after? openings (s ++ x) with
  | none => exact absurd (List.prefix_append s x) (after?_eq_none.1 h s hs)
  | some y =>
    obtain ⟨s', hs', heq⟩ := after?_eq_some h
    have hsame : s' = s := by
      rcases List.prefix_or_prefix_of_prefix ⟨y, heq⟩ (List.prefix_append s x) with hp | hp
      · exact hunique s' hs' s hs hp
      · exact (hunique s hs s' hs' hp).symm
    rw [hsame] at heq
    rw [List.append_cancel_left heq]

theorem dropOpenings_flatten {openings ss : List Text} {n : Nat}
    (hunique : ∀ s ∈ openings, ∀ s' ∈ openings, s <+: s' → s = s')
    (hne : ∀ s ∈ openings, s ≠ []) (hss : ∀ s ∈ ss, s ∈ openings)
    (hx : ∀ s ∈ openings, ¬s <+: x) (hn : (ss.flatten ++ x).length ≤ n) :
    dropOpenings openings n (ss.flatten ++ x) = x := by
  induction ss generalizing n with
  | nil => exact dropOpenings_eq_self hx n
  | cons s ss ih =>
    obtain ⟨hs, hss⟩ := List.forall_mem_cons.1 hss
    have hpos := List.length_pos_iff.2 (hne s hs)
    rw [List.flatten_cons, List.append_assoc, List.length_append] at hn
    obtain ⟨n, rfl⟩ : ∃ m, n = m + 1 := ⟨n - 1, by omega⟩
    rw [List.flatten_cons, List.append_assoc, dropOpenings, after?_append hunique hs]
    exact ih hss (by omega)

theorem exists_flatten_dropOpenings (openings : List Text) (n : Nat) (t : Text) :
    ∃ ss : List Text, (∀ s ∈ ss, s ∈ openings) ∧
      t = ss.flatten ++ dropOpenings openings n t := by
  refine of_dropOpenings (P := fun x => ∃ ss : List Text, (∀ s ∈ ss, s ∈ openings) ∧
    x = ss.flatten ++ dropOpenings openings n t) ?_ ⟨[], List.forall_mem_nil _, rfl⟩
  rintro s hs x ⟨ss, hss, hx⟩
  refine ⟨s :: ss, List.forall_mem_cons.2 ⟨hs, hss⟩, ?_⟩
  rw [List.flatten_cons, List.append_assoc, ← hx]

/-- A text without the blanks at both ends. -/
structure Trims (t x : Text) : Prop where
  blanks_around : ∃ front back : List Text, (∀ s ∈ front, s ∈ blanks) ∧ (∀ s ∈ back, s ∈ blanks) ∧
    t = front.flatten ++ (x ++ back.flatten)
  trimmed : Trimmed x

theorem trimStart_eq {ss : List Text} (hss : ∀ s ∈ ss, s ∈ blanks) (hx : ∀ s ∈ blanks, ¬s <+: x) :
    trimStart (ss.flatten ++ x) = x :=
  dropOpenings_flatten eq_of_blank_prefix_blank ne_nil_of_mem_blanks hss hx le_rfl

theorem trimEnd_eq {ss : List Text} (hss : ∀ s ∈ ss, s ∈ blanks) (hx : ∀ s ∈ blanks, ¬s <:+ x) :
    trimEnd (x ++ ss.flatten) = x := by
  have hunique : ∀ s ∈ blanks.map List.reverse, ∀ s' ∈ blanks.map List.reverse,
      s <+: s' → s = s' := by
    simp only [List.forall_mem_map, List.reverse_prefix, List.reverse_inj]
    exact eq_of_blank_suffix_blank
  have hx' : ∀ s ∈ blanks.map List.reverse, ¬s <+: x.reverse := by
    simpa only [List.forall_mem_map, List.reverse_prefix] using hx
  have hss' : ∀ s ∈ (ss.map List.reverse).reverse, s ∈ blanks.map List.reverse := by
    intro r hr
    obtain ⟨s, hs, rfl⟩ := List.mem_map.1 (List.mem_reverse.1 hr)
    exact List.mem_map_of_mem (hss s hs)
  have hreverse : (x ++ ss.flatten).reverse =
      (ss.map List.reverse).reverse.flatten ++ x.reverse := by
    rw [List.reverse_append, List.reverse_flatten]
  have hlen : ((ss.map List.reverse).reverse.flatten ++ x.reverse).length ≤
      (x ++ ss.flatten).length := by rw [← hreverse, List.length_reverse]
  rw [trimEnd, hreverse, dropOpenings_flatten hunique ne_nil_of_mem_reverse hss' hx' hlen,
    List.reverse_reverse]

theorem exists_trimEnd_append (t : Text) :
    ∃ ss : List Text, (∀ s ∈ ss, s ∈ blanks) ∧ t = trimEnd t ++ ss.flatten := by
  obtain ⟨rs, hrs, h⟩ :=
    exists_flatten_dropOpenings (blanks.map List.reverse) t.length t.reverse
  refine ⟨(rs.map List.reverse).reverse, fun s hs => ?_, ?_⟩
  · obtain ⟨r, hr, rfl⟩ := List.mem_map.1 (List.mem_reverse.1 hs)
    obtain ⟨s, hs, rfl⟩ := List.mem_map.1 (hrs r hr)
    rwa [List.reverse_reverse]
  · rw [← List.reverse_flatten, trimEnd, ← List.reverse_append, ← h, List.reverse_reverse]

theorem not_suffix_trimEnd (t : Text) : ∀ s ∈ blanks, ¬s <:+ trimEnd t := by
  intro s hs h
  have hlen : t.reverse.length ≤ t.length := by rw [List.length_reverse]
  rw [← List.reverse_prefix, trimEnd, List.reverse_reverse] at h
  exact not_prefix_dropOpenings ne_nil_of_mem_reverse hlen s.reverse (List.mem_map_of_mem hs) h

theorem trims_iff : Trims t x ↔ trimEnd (trimStart t) = x := by
  constructor
  · rintro ⟨⟨front, back, hfront, hback, rfl⟩, htrimmed⟩
    by_cases hx : x = []
    · subst hx
      have hall : ∀ s ∈ front ++ back, s ∈ blanks :=
        fun s hs => (List.mem_append.1 hs).elim (hfront s) (hback s)
      have hnil := trimStart_eq hall htrimmed.front
      rw [List.append_nil, List.flatten_append] at hnil
      rw [List.nil_append, hnil]
      rfl
    · have hended : Ended back.flatten := by
        cases back with
        | nil => exact .inl rfl
        | cons s back => exact .inr ⟨s, hback s List.mem_cons_self, List.prefix_append _ _⟩
      rw [trimStart_eq hfront (not_prefix_append_ended hx hended htrimmed.front),
        trimEnd_eq hback htrimmed.back]
  · rintro rfl
    obtain ⟨front, hfront, hstart⟩ := exists_flatten_dropOpenings blanks t.length t
    obtain ⟨back, hback, hend⟩ := exists_trimEnd_append (trimStart t)
    refine ⟨⟨front, back, hfront, hback, ?_⟩, fun s hs hp => ?_, not_suffix_trimEnd (trimStart t)⟩
    · rw [← hend]
      exact hstart
    · have hprefix := trimEnd_prefix (trimStart t)
      exact blankLength_eq_zero.1 (blankLength_trimStart t) s hs (hp.trans hprefix)

/-- A text of blanks alone, or one with a number sign behind its blanks. -/
inductive Skipped : Text → Prop
  | nil : Skipped []
  | comment (t : Text) : Skipped (35 :: t)
  | blank {s t : Text} (hs : s ∈ blanks) (h : Skipped t) : Skipped (s ++ t)

theorem head?_ne_numberSign : ∀ s ∈ blanks, s.head? ≠ some 35 := by decide

theorem skipped_iff : Skipped t ↔
    t = [] ∨ t.head? = some 35 ∨ ∃ s ∈ blanks, ∃ x, s ++ x = t ∧ Skipped x := by
  constructor
  · intro h
    cases h with
    | nil => exact .inl rfl
    | comment => exact .inr (.inl rfl)
    | blank hs h => exact .inr (.inr ⟨_, hs, _, rfl, h⟩)
  · rintro (rfl | hhead | ⟨s, hs, x, rfl, h⟩)
    · exact .nil
    · obtain ⟨t, rfl⟩ := List.head?_eq_some_iff.1 hhead
      exact .comment t
    · exact .blank hs h

theorem skipped_blank_append (hs : s ∈ blanks) : Skipped (s ++ t) ↔ Skipped t := by
  refine ⟨fun h => ?_, .blank hs⟩
  rcases skipped_iff.1 h with hnil | hhead | ⟨s', hs', x, heq, hx⟩
  · exact absurd (List.append_eq_nil_iff.1 hnil).1 (ne_nil_of_mem_blanks s hs)
  · rw [List.head?_append_of_ne_nil s (ne_nil_of_mem_blanks s hs)] at hhead
    exact absurd hhead (head?_ne_numberSign s hs)
  · obtain rfl := blank_unique hs' hs ⟨x, heq⟩ (List.prefix_append s t)
    rwa [List.append_cancel_left heq] at hx

theorem skipped_trimStart : Skipped (trimStart t) ↔ Skipped t :=
  of_dropOpenings (P := fun x => Skipped (trimStart t) ↔ Skipped x)
    (fun _ hs _ hx => hx.trans (skipped_blank_append hs).symm) Iff.rfl

/-- The lines of a text. Each ends with a line feed but the last, which may lack it unless it is
empty. -/
inductive Lined : Text → List Text → Prop
  | nil : Lined [] []
  | last {l : Text} (hne : l ≠ []) (hl : lineFeed ∉ l) : Lined l [l]
  | line {l t : Text} {ls : List Text} (hl : lineFeed ∉ l) (h : Lined t ls) :
      Lined (l ++ lineFeed :: t) (l :: ls)

theorem lines_eq_singleton (hne : x ≠ []) (hx : lineFeed ∉ x) : lines x = [x] := by
  induction x with
  | nil => exact absurd rfl hne
  | cons b x ih =>
    obtain ⟨hb, hx⟩ := not_or.1 (List.mem_cons.not.1 hx)
    rw [lines_cons, consByte.eq_def, if_neg (Ne.symm hb)]
    rcases eq_or_ne x [] with rfl | hne
    · rfl
    · rw [ih hne hx]

theorem lined_lines (t : Text) : Lined t (lines t) := by
  induction hn : t.length using Nat.strongRecOn generalizing t with
  | _ n ih =>
    subst hn
    by_cases hmem : lineFeed ∈ t
    · obtain ⟨l, y, rfl, hl⟩ := List.eq_append_cons_of_mem hmem
      rw [lines_append_lineFeed hl]
      refine .line hl (ih _ ?_ y rfl)
      rw [List.length_append, List.length_cons]
      omega
    · rcases eq_or_ne t [] with rfl | hne
      · exact .nil
      · rw [lines_eq_singleton hne hmem]
        exact .last hne hmem

theorem lines_eq_iff {ls : List Text} : lines t = ls ↔ Lined t ls := by
  constructor
  · rintro rfl
    exact lined_lines t
  · intro h
    induction h with
    | nil => rfl
    | last hne hl => exact lines_eq_singleton hne hl
    | line hl _ ih => rw [lines_append_lineFeed hl, ih]

end Netlist.Text

namespace Netlist

variable {line source : Text}

theorem content?_eq_none_iff : content? line = none ↔ Text.Skipped (Text.dropReturn line) := by
  have hfront := Text.blankLength_eq_zero.1 (Text.blankLength_trimStart (Text.dropReturn line))
  have hblank : ¬∃ s ∈ Text.blanks, ∃ x, s ++ x = Text.trimStart (Text.dropReturn line) ∧
      Text.Skipped x := fun ⟨s, hs, x, hx, _⟩ => hfront s hs ⟨x, hx⟩
  rw [← Text.skipped_trimStart, Text.skipped_iff, or_iff_left hblank, content?]
  split
  · next h => simp [h]
  · next h => simp [h]
  · next hnil hcomment =>
    simp only [reduceCtorEq, false_iff, not_or, List.head?_eq_some_iff]
    exact ⟨hnil, fun ⟨t, ht⟩ => hcomment t ht⟩

/-- What a line says is its text without the blanks around it. -/
theorem content?_eq_some_iff : content? line = some source ↔
    ¬Text.Skipped (Text.dropReturn line) ∧ Text.Trims (Text.dropReturn line) source := by
  rw [← content?_eq_none_iff, Text.trims_iff, content?]
  split
  · simp
  · simp
  · simp

theorem words_content? (h : content? line = some source) :
    Text.words source = Text.words (Text.dropReturn line) := by
  rw [content?] at h
  split at h
  · cases h
  · cases h
  · cases h
    rw [Text.words_trimEnd, Text.words_trimStart]

end Netlist
