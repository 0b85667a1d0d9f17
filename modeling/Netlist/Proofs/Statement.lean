import Mathlib.Data.List.Nodup
import Mathlib.Data.List.TakeWhile
import Netlist.Format.Parse
import Netlist.Proofs.Numeral
import Netlist.Proofs.Parse
import Netlist.Proofs.Temporary
import Netlist.Proofs.Words

/-!
# Statements that are written and read

`Statement.line` writes a statement on a line. A statement is `Legible` if the line says what it
means: its destination and its arguments are words, the destination neither looks like a constant
nor opens a comment, the opcode has a name, and width and depth do not pass the limit.

A legible statement is read back from its line. Conversely each statement of a text is legible, and
its line is no longer than the one that it was read from. So the lines of statements with distinct
destinations are read as these statements, provided that none of the lines is too long.
-/

namespace Netlist

variable {t name word : Text} {w depth : Width} {v : Node}

/-- All bytes are printable ASCII characters other than the space. -/
def Text.Graphic (t : Text) : Prop := ∀ b ∈ t, 33 ≤ b ∧ b ≤ 126

instance (t : Text) : Decidable t.Graphic :=
  List.decidableBAll (fun b => 33 ≤ b ∧ b ≤ 126) t

theorem Text.Graphic.isWord (h : t.Graphic) (hne : t ≠ []) : Text.IsWord t := by
  have hblank : ∀ s ∈ Text.blanks, ¬s.Graphic := by decide
  exact ⟨hne, fun s hs hi => hblank s hs fun b hb => h b (hi.subset hb)⟩

theorem Text.Graphic.append {t' : Text} (h : t.Graphic) (h' : t'.Graphic) :
    Text.Graphic (t ++ t') :=
  List.forall_mem_append.2 ⟨h, h'⟩

theorem Text.graphic_decimal (n : Nat) : (Text.decimal n).Graphic := by
  intro b hb
  have hdigit := Text.isDigit_of_mem_decimal hb
  have hrange : (33 : UInt8) ≤ 48 ∧ (57 : UInt8) ≤ 126 := by decide
  simp only [Text.isDigit, Bool.and_eq_true, decide_eq_true_eq] at hdigit
  exact ⟨UInt8.le_trans hrange.1 hdigit.1, UInt8.le_trans hdigit.2 hrange.2⟩

/-- What may stand for a node that is not a constant. -/
structure IsName (t : Text) : Prop where
  word : Text.IsWord t
  notLiteral : isLiteral t = false
  notComment : t.head? ≠ some 35

/-- A width or depth that can be written and read. -/
def Width.Fits (w : Width) : Prop := 0 ≤ w ∧ w ≤ widthLimit

theorem Width.Fits.ofInt_eq (h : w.Fits) :
    ∃ n : Nat, w = n ∧ n ≤ widthLimit ∧ Text.ofInt w = Text.decimal n := by
  obtain ⟨hpos, hle⟩ := h
  obtain ⟨n, rfl⟩ := Int.eq_ofNat_of_zero_le hpos
  exact ⟨n, rfl, Int.ofNat_le.1 hle, rfl⟩

theorem Width.Fits.isKnown (h : w.Fits) : w.isKnown = true := by
  simpa [Width.isKnown] using h.1

theorem Width.fits_of_isKnown (h : w = .unknown ∨ w.Fits) (hk : w.isKnown = true) : w.Fits := by
  rcases h with rfl | h
  · cases hk
  · exact h

theorem Width.suffix_of_isKnown (h : w.isKnown = true) : w.suffix = quoteMark :: Text.ofInt w := by
  have hquote : ("'" : Text) = [quoteMark] := by decide
  rw [suffix, if_pos h, hquote]
  rfl

theorem decimal?_ofInt (h : w.Fits) :
    ∃ n : Nat, w = n ∧ Numeral.decimal? widthLimit (Text.ofInt w) = some n := by
  obtain ⟨n, hw, hn, htext⟩ := h.ofInt_eq
  exact ⟨n, hw, by rw [htext, Numeral.decimal?_decimal hn]⟩

theorem graphic_ofInt (h : w.Fits) : (Text.ofInt w).Graphic := by
  obtain ⟨n, rfl, -, htext⟩ := h.ofInt_eq
  rw [htext]
  exact Text.graphic_decimal n

theorem isWord_ofInt (h : w.Fits) : Text.IsWord (Text.ofInt w) := by
  refine (graphic_ofInt h).isWord ?_
  obtain ⟨n, rfl, -, htext⟩ := h.ofInt_eq
  rw [htext]
  exact Text.decimal_ne_nil n

theorem splitWidth_suffix (hname : quoteMark ∉ name) (hw : w = .unknown ∨ w.Fits) :
    splitWidth (name ++ w.suffix) = .ok (name, w) := by
  have hall : ∀ b ∈ name, (b != quoteMark) = true := by
    intro b hb
    exact bne_iff_ne.2 fun he => hname (he ▸ hb)
  rcases hw with rfl | hw
  · have hsuffix : Width.suffix .unknown = [] := rfl
    have hdrop : name.dropWhile (· != quoteMark) = [] := by
      rw [List.dropWhile_eq_nil_iff]
      exact hall
    rw [hsuffix, List.append_nil, splitWidth, hdrop]
  · obtain ⟨n, rfl, hn⟩ := decimal?_ofInt hw
    rw [Width.suffix_of_isKnown hw.isKnown, splitWidth, List.dropWhile_append_of_pos hall,
      List.takeWhile_append_of_pos hall]
    simp [hn]

/-- The parts of a word, written anew, are no longer than the word. -/
theorem splitWidth_eq_ok (h : splitWidth word = .ok (name, w)) :
    (w = .unknown ∨ w.Fits) ∧ (name ++ w.suffix).length ≤ word.length := by
  rw [splitWidth] at h
  have hcut := List.takeWhile_append_dropWhile (p := (· != quoteMark)) (l := word)
  cases hd : word.dropWhile (· != quoteMark) with
  | nil =>
    rw [hd] at h
    cases h
    exact ⟨.inl rfl, by simp [Width.suffix, Width.isKnown, Width.unknown]⟩
  | cons b digits =>
    rw [hd] at h
    dsimp only at h
    cases hn : Numeral.decimal? widthLimit digits with
    | none =>
      rw [hn] at h
      cases h
    | some n =>
      rw [hn] at h
      cases h
      obtain ⟨hle, hlen⟩ := Numeral.decimal?_eq_some hn
      have hfits : Width.Fits n := ⟨Int.natCast_nonneg n, Int.ofNat_le.2 hle⟩
      have hword := congrArg List.length hcut
      rw [hd, List.length_append, List.length_cons] at hword
      refine ⟨.inr hfits, ?_⟩
      rw [Width.suffix_of_isKnown hfits.isKnown, List.length_append, List.length_cons, ← hword]
      exact Nat.add_le_add_left (Nat.succ_le_succ hlen) _

namespace Opcode

theorem ofName?_eq_some {op : Opcode} : ofName? t = some op ↔ op ∈ assigned ∧ op.name = t :=
  find?_key_eq_some name_injOn_assigned

theorem name_ne_mem : ∀ op ∈ assigned, op.name ≠ "mem" := by decide

theorem graphic_name : ∀ op ∈ assigned, op.name ≠ [] ∧ op.name.Graphic := by decide

theorem quoteMark_notMem_name : ∀ op ∈ assigned, quoteMark ∉ op.name := by decide

end Opcode

theorem isWord_name_suffix (hne : name ≠ []) (hname : name.Graphic)
    (hw : w = .unknown ∨ w.Fits) : Text.IsWord (name ++ w.suffix) := by
  refine Text.Graphic.isWord (hname.append ?_) (by simp [hne])
  rcases hw with rfl | hw
  · exact List.forall_mem_nil _
  · rw [Width.suffix_of_isKnown hw.isKnown]
    exact List.forall_mem_cons.2 ⟨by decide, graphic_ofInt hw⟩

namespace Statement

variable {s : Statement} {names : List Text}

def words : Statement → List Text
  | memory dest width depth => [dest, "=", "mem" ++ width.suffix, Text.ofInt depth]
  | operation dest opcode width args => dest :: "=" :: (opcode.name ++ width.suffix) :: args

def line (s : Statement) : Text := Text.join " " s.words

def Legible : Statement → Prop
  | memory dest width depth => IsName dest ∧ (width = .unknown ∨ width.Fits) ∧ depth.Fits
  | operation dest opcode width args => IsName dest ∧ opcode ∈ Opcode.assigned ∧
      (width = .unknown ∨ width.Fits) ∧ ∀ arg ∈ args, Text.IsWord arg

theorem Legible.isName (h : s.Legible) : IsName s.dest := by
  cases s with
  | memory dest width depth => exact h.1
  | operation dest opcode width args => exact h.1

theorem isWord_equals : Text.IsWord "=" := Text.Graphic.isWord (by decide) (by decide)

theorem Legible.words (h : s.Legible) : ∀ word ∈ s.words, Text.IsWord word := by
  cases s with
  | memory dest width depth =>
    obtain ⟨hdest, hwidth, hdepth⟩ := h
    have hmem : Text.IsWord (("mem" : Text) ++ width.suffix) :=
      isWord_name_suffix (by decide) (by decide) hwidth
    simp [Statement.words, hdest.word, isWord_equals, hmem, isWord_ofInt hdepth]
  | operation dest opcode width args =>
    obtain ⟨hdest, hopcode, hwidth, hargs⟩ := h
    obtain ⟨hne, hgraphic⟩ := Opcode.graphic_name opcode hopcode
    have hop := isWord_name_suffix hne hgraphic hwidth
    simpa [Statement.words, hdest.word, isWord_equals, hop] using hargs

theorem exists_words_eq_cons (s : Statement) : ∃ rest, s.words = s.dest :: rest := by
  cases s <;> exact ⟨_, rfl⟩

theorem Legible.trimmed (h : s.Legible) : Text.Trimmed s.line := by
  obtain ⟨rest, hrest⟩ := s.exists_words_eq_cons
  have hwords := h.words
  rw [hrest, List.forall_mem_cons] at hwords
  rw [line, hrest]
  exact Text.trimmed_join hwords.1 hwords.2

theorem line_head? (h : s.Legible) : s.line.head? = s.dest.head? := by
  obtain ⟨rest, hrest⟩ := s.exists_words_eq_cons
  have hne := h.isName.word.ne_nil
  rw [line, hrest]
  cases rest with
  | nil => rw [Text.join_singleton]
  | cons w rest => rw [Text.join_cons_cons, List.head?_append_of_ne_nil _ hne]

theorem ofWords_words (h : s.Legible) : ∃ a, Assignment.ofWords s.words = .ok a ∧
    a.dest = s.dest ∧ a.statement = .ok s := by
  cases s with
  | memory dest width depth =>
    obtain ⟨hdest, hwidth, hdepth⟩ := h
    have hmem : splitWidth (("mem" : Text) ++ width.suffix) = .ok ("mem", width) :=
      splitWidth_suffix (by decide) hwidth
    refine ⟨⟨dest, "mem", width, [Text.ofInt depth]⟩, ?_, rfl, ?_⟩
    · simp [words, Assignment.ofWords, hdest.notLiteral, hmem]
    · obtain ⟨n, rfl, hn⟩ := decimal?_ofInt hdepth
      simp [Assignment.statement, hn]
  | operation dest opcode width args =>
    obtain ⟨hdest, hopcode, hwidth, -⟩ := h
    refine ⟨⟨dest, opcode.name, width, args⟩, ?_, rfl, ?_⟩
    · simp [words, Assignment.ofWords, hdest.notLiteral,
        splitWidth_suffix (Opcode.quoteMark_notMem_name opcode hopcode) hwidth]
    · rw [Assignment.statement, if_neg (Opcode.name_ne_mem opcode hopcode)]
      dsimp only
      rw [Opcode.ofName?_eq_some.2 ⟨hopcode, rfl⟩]

/-- A legible statement with a new destination is read back from its line. -/
theorem ofText_line (h : s.Legible) (hnew : s.dest ∉ names) : ofText names s.line = .ok s := by
  obtain ⟨a, ha, hdest, hs⟩ := ofWords_words h
  have hread : Assignment.ofText s.line = .ok a := by
    rw [Assignment.ofText, line, Text.words_join h.words, ha]
  refine bind_eq_ok.2 ⟨a, hread, ?_⟩
  rwa [hdest, if_neg hnew]

theorem ofWords_eq_ok {ws : List Text} {a : Assignment} (h : Assignment.ofWords ws = .ok a) :
    ∃ word, ws = a.dest :: "=" :: word :: a.args ∧ isLiteral a.dest = false ∧
      splitWidth word = .ok (a.name, a.width) := by
  unfold Assignment.ofWords at h
  split at h
  · next dest equals word args =>
    split_ifs at h with hequals hliteral
    cases hw : splitWidth word with
    | error fault =>
      rw [hw] at h
      cases h
    | ok parts =>
      rw [hw] at h
      cases h
      exact ⟨word, by rw [not_not.1 hequals], by simpa using hliteral, hw⟩
  · cases h

theorem statement_cases {a : Assignment} (h : a.statement = .ok s) :
    (∃ digits depth, a.name = "mem" ∧ a.args = [digits] ∧
        Numeral.decimal? widthLimit digits = some depth ∧ s = .memory a.dest a.width depth) ∨
      ∃ opcode ∈ Opcode.assigned, opcode.name = a.name ∧
        s = .operation a.dest opcode a.width a.args := by
  rw [Assignment.statement] at h
  split_ifs at h with hname
  · cases hargs : a.args with
    | nil =>
      rw [hargs] at h
      cases h
    | cons digits rest =>
      cases rest with
      | cons _ _ =>
        rw [hargs] at h
        cases h
      | nil =>
        simp only [hargs] at h
        cases hd : Numeral.decimal? widthLimit digits with
        | none =>
          rw [hd] at h
          cases h
        | some depth =>
          rw [hd] at h
          cases h
          exact .inl ⟨digits, depth, hname, rfl, hd, rfl⟩
  · cases ho : Opcode.ofName? a.name with
    | none =>
      rw [ho] at h
      cases h
    | some opcode =>
      rw [ho] at h
      cases h
      obtain ⟨hmem, hopcode⟩ := Opcode.ofName?_eq_some.1 ho
      exact .inr ⟨opcode, hmem, hopcode, rfl⟩

theorem length_line_le {ws : List Text} {word : Text}
    (h : (s.words.flatMap (· ++ [32])).length ≤ ((word :: ws).flatMap (· ++ [32])).length) :
    s.line.length ≤ (Text.join " " (word :: ws)).length := by
  obtain ⟨rest, hrest⟩ := s.exists_words_eq_cons
  rw [hrest, ← Text.join_append_space, ← Text.join_append_space, List.length_append,
    List.length_append] at h
  rw [line, hrest]
  exact Nat.le_of_add_le_add_right h

/-- A statement that is read is legible, and its line is no longer than what it was read from. -/
theorem legible_of_ofText (hfront : Text.blankLength t = 0) (hcomment : t.head? ≠ some 35)
    (h : ofText names t = .ok s) : s.Legible ∧ s.line.length ≤ t.length := by
  obtain ⟨a, ha, h⟩ := bind_eq_ok.1 h
  split_ifs at h with hold
  obtain ⟨word, hwords, hliteral, hword⟩ := ofWords_eq_ok ha
  obtain ⟨hwidth, hlen⟩ := splitWidth_eq_ok hword
  have hisWord (w : Text) (hw : w ∈ a.dest :: "=" :: word :: a.args) : Text.IsWord w :=
    Text.isWord_of_mem_words (hwords ▸ hw)
  have hdest : IsName a.dest := by
    refine ⟨hisWord _ List.mem_cons_self, hliteral, ?_⟩
    rwa [Text.head?_of_words_cons hfront hwords]
  have hshort := Text.length_join_words_le t
  rw [hwords] at hshort
  rw [List.length_append] at hlen
  rcases statement_cases h with ⟨digits, depth, hmem, hargs, hdepth, rfl⟩ |
    ⟨opcode, hop, hname, rfl⟩
  · obtain ⟨hle, hdigits⟩ := Numeral.decimal?_eq_some hdepth
    refine ⟨⟨hdest, hwidth, Int.natCast_nonneg depth, Int.ofNat_le.2 hle⟩,
      (length_line_le ?_).trans hshort⟩
    rw [hmem] at hlen
    simp only [words, hargs, List.flatMap_cons, List.length_append, List.flatMap_nil, Text.ofInt]
    omega
  · refine ⟨⟨hdest, hop, hwidth, fun arg harg => hisWord arg (by simp [harg])⟩,
      (length_line_le ?_).trans hshort⟩
    rw [← hname] at hlen
    simp only [words, List.flatMap_cons, List.length_append]
    omega

end Statement

theorem content?_line {s : Statement} (h : s.Legible) : content? s.line = some s.line := by
  have htrim := h.trimmed
  have hhead := Statement.line_head? h
  have hne := h.isName.word.ne_nil
  have hcomment := h.isName.notComment
  rw [content?, htrim.dropReturn_eq, htrim.trimStart_eq]
  split
  · next hnil =>
    rw [hnil] at hhead
    exact absurd (List.head?_eq_none_iff.1 hhead.symm) hne
  · next rest hrest =>
    rw [hrest] at hhead
    exact absurd hhead.symm hcomment
  · rw [htrim.trimEnd_eq]

theorem content?_eq_some {line source : Text} (h : content? line = some source) :
    Text.blankLength source = 0 ∧ source.head? ≠ some 35 ∧ source.length ≤ line.length := by
  rw [content?] at h
  have hfront := Text.blankLength_trimStart (Text.dropReturn line)
  have hlen : (Text.trimStart (Text.dropReturn line)).length ≤ line.length :=
    (Text.dropOpenings_suffix _ _ _).length_le.trans (Text.dropReturn_prefix line).length_le
  split at h
  · cases h
  · cases h
  · next hnil hhash =>
    cases h
    have hprefix := Text.trimEnd_prefix (Text.trimStart (Text.dropReturn line))
    refine ⟨?_, fun hhead => ?_, hprefix.length_le.trans hlen⟩
    · rw [Text.blankLength_eq_zero] at hfront ⊢
      exact fun s hs hp => hfront s hs (hp.trans hprefix)
    · obtain ⟨rest, hrest⟩ := List.head?_eq_some_iff.1 hhead
      rw [hrest] at hprefix
      obtain ⟨more, hmore⟩ := hprefix
      exact hhash _ hmore.symm

theorem readLines_legible {n : Nat} {read result : List Located} {lines : List Text}
    (hread : ∀ s ∈ read, s.statement.Legible ∧ s.statement.line.length < lineLimit)
    (h : readLines n read lines = .ok result) :
    ∀ s ∈ result, s.statement.Legible ∧ s.statement.line.length < lineLimit := by
  fun_induction readLines n read lines with
  | case1 n read =>
    cases h
    exact fun s hs => hread s (List.mem_reverse.1 hs)
  | case2 n read line lines hlong => cases h
  | case3 n read line lines hlong hblank ih => exact ih hread h
  | case4 n read line lines hlong source hsource fault hfault => cases h
  | case5 n read line lines hlong source hsource s hs ih =>
    obtain ⟨hfront, hcomment, hlen⟩ := content?_eq_some hsource
    obtain ⟨hlegible, hline⟩ := Statement.legible_of_ofText hfront hcomment hs
    refine ih (List.forall_mem_cons.2 ⟨⟨hlegible, ?_⟩, hread⟩) h
    have hshort := Nat.lt_of_not_le hlong
    dsimp only
    omega

/-- The lines of legible statements are read as these statements, if their destinations are new and
none of the lines is too long. -/
theorem exists_readLines (n : Nat) (read : List Located) {sts : List Statement}
    (hlegible : ∀ s ∈ sts, s.Legible) (hshort : ∀ s ∈ sts, s.line.length < lineLimit)
    (hnew : ∀ s ∈ sts, s.dest ∉ read.map Located.dest) (hnodup : (sts.map Statement.dest).Nodup) :
    ∃ result, readLines n read (sts.map Statement.line) = .ok result ∧
      result.map Located.statement = read.reverse.map Located.statement ++ sts := by
  induction sts generalizing n read with
  | nil => exact ⟨read.reverse, rfl, by simp⟩
  | cons s sts ih =>
    obtain ⟨hs, hlegible⟩ := List.forall_mem_cons.1 hlegible
    obtain ⟨hlen, hshort⟩ := List.forall_mem_cons.1 hshort
    obtain ⟨hdest, hnew⟩ := List.forall_mem_cons.1 hnew
    obtain ⟨hother, hnodup⟩ := List.nodup_cons.1 hnodup
    have hnew' : ∀ s' ∈ sts,
        s'.dest ∉ ((⟨n + 1, s.line, s⟩ : Located) :: read).map Located.dest := by
      intro s' hs' hmem
      rcases List.mem_cons.1 hmem with heq | hmem
      · exact hother (List.mem_map.2 ⟨s', hs', heq⟩)
      · exact hnew s' hs' hmem
    obtain ⟨result, hresult, hsts⟩ := ih (n + 1) _ hlegible hshort hnew' hnodup
    refine ⟨result, ?_, by simp [hsts]⟩
    rw [List.map_cons, readLines, if_neg (Nat.not_le.2 hlen), content?_line hs]
    simp only [Statement.ofText_line hs hdest]
    exact hresult

end Netlist
