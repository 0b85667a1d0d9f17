import Mathlib
import Netlist.Proofs.LineOrder

/-!
# Constants

A word that spells an integer, in any base and with any underscores, looks like a constant and has
no quote in it. So it can stand as an operand alone, and then its node is as wide as the binary
digits of its value are many, or with a quote and a width behind it, and then the node has this
width.

`ReadAs` says what it means that a word is read as a constant wherever it stands. It can stand in a
text, as long as it fits into a line, and it is never the reason why a text is refused, no matter
what else is there. In a circuit that was read there is one node of its name, and each operand that
is written so is this node.
-/

namespace Netlist

variable {t value word : Text} {w : Width} {n : ℕ} {read : List Located} {g : Graph}

theorem Numeral.graphic_of_digitValue? {b : UInt8} (h : (digitValue? b).isSome = true) :
    33 ≤ b ∧ b ≤ 126 := by
  have hrange {lo hi : UInt8} (h : (decide (lo ≤ b) && decide (b ≤ hi)) = true) (hlo : 33 ≤ lo)
      (hhi : hi ≤ 126) : 33 ≤ b ∧ b ≤ 126 := by
    simp only [Bool.and_eq_true, decide_eq_true_eq] at h
    exact ⟨UInt8.le_trans hlo h.1, UInt8.le_trans h.2 hhi⟩
  unfold digitValue? at h
  split_ifs at h with h₁ h₂ h₃
  · exact hrange h₁ (by decide) (by decide)
  · exact hrange h₂ (by decide) (by decide)
  · exact hrange h₃ (by decide) (by decide)
  · cases h

theorem Numeral.Spells.graphic (h : Numeral.Spells value n) : value.Graphic := by
  intro b hb
  rcases h.bytes b hb with rfl | hdigit
  · decide
  · exact graphic_of_digitValue? hdigit

theorem Numeral.IsDecimal.graphic (h : Numeral.IsDecimal value n) : value.Graphic := by
  intro b hb
  refine graphic_of_digitValue? ?_
  rw [digitValue?_of_isDigit (h.digits b hb)]
  rfl

namespace SpellsInt

variable {i : ℤ}

theorem graphic (h : SpellsInt value i) : value.Graphic := by
  cases h with
  | plain h => exact h.graphic
  | minus h => exact List.forall_mem_cons.2 ⟨by decide, h.graphic⟩

theorem ne_nil (h : SpellsInt value i) : value ≠ [] := by
  cases h with
  | plain h => exact h.ne_nil
  | minus h => exact List.cons_ne_nil _ _

theorem isWord (h : SpellsInt value i) : Text.IsWord value := h.graphic.isWord h.ne_nil

theorem isWord_marked (h : SpellsInt value i) {digits : Text} {k : ℕ}
    (hdigits : Numeral.IsDecimal digits k) : Text.IsWord (value ++ quoteMark :: digits) := by
  have hmark : Text.Graphic (quoteMark :: digits) :=
    List.forall_mem_cons.2 ⟨by decide, hdigits.graphic⟩
  exact (h.graphic.append hmark).isWord (by simp)

theorem quoteMark_notMem (h : SpellsInt value i) : quoteMark ∉ value := by
  have hspells {t : Text} {n : ℕ} (h : Numeral.Spells t n) : quoteMark ∉ t := by
    intro hquote
    rcases h.bytes quoteMark hquote with hbar | hdigit
    · cases hbar
    · cases hdigit
  cases h with
  | plain h => exact hspells h
  | minus h => exact List.not_mem_cons_of_ne_of_not_mem (by decide) (hspells h)

theorem looksConstant (h : SpellsInt value i) (rest : Text) : LooksConstant (value ++ rest) := by
  cases h with
  | plain h =>
    obtain ⟨b, t, rfl, hb⟩ := h.head
    exact ⟨b, t ++ rest, hb, .inl rfl⟩
  | minus h =>
    obtain ⟨b, t, rfl, hb⟩ := h.head
    exact ⟨b, t ++ rest, hb, .inr rfl⟩

theorem isConstant (h : SpellsInt value i) : IsConstant value .unknown i.natAbs :=
  ⟨value, .bare h.quoteMark_notMem, h.magnitude⟩

theorem isConstant_marked (h : SpellsInt value i) {digits : Text} {k : ℕ}
    (hdigits : Numeral.IsDecimal digits k) (hk : k < 2 ^ 31) :
    IsConstant (value ++ quoteMark :: digits) k i.natAbs :=
  ⟨value, .marked h.quoteMark_notMem hdigits hk, h.magnitude⟩

end SpellsInt

theorem constantWidth_natCast (k n : ℕ) : constantWidth k n = k := by
  have hne : (k : ℤ) ≠ -1 := by omega
  exact if_neg hne

/-- Wherever a word is an operand, it is read as one and the same node. -/
structure ReadAs (word : Text) (v : Node) : Prop where
  /-- The word can be an operand, unless it is longer than a line may be. -/
  usable : word.length + 8 < 2 ^ 24 → ∃ read, statements ("x = mov " ++ word) = .ok read ∧
    ∃ s ∈ read, word ∈ s.statement.arguments
  /-- Whether a text is read depends on its other operands. -/
  readable : ∀ t read, statements t = .ok read → ((∃ g, Graph.parse t = .ok g) ↔
    ∀ s ∈ read, ∀ other ∈ s.statement.arguments, other ≠ word → LooksConstant other →
      ∃ w n, IsConstant other w n)
  /-- There is one node of this name. -/
  single : ∀ t read g, statements t = .ok read → Graph.parse t = .ok g →
    (∃ s ∈ read, word ∈ s.statement.arguments) → g.nodes.filter (·.name = word) = [v]
  /-- Operation by operation, the node stands where the word does. -/
  shared : ∀ t read g, statements t = .ok read → Graph.parse t = .ok g →
    List.Forall₂ (fun st op => ∀ i : ℕ, st.arguments[i]? = some word → op.sources[i]? = some v)
      ((read.map Located.statement).filter Statement.isOperation) g.operations

theorem exists_statements_mov (hword : Text.IsWord word) (hshort : word.length + 8 < 2 ^ 24) :
    ∃ read, statements ("x = mov " ++ word) = .ok read ∧
      ∃ s ∈ read, word ∈ s.statement.arguments := by
  let st : Statement := .operation "x" .mov .unknown [word]
  have hname : IsName "x" := ⟨Text.Graphic.isWord (by decide) (by decide), by decide, by decide⟩
  have hlegible : st.Legible := ⟨hname, by decide, .inl rfl, by simpa using hword⟩
  have hline : st.line = "x = mov " ++ word := by
    have hwords : st.words = [("x" : Text), "=", "mov", word] := rfl
    rw [Statement.line, hwords, Text.join_cons_cons, Text.join_cons_cons, Text.join_cons_cons,
      Text.join_singleton]
    rfl
  have hlines : Text.lines ("x = mov " ++ word) = [st.line] := by
    rw [← hline]
    exact Text.lines_eq_singleton (Text.join_ne_nil (by decide))
      (Text.lineFeed_notMem_join hlegible.words)
  have hlength : st.line.length < lineLimit := by
    rw [hline, List.length_append, Nat.add_comm]
    exact hshort
  obtain ⟨read, hread, hsts⟩ := exists_readLines 0 [] (List.forall_mem_singleton.2 hlegible)
    (List.forall_mem_singleton.2 hlength) (by simp) (List.nodup_singleton _)
  obtain ⟨s, hs, hst⟩ : ∃ s ∈ read, s.statement = st := by
    rw [← List.mem_map, hsts]
    exact List.mem_singleton_self st
  rw [statements, hlines]
  exact ⟨read, hread, s, hs, hst ▸ List.mem_singleton_self word⟩

namespace Graph

/-- After the first phase, only operands that look like constants decide whether a text is read. -/
theorem exists_parse_iff_of_statements (hread : statements t = .ok read) :
    (∃ g, parse t = .ok g) ↔
      ∀ s ∈ read, ∀ word ∈ s.statement.arguments, LooksConstant word →
        ∃ w n, IsConstant word w n := by
  obtain ⟨⟨lines, -, -, hlists⟩, hnodup⟩ := statements_iff.1 ⟨read, hread, rfl⟩
  have hparse : parse t = ofStatements read := by
    rw [parse, hread]
    rfl
  rw [hparse, exists_ofStatements_iff]
  refine forall₄_congr fun s _ word _ => ?_
  rw [← exists_argument_iff hnodup hlists.not_looksConstant, List.map_map]
  rfl

theorem stated_of_parse (hread : statements t = .ok read) (h : parse t = .ok g) :
    g.Stated (read.map Located.statement) ∧
      g.operations.map Operation.statement =
        (read.map Located.statement).filter Statement.isOperation := by
  have hparse : ofStatements read = .ok g := by
    rw [parse, hread] at h
    exact h
  exact stated_of_says (says_of_statements hread hparse) h

theorem eq_of_name_isConstant (hread : statements t = .ok read) (h : parse t = .ok g)
    (hlooks : LooksConstant word) (hword : IsConstant word w n) {u : Node} (hu : u ∈ g.nodes)
    (hname : u.name = word) :
    u = { name := word, width := constantWidth w n, kind := .constant } := by
  obtain ⟨⟨lines, -, -, hlists⟩, hnodup⟩ := statements_iff.1 ⟨read, hread, rfl⟩
  have hargument := (stated_of_parse hread h).1.argument_eq hu
  rw [hname, (argument_iff_denotes hnodup hlists.not_looksConstant).2 (.constant hlooks hword)]
    at hargument
  exact (Except.ok.inj hargument).symm

theorem readAs_of_isConstant (hisWord : Text.IsWord word) (hlooks : LooksConstant word)
    (hword : IsConstant word w n) :
    ReadAs word { name := word, width := constantWidth w n, kind := .constant } := by
  refine ⟨exists_statements_mov hisWord, fun t read hread => ?_, fun t read g hread h hmem => ?_,
    fun t read g hread h => ?_⟩
  · rw [exists_parse_iff_of_statements hread]
    refine ⟨fun hall s hs other hother _ => hall s hs other hother, ?_⟩
    intro hall s hs other hother
    by_cases heq : other = word
    · subst heq
      exact fun _ => ⟨w, n, hword⟩
    · exact hall s hs other hother heq
  · obtain ⟨hstated, hops⟩ := stated_of_parse hread h
    obtain ⟨s, hs, hmem⟩ := hmem
    obtain ⟨u, hu, hname⟩ := List.mem_map.1 ((mem_names_iff hstated hops).2
      ⟨_, List.mem_map_of_mem hs, List.mem_cons_of_mem _ hmem⟩)
    rw [← eq_of_name_isConstant hread h hlooks hword hu hname]
    have hfilter : g.nodes.filter (·.name = word) = g.nodes.filter (· == u) := by
      refine List.filter_congr fun u' hu' => ?_
      rw [Bool.eq_iff_iff, decide_eq_true_iff, beq_iff_eq]
      exact ⟨fun hname' => hstated.eq_of_name_eq hu' hu (hname'.trans hname.symm),
        fun heq => heq ▸ hname⟩
    rw [hfilter, List.filter_beq, List.count_eq_one_of_mem g.nodup_nodes hu]
    rfl
  · obtain ⟨-, hops⟩ := stated_of_parse hread h
    rw [← hops, List.forall₂_map_left_iff, List.forall₂_same]
    intro op hop i hi
    obtain ⟨u, hu, hname⟩ : ∃ u, op.sources[i]? = some u ∧ u.name = word := by
      simpa [Operation.statement, Statement.arguments] using hi
    have hmem : u ∈ g.nodes :=
      mem_nodes.2 (.inl ⟨op, hop, List.mem_cons_of_mem _ (List.mem_of_getElem? hu)⟩)
    rw [hu, eq_of_name_isConstant hread h hlooks hword hmem hname]

end Graph

theorem log2_bounds {i : ℤ} (hi : i ≠ 0) :
    2 ^ i.natAbs.log2 ≤ |i| ∧ |i| < 2 ^ (i.natAbs.log2 + 1) := by
  have hle : 2 ^ i.natAbs.log2 ≤ i.natAbs := Nat.log2_self_le (Int.natAbs_ne_zero.2 hi)
  have hlt : i.natAbs < 2 ^ (i.natAbs.log2 + 1) := Nat.lt_log2_self
  rw [Int.abs_eq_natAbs]
  exact_mod_cast And.intro hle hlt

/-- A word that spells an integer is read as a constant with that word for its name. Alone it is one
bit wide if the integer is zero, and else as wide as its magnitude in base two is long; with a quote
and a decimal up to `2 ^ 31 - 1` behind it, it is as wide as the decimal says. All places in a text
where the same word is an operand share the node. -/
theorem constants_have_the_width_of_their_value {i : ℤ} (h : SpellsInt value i) :
    (∃ k : ℕ, (i = 0 → k = 1) ∧ (i ≠ 0 → 2 ^ (k - 1) ≤ |i| ∧ |i| < 2 ^ k) ∧
      ReadAs value { name := value, width := k, kind := .constant }) ∧
    ∀ digits k, Numeral.IsDecimal digits k → k ≤ 2 ^ 31 - 1 →
      ReadAs (value ++ quoteMark :: digits)
        { name := value ++ quoteMark :: digits, width := k, kind := .constant } := by
  refine ⟨⟨i.natAbs.log2 + 1, ?_, log2_bounds, ?_⟩, fun digits k hdigits hk => ?_⟩
  · rintro rfl
    rfl
  · have hlooks := h.looksConstant []
    rw [List.append_nil] at hlooks
    exact Graph.readAs_of_isConstant h.isWord hlooks h.isConstant
  · have hlt : k < 2 ^ 31 := by omega
    have hread := Graph.readAs_of_isConstant (h.isWord_marked hdigits)
      (h.looksConstant (quoteMark :: digits)) (h.isConstant_marked hdigits hlt)
    rwa [constantWidth_natCast] at hread

/-- The same constant as the operand of two operations, and once more with a width. -/
def repeatedText : Text := "x = add'8 -0x_F 1\ny = add'8 -0x_F -0x_F'09\n"

def repeatedStatements : List Located :=
  [⟨1, "x = add'8 -0x_F 1", .operation "x" .add 8 ["-0x_F", "1"]⟩,
    ⟨2, "y = add'8 -0x_F -0x_F'09", .operation "y" .add 8 ["-0x_F", "-0x_F'09"]⟩]

def repeated : Graph where
  operations :=
    [⟨⟨"x", 8, .wire, 0⟩, 8, .add, [⟨"-0x_F", 4, .constant, 0⟩, ⟨"1", 1, .constant, 0⟩]⟩,
      ⟨⟨"y", 8, .wire, 0⟩, 8, .add,
        [⟨"-0x_F", 4, .constant, 0⟩, ⟨"-0x_F'09", 9, .constant, 0⟩]⟩]

theorem repeatedConstant_has_width :
    SpellsInt "-0x_F" (-15) ∧ Numeral.IsDecimal "09" 9 ∧ (9 : ℕ) ≤ 2 ^ 31 - 1 ∧
      statements repeatedText = .ok repeatedStatements ∧ Graph.parse repeatedText = .ok repeated ∧
      (∃ k : ℕ, 2 ^ (k - 1) ≤ |(-15 : ℤ)| ∧ |(-15 : ℤ)| < 2 ^ k ∧
        repeated.nodes.filter (·.name = ("-0x_F" : Text)) = [⟨"-0x_F", k, .constant, 0⟩]) ∧
      repeated.nodes.filter (·.name = ("-0x_F'09" : Text)) = [⟨"-0x_F'09", 9, .constant, 0⟩] := by
  have hspells : SpellsInt "-0x_F" (-15) := by
    have hread : Numeral.natural none "0x_F" = .ok 15 := by cbv
    exact .minus (Numeral.natural_eq_ok_iff.1 hread).1
  have hdigits : Numeral.IsDecimal "09" 9 := by
    have hread : Numeral.decimal? widthLimit "09" = some 9 := by cbv
    exact (Numeral.decimal?_eq_some_iff.1 hread).1
  have hstatements : statements repeatedText = .ok repeatedStatements := by cbv
  have hparse : Graph.parse repeatedText = .ok repeated := by cbv
  obtain ⟨⟨k, -, hk, hbare⟩, hmarked⟩ := constants_have_the_width_of_their_value hspells
  obtain ⟨hle, hlt⟩ := hk (by decide)
  exact ⟨hspells, hdigits, by decide, hstatements, hparse,
    ⟨k, hle, hlt, hbare.single _ _ _ hstatements hparse ⟨_, List.mem_cons_self, by decide⟩⟩,
    (hmarked "09" 9 hdigits (by decide)).single _ _ _ hstatements hparse
      ⟨_, List.mem_cons_of_mem _ List.mem_cons_self, by decide⟩⟩

end Netlist
