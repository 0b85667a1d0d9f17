import Mathlib
import Netlist.Proofs.Grammar

/-!
# The order of lines

A line may be read before or after the lines that define what it mentions. So a text and another one
with the same lines in another order are both read or both refused, and the circuits that they are
read into agree in their operations up to the order and in their nodes.

Lines that are joined by line feeds are not quite the lines of the text, since an empty line at the
end of a text is none. But empty lines say nothing: what a text says depends on its other lines, and
these come from the parts that were joined.
-/

namespace Netlist

variable {t t' x y : Text} {ls ls' : List Text} {sts sts' : List Statement}

namespace Text

/-- The lines of a text that are not empty. -/
def fullLines (t : Text) : List Text := (lines t).filter (· ≠ [])

theorem fullLines_append_lineFeed (x y : Text) :
    fullLines (x ++ lineFeed :: y) = fullLines x ++ fullLines y := by
  unfold fullLines
  have hlined := lined_lines x
  generalize lines x = ls at hlined
  induction hlined with
  | nil =>
    rw [lines_append_lineFeed List.not_mem_nil]
    simp
  | last hne hl => simp [lines_append_lineFeed hl, hne]
  | @line l t ls hl _ ih =>
    rw [List.append_assoc, List.cons_append, lines_append_lineFeed hl, List.filter_cons,
      List.filter_cons, ih]
    split_ifs <;> rfl

theorem fullLines_join (ls : List Text) : fullLines (join "\n" ls) = ls.flatMap fullLines := by
  have hfeed : ("\n" : Text) = [lineFeed] := by decide
  induction ls with
  | nil => rfl
  | cons l ls ih =>
    cases ls with
    | nil => simp [join, List.intercalate_singleton]
    | cons l' ls =>
      have hjoin : join "\n" (l :: l' :: ls) = l ++ lineFeed :: join "\n" (l' :: ls) := by
        rw [hfeed, join_byte]
      rw [hjoin, fullLines_append_lineFeed, ih]
      rfl

end Text

/-- What a line states comes before what the next lines do. -/
theorem lists_cons_iff {line : Text} : Lists (line :: ls) sts ↔
    ∃ first rest, sts = first ++ rest ∧ Lists [line] first ∧ Lists ls rest := by
  constructor
  · intro h
    cases h with
    | skipped hbody hskip h => exact ⟨[], sts, rfl, .skipped hbody hskip .nil, h⟩
    | @statement _ _ _ _ st rest hbody hskip hws hst h =>
      exact ⟨[st], rest, rfl, .statement hbody hskip hws hst .nil, h⟩
  · rintro ⟨first, rest, rfl, hfirst, h⟩
    cases hfirst with
    | skipped hbody hskip hnil =>
      cases hnil
      exact .skipped hbody hskip h
    | statement hbody hskip hws hst hnil =>
      cases hnil
      exact .statement hbody hskip hws hst h

theorem lists_nil_cons_iff : Lists ([] :: ls) sts ↔ Lists ls sts := by
  have hempty (body : Text) (h : WithoutReturn [] body) : Text.Skipped body := by
    rw [← withoutReturn_iff.1 h]
    exact .nil
  constructor
  · intro h
    cases h with
    | skipped _ _ h => exact h
    | statement hbody hskip => exact absurd (hempty _ hbody) hskip
  · exact .skipped (.inr ⟨rfl, by simp⟩) .nil

theorem lists_filter_iff : Lists (ls.filter (· ≠ [])) sts ↔ Lists ls sts := by
  induction ls generalizing sts with
  | nil => rfl
  | cons line ls ih =>
    by_cases hempty : line = []
    · subst hempty
      rw [lists_nil_cons_iff, ← ih]
      rfl
    · rw [List.filter_cons_of_pos (by simpa using hempty), lists_cons_iff, lists_cons_iff]
      simp only [ih]

theorem Lists.exists_perm (h : Lists ls sts) (hp : ls.Perm ls') :
    ∃ sts', sts.Perm sts' ∧ Lists ls' sts' := by
  induction hp generalizing sts with
  | nil => exact ⟨sts, .refl sts, h⟩
  | cons line _ ih =>
    obtain ⟨first, rest, rfl, hfirst, hrest⟩ := lists_cons_iff.1 h
    obtain ⟨rest', hperm, hrest'⟩ := ih hrest
    exact ⟨first ++ rest', hperm.append_left first,
      lists_cons_iff.2 ⟨first, rest', rfl, hfirst, hrest'⟩⟩
  | swap line line' ls =>
    obtain ⟨first, rest, rfl, hfirst, hrest⟩ := lists_cons_iff.1 h
    obtain ⟨second, rest, rfl, hsecond, hrest⟩ := lists_cons_iff.1 hrest
    refine ⟨second ++ (first ++ rest), ?_, ?_⟩
    · rw [← List.append_assoc, ← List.append_assoc]
      exact List.perm_append_comm.append_right rest
    · exact lists_cons_iff.2 ⟨second, _, rfl, hsecond,
        lists_cons_iff.2 ⟨first, rest, rfl, hfirst, hrest⟩⟩
  | trans _ _ ih ih' =>
    obtain ⟨sts', hperm, h'⟩ := ih h
    obtain ⟨sts'', hperm', h''⟩ := ih' h'
    exact ⟨sts'', hperm.trans hperm', h''⟩

/-- A text with the same lines in another order says the same in another order. -/
theorem Says.exists_perm (h : Says t sts) (hp : (Text.fullLines t).Perm (Text.fullLines t')) :
    ∃ sts', sts.Perm sts' ∧ Says t' sts' := by
  obtain ⟨⟨ls, hlined, hshort, hlists⟩, hnodup, hconstants⟩ := h
  rw [← Text.lines_eq_iff] at hlined
  subst hlined
  obtain ⟨sts', hperm, hlists'⟩ := (lists_filter_iff.2 hlists).exists_perm hp
  have hshort' : ∀ line ∈ Text.lines t', line.length < 2 ^ 24 := by
    intro line hline
    by_cases hempty : line = []
    · rw [hempty]
      exact Nat.two_pow_pos 24
    · have hfull : line ∈ Text.fullLines t' := List.mem_filter.2 ⟨hline, by simpa using hempty⟩
      exact hshort line (List.mem_of_mem_filter (hp.mem_iff.2 hfull))
  refine ⟨sts', hperm, ⟨_, Text.lined_lines t', hshort', lists_filter_iff.1 hlists'⟩, ?_, ?_⟩
  · exact (hperm.map Statement.dest).nodup_iff.1 hnodup
  · exact fun st hst => hconstants st (hperm.mem_iff.2 hst)

theorem Denotes.perm {word : Text} {v : Node} (h : Denotes sts word v) (hp : sts.Perm sts') :
    Denotes sts' word v := by
  cases h with
  | defined hst => exact .defined (hp.mem_iff.1 hst)
  | constant hlooks hconstant => exact .constant hlooks hconstant
  | free hlooks hnew => exact .free hlooks fun st hst => hnew st (hp.mem_iff.2 hst)

namespace Graph

variable {g : Graph} {name : Text}

theorem exists_parse_of_perm (hp : (Text.fullLines t).Perm (Text.fullLines t'))
    (h : ∃ g, parse t = .ok g) : ∃ g, parse t' = .ok g := by
  obtain ⟨sts, hsaid⟩ := exists_parse_iff.1 h
  obtain ⟨sts', -, hsaid'⟩ := hsaid.exists_perm hp
  exact exists_parse_iff.2 ⟨sts', hsaid'⟩

/-- The names in a circuit are the destinations and the arguments of its statements. -/
theorem mem_names_iff (h : g.Stated sts)
    (hops : g.operations.map Operation.statement = sts.filter Statement.isOperation) :
    name ∈ g.nodes.map Node.name ↔ ∃ st ∈ sts, name ∈ st.dest :: st.arguments := by
  constructor
  · intro hname
    obtain ⟨v, hv, rfl⟩ := List.mem_map.1 hname
    rcases mem_nodes.1 hv with ⟨op, hop, hv⟩ | hv
    · exact ⟨op.statement, h.operation op hop, List.mem_map_of_mem hv⟩
    · rw [h.declared] at hv
      obtain ⟨st, hst, rfl⟩ := List.mem_map.1 (List.mem_of_mem_filter hv)
      rw [Statement.name_node]
      exact ⟨st, hst, List.mem_cons_self⟩
  · rintro ⟨st, hst, hname⟩
    cases hkind : st.isOperation with
    | true =>
      have hmem : st ∈ g.operations.map Operation.statement := by
        rw [hops]
        exact List.mem_filter.2 ⟨hst, hkind⟩
      obtain ⟨op, hop, rfl⟩ := List.mem_map.1 hmem
      obtain ⟨v, hv, rfl⟩ : ∃ v ∈ op.operands, v.name = name := List.mem_map.1 hname
      exact List.mem_map_of_mem (mem_nodes.2 (.inl ⟨op, hop, hv⟩))
    | false =>
      cases st with
      | operation => cases hkind
      | memory dest width depth =>
        have hdeclared : (Statement.memory dest width depth).node ∈ g.declared := by
          rw [h.declared]
          exact List.mem_filter.2 ⟨List.mem_map_of_mem hst, rfl⟩
        rw [List.mem_singleton.1 hname]
        exact List.mem_map.2 ⟨_, mem_nodes.2 (.inr hdeclared), rfl⟩

/-- Lines that are put in another order are read if they were read before, and the circuit has the
same operations up to their order, the same names, and nodes of the same width, depth and kind under
these names. -/
theorem order_of_lines_is_irrelevant {ls ls' : List Text} (h : ls.Perm ls') :
    ((∃ g, parse (Text.join "\n" ls) = .ok g) ↔ ∃ g, parse (Text.join "\n" ls') = .ok g) ∧
      ∀ g g', parse (Text.join "\n" ls) = .ok g → parse (Text.join "\n" ls') = .ok g' →
        (g.operations.map Operation.text).Perm (g'.operations.map Operation.text) ∧
        (∀ name, name ∈ g.nodes.map Node.name ↔ name ∈ g'.nodes.map Node.name) ∧
        ∀ u ∈ g.nodes, ∀ v ∈ g'.nodes, u.name = v.name →
          u.width = v.width ∧ u.depth = v.depth ∧ u.kind = v.kind := by
  have hp : (Text.fullLines (Text.join "\n" ls)).Perm (Text.fullLines (Text.join "\n" ls')) := by
    rw [Text.fullLines_join, Text.fullLines_join]
    exact h.flatMap_right Text.fullLines
  refine ⟨⟨exists_parse_of_perm hp, exists_parse_of_perm hp.symm⟩, fun g g' hg hg' => ?_⟩
  obtain ⟨sts, hsaid⟩ := exists_parse_iff.1 ⟨g, hg⟩
  obtain ⟨sts', hperm, hsaid'⟩ := hsaid.exists_perm hp
  obtain ⟨hstated, hops⟩ := stated_of_says hsaid hg
  obtain ⟨hstated', hops'⟩ := stated_of_says hsaid' hg'
  refine ⟨?_, fun name => ?_, fun u hu v hv hname => ?_⟩
  · have htext (ops : List Operation) :
        ops.map Operation.text = (ops.map Operation.statement).map Statement.line := by
      rw [List.map_map]
      rfl
    rw [htext, htext, hops, hops']
    exact (hperm.filter Statement.isOperation).map Statement.line
  · rw [mem_names_iff hstated hops, mem_names_iff hstated' hops']
    simp only [hperm.mem_iff]
  · obtain ⟨lines, -, -, hlists⟩ := hsaid.lists
    obtain ⟨lines', -, -, hlists'⟩ := hsaid'.lists
    have hu : Denotes sts u.name u :=
      (argument_iff_denotes hsaid.nodup hlists.not_looksConstant).1 (hstated.argument_eq hu)
    have hu' := (argument_iff_denotes hsaid'.nodup hlists'.not_looksConstant).2 (hu.perm hperm)
    rw [hname, hstated'.argument_eq hv] at hu'
    cases hu'
    exact ⟨rfl, rfl, rfl⟩

/-- Lines that mention what later lines define, or what none does. -/
def backwardLines : List Text :=
  ["", "x = out'8 s", "# reads the memory", "s = rd'8 1 m u\r", "m = mem'8 16", "y = out -0x3 u"]

def backward : Graph where
  operations :=
    [⟨⟨"x", 8, .wire, 0⟩, 8, .output, [⟨"s", 8, .wire, 0⟩]⟩,
      ⟨⟨"s", 8, .wire, 0⟩, 8, .rd,
        [⟨"1", 1, .constant, 0⟩, ⟨"m", 8, .memory 16, 0⟩, ⟨"u", .unknown, .wire, 0⟩]⟩,
      ⟨⟨"y", .unknown, .wire, 0⟩, .unknown, .output,
        [⟨"-0x3", 2, .constant, 0⟩, ⟨"u", .unknown, .wire, 0⟩]⟩]
  declared := [⟨"m", 8, .memory 16, 0⟩]

def forward : Graph := { backward with operations := backward.operations.reverse }

theorem backwardLines_order_is_irrelevant :
    backwardLines.Perm backwardLines.reverse ∧
      parse (Text.join "\n" backwardLines) = .ok backward ∧
      parse (Text.join "\n" backwardLines.reverse) = .ok forward ∧
      (backward.operations.map Operation.text).Perm (forward.operations.map Operation.text) ∧
      (∀ name, name ∈ backward.nodes.map Node.name ↔ name ∈ forward.nodes.map Node.name) ∧
      ∀ u ∈ backward.nodes, ∀ v ∈ forward.nodes, u.name = v.name →
        u.width = v.width ∧ u.depth = v.depth ∧ u.kind = v.kind := by
  have hperm : backwardLines.Perm backwardLines.reverse := (List.reverse_perm _).symm
  have hbackward : parse (Text.join "\n" backwardLines) = .ok backward := by cbv
  have hforward : parse (Text.join "\n" backwardLines.reverse) = .ok forward := by cbv
  exact ⟨hperm, hbackward, hforward,
    (order_of_lines_is_irrelevant hperm).2 backward forward hbackward hforward⟩

end Graph

end Netlist
