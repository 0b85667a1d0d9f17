import Mathlib
import Netlist.Proofs.Faults
import Netlist.Proofs.Legible
import Netlist.Proofs.LineOrder

/-!
# Which texts can be written again

Whether a circuit that was read can be written is seen from the lines of its text, one by one. Every
statement has to give a width, also that of a memory which no operation uses. Every operand has to
look like a constant or be defined on some line, before or behind the one that it stands on.

The width of a node comes from one place only. A constant has a width of its own or the one that its
value needs, even if that is zero; a name that is defined has the width that its statement gives;
and any other name has none. So the condition on the lines says that all nodes have a width. The
depth of a memory is always given.
-/

namespace Netlist

variable {t name word : Text} {w : Width} {ws lines : List Text} {st : Statement}
  {sts : List Statement} {v : Node}

/-- Some line of a text has the words of a statement. -/
def Stands (t : Text) (ws : List Text) (st : Statement) : Prop :=
  ∃ lines, Text.Lined t lines ∧ ∃ line ∈ lines, ∃ source, Content line source ws ∧ States ws st

/-- In the words of a statement, a width stands behind the opcode. -/
def GivesWidth (ws : List Text) : Prop :=
  ∃ (dest word : Text) (args : List Text), ws = dest :: "=" :: word :: args ∧ quoteMark ∈ word

def Statement.width : Statement → Width
  | memory _ width _ => width
  | operation _ _ width _ => width

theorem Statement.width_node (st : Statement) : st.node.width = st.width := by
  cases st <;> rfl

theorem WithWidth.isKnown_iff (h : WithWidth name w word) :
    w.isKnown = true ↔ quoteMark ∈ word := by
  cases h with
  | bare hname => simpa [Width.isKnown, Width.unknown] using hname
  | marked => simp [Width.isKnown]

theorem States.givesWidth_iff (h : States ws st) : GivesWidth ws ↔ st.width.isKnown = true := by
  have hwords {dest word : Text} {args : List Text} :
      GivesWidth (dest :: "=" :: word :: args) ↔ quoteMark ∈ word := by
    constructor
    · rintro ⟨_, _, _, hws, hquote⟩
      cases hws
      exact hquote
    · exact fun hquote => ⟨dest, word, args, rfl, hquote⟩
  cases h with
  | memory _ hname => rw [hwords, ← hname.isKnown_iff, Statement.width]
  | operation _ _ hname => rw [hwords, ← hname.isKnown_iff, Statement.width]

theorem Stands.givesWidth_iff (h : Stands t ws st) :
    GivesWidth ws ↔ st.width.isKnown = true := by
  obtain ⟨lines, -, line, -, source, -, hst⟩ := h
  exact hst.givesWidth_iff

theorem Lists.mem_iff (h : Lists lines sts) :
    st ∈ sts ↔ ∃ line ∈ lines, ∃ source ws, Content line source ws ∧ States ws st := by
  induction h with
  | nil => simp
  | @skipped line body lines sts hbody hskip _ ih =>
    have hnone : ¬∃ source ws, Content line source ws ∧ States ws st := by
      rintro ⟨source, ws, ⟨body', hbody', hfull, -⟩, -⟩
      rw [← withoutReturn_iff.1 hbody', withoutReturn_iff.1 hbody] at hfull
      exact hfull hskip
    rw [ih, List.exists_mem_cons_iff, or_iff_right hnone]
  | @statement line body lines ws st' sts hbody hskip hws hst _ ih =>
    have hcontent : Content line _ ws := ⟨body, hbody, hskip, Text.trims_iff.2 rfl, hws⟩
    have hline : (∃ source ws, Content line source ws ∧ States ws st) ↔ st = st' := by
      constructor
      · rintro ⟨source, ws', hcontent', hst'⟩
        rw [← (hcontent.unique hcontent').2] at hst'
        exact hst'.unique hst
      · rintro rfl
        exact ⟨_, ws, hcontent, hst⟩
    rw [List.mem_cons, ih, List.exists_mem_cons_iff, hline]

theorem Says.mem_iff (h : Says t sts) : st ∈ sts ↔ ∃ ws, Stands t ws st := by
  obtain ⟨lines, hlines, -, hlists⟩ := h.lists
  rw [hlists.mem_iff]
  constructor
  · rintro ⟨line, hline, source, ws, hcontent, hst⟩
    exact ⟨ws, lines, hlines, line, hline, source, hcontent, hst⟩
  · rintro ⟨ws, lines', hlines', line, hline, source, hcontent, hst⟩
    rw [← Text.lines_eq_iff.2 hlines', Text.lines_eq_iff.2 hlines] at hline
    exact ⟨line, hline, source, ws, hcontent, hst⟩

theorem Says.forall_iff (h : Says t sts) {P : Statement → Prop} :
    (∀ st ∈ sts, P st) ↔ ∀ ws st, Stands t ws st → P st := by
  simp only [h.mem_iff, forall_exists_index]
  exact forall_comm

theorem Says.exists_iff (h : Says t sts) {P : Statement → Prop} :
    (∃ st ∈ sts, P st) ↔ ∃ ws st, Stands t ws st ∧ P st := by
  simp only [h.mem_iff, ← exists_and_right]
  exact exists_comm

theorem IsConstant.isKnown {n : ℕ} (h : IsConstant word w n) :
    (constantWidth w n).isKnown = true := by
  obtain ⟨value, hword, -⟩ := h
  rw [constantWidth]
  split_ifs with hw
  · exact decide_eq_true (Int.natCast_nonneg (n.log2 + 1))
  · cases hword with
    | bare => exact absurd rfl hw
    | marked => simp [Width.isKnown]

/-- A name stands for a node with a width if it looks like a constant or a statement gives it a
width. -/
theorem Denotes.isKnown_iff (h : Denotes sts word v) (hnodup : (sts.map Statement.dest).Nodup)
    (hdest : ∀ st ∈ sts, ¬LooksConstant st.dest) : v.width.isKnown = true ↔
      LooksConstant word ∨ ∃ st ∈ sts, st.dest = word ∧ st.width.isKnown = true := by
  cases h with
  | @defined st hst =>
    rw [Statement.width_node, or_iff_right (hdest st hst)]
    constructor
    · exact fun hknown => ⟨st, hst, rfl, hknown⟩
    · rintro ⟨st', hst', hname, hknown⟩
      rwa [List.inj_on_of_nodup_map hnodup hst' hst hname] at hknown
  | constant hlooks hconstant => exact iff_of_true hconstant.isKnown (.inl hlooks)
  | free hlooks hnew =>
    refine iff_of_false Bool.false_ne_true ?_
    rintro (hconstant | ⟨st, hst, hname, -⟩)
    · exact hlooks hconstant
    · exact hnew st hst hname

namespace Graph

variable {g : Graph}

theorem Stated.isKnown_depth (h : g.Stated sts) (hv : v ∈ g.nodes) (hm : v.isMemory = true) :
    v.depth.isKnown = true := by
  rcases argument_spec (h.argument_eq hv) with ⟨hdef, -⟩ | ⟨-, hconst, -⟩ | ⟨-, hwire⟩
  · obtain ⟨st, hst, rfl⟩ := List.mem_map.1 hdef
    cases st with
    | memory dest width depth => exact (h.legible _ hst).2.2.isKnown
    | operation => cases hm
  · have hno := Node.isConstant_of_isMemory hm
    rw [literal_isConstant hconst] at hno
    cases hno
  · rw [hwire] at hm
    cases hm

theorem Stated.sized_iff (h : g.Stated sts) : g.Sized ↔ ∀ v ∈ g.nodes, v.width.isKnown = true := by
  constructor
  · intro hs v hv
    exact hs.isKnown_of_mem (fun _ => h.isMemory_of_mem_declared) hv
  · intro hknown
    refine ⟨fun op hop v hv => hknown v (mem_nodes.2 (.inl ⟨op, hop, hv⟩)), fun v hv hm => ?_⟩
    exact ⟨hknown v hv, h.isKnown_depth hv hm⟩

/-- A circuit that was read can be written if all statements give widths and define all operands
that are no constants. -/
theorem sized_iff_of_says (hsaid : Says t sts) (h : parse t = .ok g) : g.Sized ↔
    (∀ st ∈ sts, st.width.isKnown = true) ∧
      ∀ st ∈ sts, ∀ word ∈ st.arguments, LooksConstant word ∨ ∃ st' ∈ sts, st'.dest = word := by
  obtain ⟨hstated, hops⟩ := stated_of_says hsaid h
  obtain ⟨lines, -, -, hlists⟩ := hsaid.lists
  have hdest := hlists.not_looksConstant
  have hnode (v : Node) (hv : v ∈ g.nodes) : v.width.isKnown = true ↔
      LooksConstant v.name ∨ ∃ st ∈ sts, st.dest = v.name ∧ st.width.isKnown = true :=
    ((argument_iff_denotes hsaid.nodup hdest).1 (hstated.argument_eq hv)).isKnown_iff
      hsaid.nodup hdest
  have hnames : (∀ v ∈ g.nodes, v.width.isKnown = true) ↔
      ∀ st ∈ sts, ∀ name ∈ st.dest :: st.arguments,
        LooksConstant name ∨ ∃ st' ∈ sts, st'.dest = name ∧ st'.width.isKnown = true := by
    constructor
    · intro hknown st hst name hname
      obtain ⟨v, hv, rfl⟩ := List.mem_map.1 ((mem_names_iff hstated hops).2 ⟨st, hst, hname⟩)
      exact (hnode v hv).1 (hknown v hv)
    · intro hbacked v hv
      obtain ⟨st, hst, hname⟩ := (mem_names_iff hstated hops).1 (List.mem_map_of_mem hv)
      exact (hnode v hv).2 (hbacked st hst v.name hname)
  rw [hstated.sized_iff, hnames]
  constructor
  · intro hbacked
    refine ⟨fun st hst => ?_, fun st hst word hword => ?_⟩
    · rcases hbacked st hst st.dest List.mem_cons_self with hlooks | ⟨st', hst', hname, hknown⟩
      · exact absurd hlooks (hdest st hst)
      · rwa [List.inj_on_of_nodup_map hsaid.nodup hst' hst hname] at hknown
    · rcases hbacked st hst word (List.mem_cons_of_mem _ hword) with
        hlooks | ⟨st', hst', hname, -⟩
      · exact .inl hlooks
      · exact .inr ⟨st', hst', hname⟩
  · rintro ⟨hwidth, hoperand⟩ st hst name hname
    rcases List.mem_cons.1 hname with rfl | hname
    · exact .inr ⟨st, hst, rfl, hwidth st hst⟩
    · rcases hoperand st hst name hname with hlooks | ⟨st', hst', hname⟩
      · exact .inl hlooks
      · exact .inr ⟨st', hst', hname, hwidth st' hst'⟩

/-- A circuit that was read from a text can be written if and only if on every line with
a statement a width stands behind the opcode, and every operand there looks like a constant or is
defined on some line. In that case the circuit is closed. Otherwise writing fails as the check
does, and nothing is done with the sink. -/
theorem writability_is_local (h : parse t = .ok g) :
    (g.writable = .ok () ↔
      (∀ ws st, Stands t ws st → GivesWidth ws) ∧
        ∀ ws st, Stands t ws st → ∀ word ∈ st.arguments,
          LooksConstant word ∨ ∃ ws' st', Stands t ws' st' ∧ st'.dest = word) ∧
    (g.writable = .ok () → g.closed = .ok ()) ∧
    ∀ e, g.writable = .error e → g.write = .error e ∧
      ∀ (m : Type → Type) [Monad m] (sink : Text → m (Except Error Unit)),
        g.writeTo sink = pure (.error e) := by
  obtain ⟨sts, hsaid⟩ := exists_parse_iff.1 ⟨g, h⟩
  refine ⟨?_, fun hok => ?_, fun e he => ?_⟩
  · rw [writable_eq_ok, sized_iff_of_says hsaid h]
    simp only [hsaid.forall_iff, hsaid.exists_iff]
    exact and_congr_left' (forall₃_congr fun ws st hst => hst.givesWidth_iff.symm)
  · exact (parsed_of_parse h).closed (writable_eq_ok.1 hok)
  · have hwrite : g.write = .error e := by
      rw [write, he]
      rfl
    refine ⟨hwrite, fun m _ sink => ?_⟩
    rw [writeTo, hwrite]

/-- A sum that is put out before it is defined, and a memory that nothing uses. -/
def unusedMemoryText (width : Text) : Text :=
  "x = out'8 s\n# a sum\ns = add'8 a 5'0\na = in'8\nm = mem" ++ width ++ " 16\n"

def unusedMemory (w : Width) : Graph where
  operations :=
    [⟨⟨"x", 8, .wire, 0⟩, 8, .output, [⟨"s", 8, .wire, 0⟩]⟩,
      ⟨⟨"s", 8, .wire, 0⟩, 8, .add, [⟨"a", 8, .wire, 0⟩, ⟨"5'0", 0, .constant, 0⟩]⟩,
      ⟨⟨"a", 8, .wire, 0⟩, 8, .input, []⟩]
  declared := [⟨"m", w, .memory 16, 0⟩]

theorem unusedMemory_writability_is_local :
    parse (unusedMemoryText "'8") = .ok (unusedMemory 8) ∧
      parse (unusedMemoryText "") = .ok (unusedMemory .unknown) ∧
      (∀ ws st, Stands (unusedMemoryText "'8") ws st → GivesWidth ws) ∧
      (unusedMemory 8).closed = .ok () ∧
      ∀ (m : Type → Type) [Monad m] (sink : Text → m (Except Error Unit)),
        (unusedMemory .unknown).writeTo sink =
          pure (.error (.invariant ⟨"writer", "m", .unsizedMemory⟩)) := by
  have hsized : parse (unusedMemoryText "'8") = .ok (unusedMemory 8) := by cbv
  have hunsized : parse (unusedMemoryText "") = .ok (unusedMemory .unknown) := by cbv
  have hok : (unusedMemory 8).writable = .ok () := by decide
  have herror : (unusedMemory .unknown).writable =
      .error (.invariant ⟨"writer", "m", .unsizedMemory⟩) := by decide
  obtain ⟨hlocal, hclosed, -⟩ := writability_is_local hsized
  obtain ⟨-, -, hfail⟩ := writability_is_local hunsized
  exact ⟨hsized, hunsized, (hlocal.1 hok).1, hclosed hok, (hfail _ herror).2⟩

end Graph

end Netlist
