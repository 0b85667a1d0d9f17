import Mathlib.Data.List.Nodup
import Netlist.Proofs.Parse
import Netlist.Proofs.Statement

/-!
# The statements behind a circuit

Each operation of a circuit that was read says the same as a statement of the text, and so does each
memory. `Stated` collects what holds of these statements.

An argument stands for the node that a statement defines, else for a constant, else for a wire
without a width. In each case the name alone tells which node it is, so no two nodes of a circuit
that was read have the same name.
-/

namespace Netlist

variable {g : Graph} {u v : Node} {op : Operation} {word t : Text} {nodes : List Node}
  {sts : List Statement}

def Operation.statement (op : Operation) : Statement :=
  .operation op.dest.name op.opcode op.width (op.sources.map Node.name)

/-- The statement that declares a memory. -/
def Node.declaration (v : Node) : Statement := .memory v.name v.width v.depth

theorem Statement.name_node (s : Statement) : s.node.name = s.dest := by
  cases s <;> rfl

theorem Statement.declaration_node {s : Statement} (h : s.node.isMemory = true) :
    s.node.declaration = s := by
  cases s with
  | memory dest width depth => rfl
  | operation dest opcode width args => cases h

theorem literal_eq_ok (h : literal word = .ok v) : ∃ value width n,
    splitWidth word = .ok (value, width) ∧ magnitude? value = some n ∧
      v =
        { name := word
          kind := .constant
          width := if width.isKnown then width else if n = 0 then 1 else Numeral.bitLength n } := by
  obtain ⟨⟨value, width⟩, hsplit, h⟩ := bind_eq_ok.1 h
  dsimp only at h
  cases hn : magnitude? value with
  | none =>
    rw [hn] at h
    cases h
  | some n =>
    rw [hn] at h
    cases h
    exact ⟨value, width, n, hsplit, hn, rfl⟩

theorem argument_spec (h : argument nodes word = .ok v) :
    (v ∈ nodes ∧ v.name = word) ∨
      (isLiteral word = true ∧ literal word = .ok v ∧ v.name = word) ∨
        (isLiteral word = false ∧ v = { name := word, width := .unknown }) := by
  rw [argument] at h
  cases hf : nodes.find? (·.name = word) with
  | some u =>
    rw [hf] at h
    cases h
    exact .inl ⟨List.mem_of_find?_eq_some hf, by simpa using List.find?_some hf⟩
  | none =>
    rw [hf] at h
    dsimp only at h
    split_ifs at h with hliteral
    · obtain ⟨value, width, n, -, -, rfl⟩ := literal_eq_ok h
      exact .inr (.inl ⟨hliteral, h, rfl⟩)
    · cases h
      exact .inr (.inr ⟨by simpa using hliteral, rfl⟩)

theorem argument_name (h : argument nodes word = .ok v) : v.name = word := by
  rcases argument_spec h with ⟨-, hname⟩ | ⟨-, -, hname⟩ | ⟨-, rfl⟩
  · exact hname
  · exact hname
  · rfl

theorem argument_of_mem (hnodup : (nodes.map Node.name).Nodup) (hv : v ∈ nodes) :
    argument nodes v.name = .ok v := by
  have hfind : nodes.find? (·.name = v.name) = some v := by
    rw [find?_key_eq_some hnodup]
    exact ⟨hv, rfl⟩
  rw [argument, hfind]

theorem argument_of_isLiteral (hno : ∀ u ∈ nodes, isLiteral u.name = false)
    (hliteral : isLiteral word = true) : argument nodes word = literal word := by
  have hfind : nodes.find? (·.name = word) = none := by
    rw [List.find?_eq_none]
    intro u hu hname
    have hnot := hno u hu
    rw [of_decide_eq_true hname, hliteral] at hnot
    cases hnot
  rw [argument, hfind]
  exact if_pos hliteral

theorem names_of_arguments {args : List Text} {sources : List Node}
    (h : args.Forall₂ (fun word v => argument nodes word = .ok v) sources) :
    sources.map Node.name = args := by
  induction h with
  | nil => rfl
  | cons hv _ ih => rw [List.map_cons, argument_name hv, ih]

theorem operation?_eq_some {s : Located} (h : operation? nodes s = .ok (some op)) :
    op.statement = s.statement ∧ op.dest = s.statement.node ∧
      ∀ v ∈ op.sources, argument nodes v.name = .ok v := by
  rw [operation?] at h
  cases hs : s.statement with
  | memory dest width depth =>
    rw [hs] at h
    cases h
  | operation dest opcode width args =>
    simp only [hs] at h
    cases hargs : args.mapM (argument nodes) with
    | error fault =>
      rw [hargs] at h
      cases h
    | ok sources =>
      rw [hargs] at h
      cases h
      refine ⟨?_, rfl, fun v hv => ?_⟩
      · rw [Operation.statement, names_of_arguments (mapM_eq_ok.1 hargs)]
        rfl
      · obtain ⟨word, -, hword⟩ := exists_of_mem_mapM hargs hv
        rwa [argument_name hword]

namespace Graph

/-- A circuit that says what some legible statements say. -/
structure Stated (sts : List Statement) (g : Graph) : Prop where
  nodup : (sts.map Statement.dest).Nodup
  legible : ∀ s ∈ sts, s.Legible
  short : ∀ s ∈ sts, s.line.length < lineLimit
  operation : ∀ op ∈ g.operations, op.statement ∈ sts
  dest : ∀ op ∈ g.operations, op.dest = op.statement.node
  source : ∀ op ∈ g.operations, ∀ v ∈ op.sources, argument (sts.map Statement.node) v.name = .ok v
  declared : g.declared = (sts.map Statement.node).filter Node.isMemory

theorem stated_of_statements {read : List Located} (hread : statements t = .ok read)
    (h : ofStatements read = .ok g) : g.Stated (read.map Located.statement) := by
  obtain ⟨found, hfound, h⟩ := bind_eq_ok.1 h
  cases h
  have hnodup : (read.map Located.dest).Nodup := nodup_readLines (by simp) hread
  have hlegible := readLines_legible (by simp) hread
  have hdefined : read.map (·.statement.node) =
      (read.map Located.statement).map Statement.node := by simp
  have hop (op : Operation) (hop : op ∈ found.filterMap id) : ∃ s ∈ read,
      op.statement = s.statement ∧ op.dest = s.statement.node ∧
        ∀ v ∈ op.sources, argument (read.map (·.statement.node)) v.name = .ok v := by
    obtain ⟨o, ho, rfl⟩ := List.mem_filterMap.1 hop
    obtain ⟨s, hs, hso⟩ := exists_of_mem_mapM hfound ho
    exact ⟨s, hs, operation?_eq_some hso⟩
  refine ⟨?_, ?_, ?_, fun op hmem => ?_, fun op hmem => ?_, fun op hmem => ?_, ?_⟩
  · rwa [List.map_map]
  · exact List.forall_mem_map.2 fun s hs => (hlegible s hs).1
  · exact List.forall_mem_map.2 fun s hs => (hlegible s hs).2
  · obtain ⟨s, hs, hstatement, -⟩ := hop op hmem
    exact List.mem_map.2 ⟨s, hs, hstatement.symm⟩
  · obtain ⟨s, -, hstatement, hdest, -⟩ := hop op hmem
    rw [hdest, hstatement]
  · obtain ⟨s, -, -, -, hsource⟩ := hop op hmem
    rwa [← hdefined]
  · rw [← hdefined]

theorem exists_stated (h : parse t = .ok g) : ∃ sts, g.Stated sts := by
  obtain ⟨read, hread, h⟩ := bind_eq_ok.1 h
  exact ⟨read.map Located.statement, stated_of_statements hread h⟩

namespace Stated

variable (h : g.Stated sts)

include h

theorem nodup_names : ((sts.map Statement.node).map Node.name).Nodup := by
  rw [List.map_map, Function.comp_def, funext Statement.name_node]
  exact h.nodup

theorem isName_of_mem (hv : v ∈ sts.map Statement.node) : IsName v.name := by
  obtain ⟨s, hs, rfl⟩ := List.mem_map.1 hv
  rw [Statement.name_node]
  exact (h.legible s hs).isName

theorem dest_mem (hop : op ∈ g.operations) : op.dest ∈ sts.map Statement.node := by
  rw [h.dest op hop]
  exact List.mem_map_of_mem (h.operation op hop)

theorem argument_eq (hv : v ∈ g.nodes) : argument (sts.map Statement.node) v.name = .ok v := by
  rcases mem_nodes.1 hv with ⟨op, hop, hv⟩ | hv
  · rcases List.mem_cons.1 hv with rfl | hv
    · exact argument_of_mem h.nodup_names (h.dest_mem hop)
    · exact h.source op hop v hv
  · rw [h.declared] at hv
    exact argument_of_mem h.nodup_names (List.mem_of_mem_filter hv)

theorem eq_of_name_eq (hu : u ∈ g.nodes) (hv : v ∈ g.nodes) (hname : u.name = v.name) : u = v := by
  have hargument := h.argument_eq hu
  rw [hname, h.argument_eq hv] at hargument
  exact (Except.ok.inj hargument).symm

end Stated

end Graph

end Netlist
