import Netlist.Format.Parse
import Netlist.Proofs.Assignment
import Netlist.Proofs.Outcome

/-!
# Circuits that were read

The statements of a text define different names. So a circuit that was read has single assignment,
its operations define wires, and a node that an operation reads is a constant, a memory, the
destination of an operation, or a name that nothing defines and that has no width.
-/

namespace Netlist

variable {t : Text} {s : Statement} {names : List Text} {nodes : List Node} {v : Node}

theorem Assignment.dest_of_statement {a : Assignment} (h : a.statement = .ok s) :
    s.dest = a.dest := by
  unfold statement at h
  grind [Statement.dest]

theorem Statement.dest_notMem (h : Statement.ofText names t = .ok s) : s.dest ∉ names := by
  obtain ⟨a, -, h⟩ := bind_eq_ok.1 h
  split_ifs at h with hmem
  rwa [Assignment.dest_of_statement h]

theorem nodup_readLines {n : Nat} {read result : List Located} {lines : List Text}
    (hread : (read.map Located.dest).Nodup) (h : readLines n read lines = .ok result) :
    (result.map Located.dest).Nodup := by
  fun_induction readLines n read lines with
  | case1 n read =>
    cases h
    rwa [List.map_reverse, List.nodup_reverse]
  | case2 n read line lines hlong => cases h
  | case3 n read line lines hlong hblank ih => exact ih hread h
  | case4 n read line lines hlong source hsource fault hfault => cases h
  | case5 n read line lines hlong source hsource s hs ih =>
    exact ih (List.nodup_cons.2 ⟨Statement.dest_notMem hs, hread⟩) h

theorem literal_isConstant (h : literal t = .ok v) : v.isConstant = true := by
  obtain ⟨⟨value, width⟩, -, h⟩ := bind_eq_ok.1 h
  dsimp only at h
  split at h
  · cases h
  · cases h
    rfl

theorem argument_cases (h : argument nodes t = .ok v) :
    v ∈ nodes ∨ v.isConstant = true ∨ v.width = .unknown := by
  rw [argument] at h
  split at h
  · next u hu =>
    cases h
    exact .inl (List.mem_of_find?_eq_some hu)
  · split_ifs at h
    · exact .inr (.inl (literal_isConstant h))
    · cases h
      exact .inr (.inr rfl)

/-- A statement declares a memory, or it is an operation on nodes that its arguments stand for. -/
theorem operation?_cases {s : Located} {o : Option Operation} (h : operation? nodes s = .ok o) :
    (o = none ∧ s.statement.node.isMemory = true) ∨
      ∃ op, o = some op ∧ op.dest = s.statement.node ∧ Graph.isGiven op.dest = false ∧
        ∀ v ∈ op.sources, ∃ word, argument nodes word = .ok v := by
  rw [operation?] at h
  cases hs : s.statement with
  | memory dest width depth =>
    rw [hs] at h
    cases h
    exact .inl ⟨rfl, rfl⟩
  | operation dest opcode width args =>
    simp only [hs] at h
    cases hargs : args.mapM (argument nodes) with
    | error fault =>
      rw [hargs] at h
      cases h
    | ok sources =>
      rw [hargs] at h
      cases h
      refine .inr ⟨_, rfl, rfl, rfl, ?_⟩
      intro v hv
      obtain ⟨word, -, hword⟩ := exists_of_mem_mapM hargs hv
      exact ⟨word, hword⟩

namespace Graph

variable {g : Graph}

/-- What reading a text makes sure of. -/
structure Parsed (g : Graph) : Prop where
  assigned : SingleAssignment g.operations
  produced : ∀ op ∈ g.operations, isGiven op.dest = false
  defined : ∀ op ∈ g.operations, ∀ v ∈ op.sources,
    isGiven v = true ∨ (∃ p ∈ g.operations, p.dest = v) ∨ v.width = .unknown

theorem dests_sublist {read : List Located} {found : List (Option Operation)}
    (h : read.Forall₂ (fun s o => operation? nodes s = .ok o) found) :
    ((found.filterMap id).map Operation.dest).Sublist (read.map (·.statement.node)) := by
  induction h with
  | nil => exact .slnil
  | cons hs _ ih =>
    rcases operation?_cases hs with ⟨rfl, -⟩ | ⟨op, rfl, hd, -⟩
    · exact ih.cons _
    · rw [List.map_cons, ← hd]
      exact ih.cons_cons _

theorem parsed_of_parse (h : parse t = .ok g) : g.Parsed := by
  obtain ⟨read, hread, h⟩ := bind_eq_ok.1 h
  obtain ⟨found, hfound, h⟩ := bind_eq_ok.1 h
  cases h
  have hnodup : (read.map (·.statement.node)).Nodup := by
    have hnames : (read.map Located.dest).Nodup := nodup_readLines (by simp) hread
    have hname (s : Located) : s.statement.node.name = s.dest := by
      rw [Located.dest]
      cases s.statement <;> rfl
    refine List.Nodup.of_map Node.name ?_
    rwa [List.map_map, Function.comp_def, funext hname]
  have hop (op : Operation) (hop : op ∈ found.filterMap id) : isGiven op.dest = false ∧
      ∀ v ∈ op.sources, ∃ word, argument (read.map (·.statement.node)) word = .ok v := by
    obtain ⟨o, ho, rfl⟩ := List.mem_filterMap.1 hop
    obtain ⟨s, -, hs⟩ := exists_of_mem_mapM hfound ho
    rcases operation?_cases hs with ⟨hnone, -⟩ | ⟨op', he, -, hg, hargs⟩
    · cases hnone
    · cases he
      exact ⟨hg, hargs⟩
  refine ⟨hnodup.sublist (dests_sublist (mapM_eq_ok.1 hfound)), fun op hmem => (hop op hmem).1, ?_⟩
  intro op hmem v hv
  obtain ⟨word, hword⟩ := (hop op hmem).2 v hv
  rcases argument_cases hword with hdef | hconst | hwidth
  · obtain ⟨s, hs, rfl⟩ := List.mem_map.1 hdef
    obtain ⟨o, ho, hso⟩ := exists_mem_mapM hfound hs
    rcases operation?_cases hso with ⟨-, hmemory⟩ | ⟨p, rfl, hd, -⟩
    · exact .inl (by simp [isGiven, hmemory])
    · exact .inr (.inl ⟨p, List.mem_filterMap.2 ⟨_, ho, rfl⟩, hd⟩)
  · exact .inl (by simp [isGiven, hconst])
  · exact .inr (.inr hwidth)

end Graph

end Netlist
