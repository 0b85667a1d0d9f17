import Mathlib
import Netlist.Proofs.Component

/-!
# Components fail only for redefinitions

Before anything can fail, the predicate on edges is asked about every edge: once for each source of
each operation, in their order. `noting` keeps a list of the questions.

After that the circuit must have single assignment, or else the first operation whose destination
is already defined is reported. Nothing else can go wrong. What grows from a node outside of all
components never meets one of them, since a component has been grown until it holds all neighbours
of its nodes; and every destination is a node of the circuit, so it lies in a component at the end.
This holds for any predicate, and whether or not the circuit has loops.
-/

namespace Netlist

theorem firstRepeat?_eq_some {α : Type} [DecidableEq α] {seen l : List α} {a : α} :
    firstRepeat? seen l = some a ↔ ∃ before after, l = before ++ a :: after ∧ before.Nodup ∧
      (∀ b ∈ before, b ∉ seen) ∧ (a ∈ before ∨ a ∈ seen) := by
  induction l generalizing seen with
  | nil => simp [firstRepeat?]
  | cons b l ih =>
    rw [firstRepeat?]
    split_ifs with hb
    · constructor
      · intro h
        cases h
        exact ⟨[], l, rfl, List.nodup_nil, List.forall_mem_nil _, .inr hb⟩
      · rintro ⟨before, after, hl, -, hnew, -⟩
        cases before with
        | nil => rw [(List.cons.inj hl).1]
        | cons b' before =>
          rw [(List.cons.inj hl).1] at hb
          exact absurd hb (hnew b' List.mem_cons_self)
    · rw [ih]
      constructor
      · rintro ⟨before, after, rfl, hnodup, hnew, ha⟩
        refine ⟨b :: before, after, rfl, ?_, ?_, ?_⟩
        · exact List.nodup_cons.2 ⟨fun hmem => hnew b hmem List.mem_cons_self, hnodup⟩
        · exact List.forall_mem_cons.2
            ⟨hb, fun c hc hseen => hnew c hc (List.mem_cons_of_mem b hseen)⟩
        · rw [List.mem_cons] at ha ⊢
          tauto
      · rintro ⟨before, after, hl, hnodup, hnew, ha⟩
        cases before with
        | nil =>
          obtain ⟨rfl, rfl⟩ := List.cons.inj hl
          simp [hb] at ha
        | cons b' before =>
          obtain ⟨rfl, rfl⟩ := List.cons.inj hl
          obtain ⟨hfirst, hnodup⟩ := List.nodup_cons.1 hnodup
          refine ⟨before, after, rfl, hnodup, ?_, ?_⟩
          · intro c hc hseen
            rcases List.mem_cons.1 hseen with rfl | hseen
            · exact hfirst hc
            · exact hnew c (List.mem_cons_of_mem _ hc) hseen
          · rw [List.mem_cons] at ha ⊢
            tauto

namespace Graph

variable {g : Graph} {accepts : Edge → Bool} {op : Operation} {e : Error}

/-- An operation is the first one whose destination is already defined. -/
def Redefines (g : Graph) (op : Operation) : Prop :=
  ∃ before after, g.operations = before ++ op :: after ∧ SingleAssignment before ∧
    ∃ p ∈ before, p.dest = op.dest

theorem redefined?_eq_some {v : Node} :
    g.redefined? = some v ↔ ∃ op, g.Redefines op ∧ op.dest = v := by
  rw [redefined?, firstRepeat?_eq_some]
  constructor
  · rintro ⟨dests, rest, hdests, hnodup, -, hv⟩
    obtain ⟨before, tail, hops, rfl, htail⟩ := List.map_eq_append_iff.1 hdests
    obtain ⟨op, after, rfl, rfl, -⟩ := List.map_eq_cons_iff.1 htail
    refine ⟨op, ⟨before, after, hops, hnodup, ?_⟩, rfl⟩
    simpa using hv
  · rintro ⟨op, ⟨before, after, hops, hnodup, p, hp, hd⟩, rfl⟩
    refine ⟨before.map Operation.dest, after.map Operation.dest, ?_, hnodup, by simp, .inl ?_⟩
    · rw [hops, List.map_append, List.map_cons]
    · rw [← hd]
      exact List.mem_map_of_mem hp

theorem singleAssignment_eq_error : g.singleAssignment = .error e ↔
    ∃ op, g.Redefines op ∧ e = .invariant ⟨"graph", op.dest.name, .redefined⟩ := by
  unfold singleAssignment
  constructor
  · intro h
    cases hr : g.redefined? with
    | none =>
      rw [hr] at h
      cases h
    | some v =>
      rw [hr] at h
      cases h
      obtain ⟨op, hop, rfl⟩ := redefined?_eq_some.1 hr
      exact ⟨op, hop, rfl⟩
  · rintro ⟨op, hop, rfl⟩
    rw [redefined?_eq_some.2 ⟨op, hop, rfl⟩]

/-- Components can be found for any accepted edges unless there is a redefinition. -/
theorem componentsOf_eq_error {accepted : List Edge} (hsub : accepted ⊆ g.edges) :
    g.componentsOf accepted = .error e ↔ g.singleAssignment = .error e := by
  by_cases hs : SingleAssignment g.operations
  · obtain ⟨placed, -, -, -, hcomps⟩ := exists_componentsOf hs hsub
    rw [hcomps, singleAssignment_eq_ok.2 hs]
    simp
  · have hfail : g.singleAssignment ≠ .ok () := mt singleAssignment_eq_ok.1 hs
    unfold componentsOf
    cases h : g.singleAssignment with
    | ok _ => exact absurd h hfail
    | error e' => simp [bind, Except.bind]

/-- Asks a predicate and notes the edge that the question was about. -/
def noting (accepts : Edge → Bool) (e : Edge) : StateM (List Edge) Bool := do
  modify (· ++ [e])
  return accepts e

theorem filterAuxM_noting (l found asked : List Edge) :
    (List.filterAuxM (noting accepts) l found).run asked =
      ((l.filter accepts).reverse ++ found, asked ++ l) := by
  induction l generalizing found asked with
  | nil => simp [List.filterAuxM, pure, StateT.pure, StateT.run]
  | cons e l ih =>
    have hstep : (List.filterAuxM (noting accepts) (e :: l) found).run asked =
        (List.filterAuxM (noting accepts) l (cond (accepts e) (e :: found) found)).run
          (asked ++ [e]) := rfl
    rw [hstep, ih]
    cases ha : accepts e <;> simp [ha]

theorem filterM_noting (l asked : List Edge) :
    (l.filterM (noting accepts)).run asked = (l.filter accepts, asked ++ l) := by
  have hrun : (l.filterM (noting accepts)).run asked =
      (((List.filterAuxM (noting accepts) l []).run asked).1.reverse,
        ((List.filterAuxM (noting accepts) l []).run asked).2) := rfl
  rw [hrun, filterAuxM_noting, List.append_nil, List.reverse_reverse]

variable (g accepts) in
/-- Every edge is asked about once, in order, whatever becomes of the components. -/
theorem componentsM_noting (asked : List Edge) :
    (g.componentsM (noting accepts)).run asked = (g.components accepts, asked ++ g.edges) := by
  have hrun : (g.componentsM (noting accepts)).run asked =
      (g.componentsOf ((g.edges.filterM (noting accepts)).run asked).1,
        ((g.edges.filterM (noting accepts)).run asked).2) := rfl
  rw [hrun, filterM_noting]
  rfl

/-- The search for components asks a predicate about each source of each operation, once and in
order, and then answers as if it had not been watched. It fails if and only if two operations have
the same destination, and the error names the destination of the first operation that defines
a node again. No component is ever met from another one, and no destination is left out. -/
theorem components_fail_only_for_redefinition (g : Graph) (accepts : Edge → Bool) :
    (∀ asked, (g.componentsM (noting accepts)).run asked =
      (g.components accepts,
        asked ++ g.operations.flatMap fun op => op.sources.map fun v => ⟨op, v⟩)) ∧
    ((∃ e, g.components accepts = .error e) ↔ ¬SingleAssignment g.operations) ∧
    (∀ e, g.components accepts = .error e ↔ ∃ op, g.Redefines op ∧
      e = .invariant ⟨"graph", op.dest.name, .redefined⟩) ∧
    (Breach.reason .redefined = "defined by more than one operation") ∧
    (∀ place name seed current placed, g.components accepts ≠
      .error (.invariant ⟨place, name, .crossing seed current placed⟩)) ∧
    ∀ place name, g.components accepts ≠ .error (.invariant ⟨place, name, .unplaced⟩) := by
  have herror (e : Error) : g.components accepts = .error e ↔ g.singleAssignment = .error e :=
    componentsOf_eq_error (List.filter_subset_self _)
  refine ⟨g.componentsM_noting accepts, ?_, fun e => ?_, rfl, ?_, ?_⟩
  · simp only [herror, ← singleAssignment_eq_ok]
    cases g.singleAssignment <;> simp
  · rw [herror, singleAssignment_eq_error]
  · intro place name seed current placed h
    obtain ⟨op, -, hop⟩ := singleAssignment_eq_error.1 ((herror _).1 h)
    cases hop
  · intro place name h
    obtain ⟨op, -, hop⟩ := singleAssignment_eq_error.1 ((herror _).1 h)
    cases hop

example (accepts : Edge → Bool) :
    ({ operations := ["a", "b", "b", "a"].map fun x =>
        ⟨⟨x, 1, .wire, 0⟩, 1, .input, []⟩ } : Graph).components accepts =
      .error (.invariant ⟨"graph", "b", .redefined⟩) := rfl

end Graph

end Netlist
