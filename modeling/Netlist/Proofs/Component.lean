import Netlist.Component
import Netlist.Proofs.Assignment
import Netlist.Proofs.Outcome
import Netlist.Proofs.Search

/-!
# Components partition a circuit

Neighbourhood is symmetric, so a component that is grown from a node outside all components before
it never meets one of them: what has been placed stays disjoint and closed under neighbourhood. In a
circuit with single assignment the components can therefore always be found. Their operations are
those of the circuit, each in one component, and an accepted edge never leaves its component.
-/

namespace Netlist

open Relation

variable {nodes seeds : List Node} {edges : List Edge} {placed : List (List Node)} {u v : Node}

theorem mem_neighbours : u ∈ neighbours edges v ↔
    ∃ e ∈ edges, (e.dest = v ∧ e.source = u) ∨ (e.source = v ∧ e.dest = u) := by
  simp only [neighbours, List.mem_append, List.mem_map, List.mem_filter, decide_eq_true_eq]
  grind

theorem neighbours_symm (h : u ∈ neighbours edges v) : v ∈ neighbours edges u := by
  obtain ⟨e, he, h⟩ := mem_neighbours.1 h
  exact mem_neighbours.2 ⟨e, he, h.symm.imp And.symm And.symm⟩

theorem placement?_eq_none : placement? placed v = none ↔ ∀ c ∈ placed, v ∉ c := by
  simp [placement?]

/-- Lists of nodes that neighbourhood does not connect to one another. -/
structure Placed (edges : List Edge) (placed : List (List Node)) : Prop where
  disjoint : placed.Pairwise List.Disjoint
  closed : ∀ c ∈ placed, ∀ v ∈ c, ∀ u ∈ neighbours edges v, u ∈ c

namespace Placed

theorem mem_of_reach (h : Placed edges placed) {c : List Node} (hc : c ∈ placed)
    (hpath : ReflTransGen (fun a c => c ∈ neighbours edges a) u v) (hv : v ∈ c) : u ∈ c := by
  induction hpath using ReflTransGen.head_induction_on with
  | refl => exact hv
  | head hstep _ ih => exact h.closed c hc _ ih _ (neighbours_symm hstep)

theorem explore_notMem (h : Placed edges placed) (hv : placement? placed v = none)
    (hu : u ∈ explore (neighbours edges) nodes [v]) : placement? placed u = none := by
  rw [placement?_eq_none] at hv ⊢
  intro c hc huc
  obtain ⟨s, hs, hpath⟩ := exists_start_of_mem_explore hu
  rw [List.mem_singleton.1 hs] at hpath
  exact hv c hc (h.mem_of_reach hc hpath huc)

theorem grow (h : Placed edges placed)
    (hedges : ∀ e ∈ edges, e.source ∈ nodes ∧ e.dest ∈ nodes)
    (hv : placement? placed v = none) :
    Placed edges (placed ++ [explore (neighbours edges) nodes [v]]) where
  disjoint := by
    refine List.pairwise_append.2 ⟨h.disjoint, List.pairwise_singleton _ _, ?_⟩
    intro c hc d hd u huc hud
    rw [List.mem_singleton.1 hd] at hud
    exact placement?_eq_none.1 (h.explore_notMem hv hud) c hc huc
  closed := by
    intro c hc u hu t ht
    rcases List.mem_append.1 hc with hc | hc
    · exact h.closed c hc u hu t ht
    · rw [List.mem_singleton.1 hc] at hu ⊢
      obtain ⟨e, he, hends⟩ := mem_neighbours.1 ht
      refine explore_closed hu ht ?_
      rcases hends with ⟨-, rfl⟩ | ⟨-, rfl⟩
      · exact (hedges e he).1
      · exact (hedges e he).2

end Placed

theorem growAll_cons_of_none (h : Placed edges placed) (hv : placement? placed v = none) :
    growAll nodes edges placed (v :: seeds) =
      growAll nodes edges (placed ++ [explore (neighbours edges) nodes [v]]) seeds := by
  have hfree : (explore (neighbours edges) nodes [v]).findSome?
      (fun u => (placement? placed u).map fun id => (u, id)) = none := by
    rw [List.findSome?_eq_none_iff]
    intro u hu
    rw [h.explore_notMem hv hu]
    rfl
  simp [growAll, hv, hfree]

theorem growAll_placed (hedges : ∀ e ∈ edges, e.source ∈ nodes ∧ e.dest ∈ nodes)
    (h : Placed edges placed) (hseeds : seeds ⊆ nodes) :
    ∃ placed', growAll nodes edges placed seeds = .ok placed' ∧ Placed edges placed' ∧
      placed ⊆ placed' ∧ ∀ v ∈ seeds, ∃ c ∈ placed', v ∈ c := by
  induction seeds generalizing placed with
  | nil => exact ⟨placed, rfl, h, List.Subset.refl _, by simp⟩
  | cons v seeds ih =>
    obtain ⟨hv, hseeds⟩ := List.cons_subset.1 hseeds
    cases hplace : placement? placed v with
    | some i =>
      obtain ⟨placed', hgrow, hp, hsub, hcover⟩ := ih h hseeds
      refine ⟨placed', by simpa [growAll, hplace] using hgrow, hp, hsub, ?_⟩
      refine List.forall_mem_cons.2 ⟨?_, hcover⟩
      by_contra hnone
      have : placement? placed v = none :=
        placement?_eq_none.2 fun c hc hvc => hnone ⟨c, hsub hc, hvc⟩
      simp [hplace] at this
    | none =>
      obtain ⟨placed', hgrow, hp, hsub, hcover⟩ := ih (h.grow hedges hplace) hseeds
      refine ⟨placed', (growAll_cons_of_none h hplace).trans hgrow, hp,
        fun c hc => hsub (List.mem_append_left _ hc), ?_⟩
      refine List.forall_mem_cons.2 ⟨⟨_, hsub (List.mem_append_right _ List.mem_cons_self), ?_⟩,
        hcover⟩
      exact mem_explore_of_mem_pending List.mem_cons_self hv

namespace Graph

variable {g : Graph} {accepts : Edge → Bool} {comps : List Component}

theorem mem_edges {e : Edge} : e ∈ g.edges ↔ e.operation ∈ g.operations ∧
    e.source ∈ e.operation.sources := by
  cases e with
  | mk op v => simp [edges]

/-- The components hold the operations of a circuit, each of them once, and every accepted edge lies
in one of them. -/
structure Partition (g : Graph) (accepts : Edge → Bool) (comps : List Component) : Prop where
  operations : ∀ c ∈ comps, c.operations = g.operations.filter (·.dest ∈ c.nodes)
  perm : (comps.flatMap Component.operations).Perm g.operations
  closed : ∀ c ∈ comps, ∀ op ∈ g.operations, ∀ v ∈ op.sources, accepts ⟨op, v⟩ = true →
    (op.dest ∈ c.nodes ↔ v ∈ c.nodes)

theorem Partition.mem_operations {c : Component} {op : Operation}
    (h : g.Partition accepts comps) (hc : c ∈ comps) :
    op ∈ c.operations ↔ op ∈ g.operations ∧ op.dest ∈ c.nodes := by
  rw [h.operations c hc]
  simp

theorem Partition.source_mem {c : Component} {op : Operation} (h : g.Partition accepts comps)
    (hc : c ∈ comps) (hop : op ∈ c.operations) (hv : v ∈ op.sources)
    (ha : accepts ⟨op, v⟩ = true) : v ∈ c.nodes := by
  obtain ⟨hmem, hdest⟩ := (h.mem_operations hc).1 hop
  exact (h.closed c hc op hmem v hv ha).1 hdest

theorem Partition.mem_iff_of_read {c : Component} {p q : Operation}
    (h : g.Partition accepts comps) (hc : c ∈ comps) (hp : p ∈ g.operations)
    (hq : q ∈ g.operations) (hread : q.dest ∈ p.sources) (ha : accepts ⟨p, q.dest⟩ = true) :
    p ∈ c.operations ↔ q ∈ c.operations := by
  rw [h.operations c hc]
  simpa [hp, hq] using h.closed c hc p hp q.dest hread ha

/-- Disjoint lists of nodes that hold all destinations cut a list of operations into pieces. -/
theorem flatMap_filter_perm {ops : List Operation} (hops : ops.Nodup)
    (hd : placed.Pairwise List.Disjoint) (hcover : ∀ op ∈ ops, ∃ c ∈ placed, op.dest ∈ c) :
    (placed.flatMap fun c => ops.filter (·.dest ∈ c)).Perm ops := by
  have hnodup : (placed.flatMap fun c => ops.filter (·.dest ∈ c)).Nodup := by
    refine List.nodup_flatMap.2 ⟨fun c _ => hops.filter _, hd.imp ?_⟩
    intro c d hcd op hc hd
    exact hcd (by simpa using (List.mem_filter.1 hc).2) (by simpa using (List.mem_filter.1 hd).2)
  rw [List.perm_ext_iff_of_nodup hnodup hops]
  intro op
  simp only [List.mem_flatMap, List.mem_filter, decide_eq_true_eq]
  constructor
  · rintro ⟨c, -, hop, -⟩
    exact hop
  · intro hop
    obtain ⟨c, hc, hmem⟩ := hcover op hop
    exact ⟨c, hc, hop, hmem⟩

/-- The components that accepted edges of a circuit with single assignment connect are those that
have been placed, with the operations that define their nodes. -/
theorem exists_componentsOf {accepted : List Edge} (h : SingleAssignment g.operations)
    (hsub : accepted ⊆ g.edges) : ∃ placed, growAll g.nodes accepted [] g.nodes = .ok placed ∧
      Placed accepted placed ∧ (∀ v ∈ g.nodes, ∃ c ∈ placed, v ∈ c) ∧
      g.componentsOf accepted =
        .ok (placed.map fun nodes => ⟨nodes, g.operations.filter (·.dest ∈ nodes)⟩) := by
  have hedges : ∀ e ∈ accepted, e.source ∈ g.nodes ∧ e.dest ∈ g.nodes := by
    intro e he
    obtain ⟨hop, hv⟩ := mem_edges.1 (hsub he)
    exact ⟨source_mem_nodes hop hv, dest_mem_nodes hop⟩
  have hnone : Placed accepted [] := ⟨List.Pairwise.nil, by simp⟩
  obtain ⟨placed, hgrow, hp, -, hcover⟩ :=
    growAll_placed hedges hnone (List.Subset.refl g.nodes)
  have hplaced : g.operations.find? (fun op => (placement? placed op.dest).isNone) = none := by
    rw [List.find?_eq_none]
    intro op hop hnone
    obtain ⟨c, hc, hmem⟩ := hcover op.dest (dest_mem_nodes hop)
    exact placement?_eq_none.1 (Option.isNone_iff_eq_none.1 hnone) c hc hmem
  refine ⟨placed, hgrow, hp, hcover, ?_⟩
  rw [componentsOf, singleAssignment_eq_ok.2 h]
  simp [bind, Except.bind, pure, Except.pure, hgrow, hplaced]

variable (accepts) in
theorem exists_components (h : SingleAssignment g.operations) :
    ∃ comps, g.components accepts = .ok comps ∧ g.Partition accepts comps := by
  obtain ⟨placed, -, hp, hcover, hcomps⟩ :=
    exists_componentsOf h (List.filter_subset_self (p := accepts) g.edges)
  refine ⟨_, hcomps, ?_, ?_, ?_⟩
  · intro c hc
    obtain ⟨nodes, -, rfl⟩ := List.mem_map.1 hc
    rfl
  · rw [List.flatMap_map]
    exact flatMap_filter_perm h.nodup hp.disjoint fun op hop => hcover op.dest (dest_mem_nodes hop)
  · intro c hc op hop v hv hacc
    obtain ⟨nodes, hnodes, rfl⟩ := List.mem_map.1 hc
    have hedge : (⟨op, v⟩ : Edge) ∈ g.edges.filter accepts :=
      List.mem_filter.2 ⟨mem_edges.2 ⟨hop, hv⟩, hacc⟩
    constructor
    · intro hd
      exact hp.closed nodes hnodes _ hd v (mem_neighbours.2 ⟨_, hedge, .inl ⟨rfl, rfl⟩⟩)
    · intro hs
      exact hp.closed nodes hnodes _ hs op.dest (mem_neighbours.2 ⟨_, hedge, .inr ⟨rfl, rfl⟩⟩)

theorem partition_of_components (h : g.components accepts = .ok comps) :
    SingleAssignment g.operations ∧ g.Partition accepts comps := by
  have hs : SingleAssignment g.operations := by
    rw [components, componentsOf, bind_eq_ok] at h
    obtain ⟨_, hs, _⟩ := h
    exact singleAssignment_eq_ok.1 hs
  obtain ⟨comps', h', hp⟩ := exists_components accepts hs
  rw [h] at h'
  cases h'
  exact ⟨hs, hp⟩

end Graph

end Netlist
