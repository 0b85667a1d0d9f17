import Mathlib
import Netlist.Proofs.Component

/-!
# Components are the connected parts of a circuit

Two nodes are joined by an accepted edge from one to the other. A component is grown from a seed,
and everything in it can be reached from the seed through neighbours, so it is connected; since
nothing outside is a neighbour of it, it is a whole class of the equivalence that the accepted edges
generate.

The seeds are taken in the order of the circuit's nodes. When a component is grown, all nodes before
its seed have been placed, so the seed is its first node, and the seeds of the components before it
come earlier. The components are therefore numbered in the order of their first nodes.
-/

namespace Netlist

open Relation

variable {nodes seeds taken : List Node} {edges : List Edge} {placed placed' : List (List Node)}
  {u v : Node} {id : ℕ}

def Joined (edges : List Edge) (u v : Node) : Prop := ∃ e ∈ edges, e.source = u ∧ e.dest = v

theorem eqvGen_of_mem_neighbours (h : v ∈ neighbours edges u) : EqvGen (Joined edges) u v := by
  obtain ⟨e, he, ⟨hd, hs⟩ | ⟨hs, hd⟩⟩ := mem_neighbours.1 h
  · exact (EqvGen.rel v u ⟨e, he, hs, hd⟩).symm
  · exact EqvGen.rel u v ⟨e, he, hs, hd⟩

theorem eqvGen_of_reach (h : ReflTransGen (fun a c => c ∈ neighbours edges a) u v) :
    EqvGen (Joined edges) u v := by
  induction h with
  | refl => exact .refl u
  | tail _ hstep ih => exact ih.trans _ _ _ (eqvGen_of_mem_neighbours hstep)

theorem Placed.mem_iff_of_eqvGen (h : Placed edges placed) {c : List Node} (hc : c ∈ placed)
    (huv : EqvGen (Joined edges) u v) : u ∈ c ↔ v ∈ c := by
  induction huv with
  | rel u v hedge =>
    obtain ⟨e, he, rfl, rfl⟩ := hedge
    have hforward : e.dest ∈ neighbours edges e.source :=
      mem_neighbours.2 ⟨e, he, .inr ⟨rfl, rfl⟩⟩
    exact ⟨fun hu => h.closed c hc _ hu _ hforward,
      fun hv => h.closed c hc _ hv _ (neighbours_symm hforward)⟩
  | refl u => rfl
  | symm u v _ ih => exact ih.symm
  | trans u v w _ _ ih ih' => exact ih.trans ih'

theorem placement?_eq_some (hd : placed.Pairwise List.Disjoint) :
    placement? placed v = some id ↔ ∃ c, placed[id]? = some c ∧ v ∈ c := by
  rw [placement?, List.findIdx?_eq_some_iff_getElem]
  constructor
  · rintro ⟨hid, hv, -⟩
    exact ⟨placed[id], List.getElem?_eq_getElem hid, by simpa using hv⟩
  · rintro ⟨c, hc, hv⟩
    obtain ⟨hid, rfl⟩ := List.getElem?_eq_some_iff.1 hc
    refine ⟨hid, by simpa using hv, fun j hj => ?_⟩
    have hdisjoint : List.Disjoint placed[j] placed[id] :=
      List.pairwise_iff_getElem.1 hd j id (hj.trans hid) hid hj
    simpa using fun hmem => hdisjoint hmem hv

/-- A component is listed from its first node on, in the order of some nodes. -/
def StartsFirst (nodes c : List Node) : Prop :=
  ∃ s rest, c = s :: rest ∧ ∀ v ∈ rest, nodes.idxOf s < nodes.idxOf v

/-- The first of two components starts with an earlier node. -/
def StartsBefore (nodes c d : List Node) : Prop :=
  ∀ s ∈ c.head?, ∀ t ∈ d.head?, nodes.idxOf s < nodes.idxOf t

/-- The components after some seeds have been taken, in the order in which they were grown. -/
structure Numbered (nodes : List Node) (edges : List Edge) (taken : List Node)
    (placed : List (List Node)) : Prop where
  nodup : ∀ c ∈ placed, c.Nodup
  subset : ∀ c ∈ placed, c ⊆ nodes
  connected : ∀ c ∈ placed, ∀ u ∈ c, ∀ v ∈ c, EqvGen (Joined edges) u v
  covered : ∀ v ∈ taken, ∃ c ∈ placed, v ∈ c
  seeded : ∀ c ∈ placed, ∀ s ∈ c.head?, s ∈ taken
  first : ∀ c ∈ placed, StartsFirst nodes c
  ordered : placed.Pairwise (StartsBefore nodes)

namespace Numbered

theorem nil : Numbered nodes edges [] [] :=
  ⟨by simp, by simp, by simp, by simp, by simp, by simp, .nil⟩

theorem skip (h : Numbered nodes edges taken placed) (hv : ∃ c ∈ placed, v ∈ c) :
    Numbered nodes edges (taken ++ [v]) placed where
  nodup := h.nodup
  subset := h.subset
  connected := h.connected
  covered u hu := by
    rcases List.mem_append.1 hu with hu | hu
    · exact h.covered u hu
    · rw [List.mem_singleton.1 hu]
      exact hv
  seeded c hc s hs := List.mem_append_left _ (h.seeded c hc s hs)
  first := h.first
  ordered := h.ordered

theorem explore_cons (hv : v ∈ nodes) : explore (neighbours edges) nodes [v] =
    v :: explore (neighbours edges) (nodes.erase v) (neighbours edges v) := by
  rw [explore, if_pos hv, List.nil_append]

theorem explore_connected (hu : u ∈ explore (neighbours edges) nodes [v]) :
    EqvGen (Joined edges) v u := by
  obtain ⟨s, hs, hpath⟩ := exists_start_of_mem_explore hu
  rw [List.mem_singleton.1 hs] at hpath
  exact eqvGen_of_reach hpath

/-- What grows from a seed outside of all components lies behind the seed. -/
theorem startsFirst_explore (h : Numbered nodes edges taken placed) (hp : Placed edges placed)
    (hnodes : nodes = taken ++ v :: seeds) (hnodup : nodes.Nodup)
    (hv : placement? placed v = none) :
    StartsFirst nodes (explore (neighbours edges) nodes [v]) := by
  have hvmem : v ∈ nodes := by simp [hnodes]
  have hgrown : (explore (neighbours edges) nodes [v]).Nodup := nodup_explore hnodup
  rw [explore_cons hvmem] at hgrown
  refine ⟨v, _, explore_cons hvmem, fun u hu => ?_⟩
  have humem : u ∈ explore (neighbours edges) nodes [v] := by
    rw [explore_cons hvmem]
    exact List.mem_cons_of_mem v hu
  have huv : u ≠ v := fun he => (List.nodup_cons.1 hgrown).1 (he ▸ hu)
  have hutaken : u ∉ taken := by
    intro hmem
    obtain ⟨c, hc, huc⟩ := h.covered u hmem
    exact placement?_eq_none.1 (hp.explore_notMem hv humem) c hc huc
  have hvtaken : v ∉ taken := by
    intro hmem
    obtain ⟨c, hc, hvc⟩ := h.covered v hmem
    exact placement?_eq_none.1 hv c hc hvc
  rw [hnodes, List.idxOf_append_of_notMem hutaken, List.idxOf_append_of_notMem hvtaken,
    List.idxOf_cons_self, List.idxOf_cons_ne _ huv.symm]
  omega

theorem grow (h : Numbered nodes edges taken placed) (hp : Placed edges placed)
    (hnodes : nodes = taken ++ v :: seeds) (hnodup : nodes.Nodup)
    (hv : placement? placed v = none) :
    Numbered nodes edges (taken ++ [v])
      (placed ++ [explore (neighbours edges) nodes [v]]) := by
  have hvmem : v ∈ nodes := by simp [hnodes]
  have hgrown (P : List Node → Prop) (hold : ∀ c ∈ placed, P c)
      (hnew : P (explore (neighbours edges) nodes [v])) :
      ∀ c ∈ placed ++ [explore (neighbours edges) nodes [v]], P c := by
    intro c hc
    rcases List.mem_append.1 hc with hc | hc
    · exact hold c hc
    · rw [List.mem_singleton.1 hc]
      exact hnew
  have hhead : ∀ s ∈ (explore (neighbours edges) nodes [v]).head?, s = v := by
    rw [explore_cons hvmem]
    simp
  refine ⟨hgrown _ h.nodup (nodup_explore hnodup), hgrown _ h.subset fun u => mem_of_mem_explore,
    hgrown _ h.connected ?_, ?_, hgrown _ ?_ ?_,
    hgrown _ h.first (h.startsFirst_explore hp hnodes hnodup hv), ?_⟩
  · intro u hu w hw
    exact (explore_connected hu).symm.trans _ _ _ (explore_connected hw)
  · intro u hu
    rcases List.mem_append.1 hu with hu | hu
    · obtain ⟨c, hc, huc⟩ := h.covered u hu
      exact ⟨c, List.mem_append_left _ hc, huc⟩
    · refine ⟨_, List.mem_append_right _ List.mem_cons_self, ?_⟩
      exact mem_explore_of_mem_pending hu (List.mem_singleton.1 hu ▸ hvmem)
  · intro c hc s hs
    exact List.mem_append_left _ (h.seeded c hc s hs)
  · intro s hs
    rw [hhead s hs]
    simp
  · refine List.pairwise_append.2 ⟨h.ordered, List.pairwise_singleton _ _, ?_⟩
    intro c hc d hd s hs t ht
    rw [List.mem_singleton.1 hd] at ht
    have hs := h.seeded c hc s hs
    have hvtaken : v ∉ taken := by
      rw [hnodes] at hnodup
      exact fun hmem => (List.nodup_append.1 hnodup).2.2 v hmem v List.mem_cons_self rfl
    rw [hhead t ht, hnodes, List.idxOf_append_of_mem hs, List.idxOf_append_of_notMem hvtaken]
    have := List.idxOf_lt_length_of_mem hs
    omega

end Numbered

theorem growAll_numbered (hedges : ∀ e ∈ edges, e.source ∈ nodes ∧ e.dest ∈ nodes)
    (hnodup : nodes.Nodup) (hnodes : nodes = taken ++ seeds) (hp : Placed edges placed)
    (h : Numbered nodes edges taken placed)
    (hgrow : growAll nodes edges placed seeds = .ok placed') :
    Numbered nodes edges nodes placed' := by
  induction seeds generalizing taken placed with
  | nil =>
    cases hgrow
    rwa [hnodes, List.append_nil] at h ⊢
  | cons v seeds ih =>
    have hsplit : nodes = taken ++ [v] ++ seeds := by rw [hnodes, List.append_assoc]; rfl
    cases hplace : placement? placed v with
    | some id =>
      have hv : ∃ c ∈ placed, v ∈ c := by
        obtain ⟨c, hc, hvc⟩ := (placement?_eq_some hp.disjoint).1 hplace
        exact ⟨c, List.mem_of_getElem? hc, hvc⟩
      exact ih hsplit hp (h.skip hv) (by simpa [growAll, hplace] using hgrow)
    | none =>
      rw [growAll_cons_of_none hp hplace] at hgrow
      exact ih hsplit (hp.grow hedges hplace) (h.grow hp hnodes hnodup hplace) hgrow

namespace Graph

variable {g : Graph} {accepted : List Edge}

theorem flatten_perm_nodes (hp : Placed accepted placed)
    (h : Numbered g.nodes accepted g.nodes placed) : placed.flatten.Perm g.nodes := by
  have hnodup : placed.flatten.Nodup := List.nodup_flatten.2 ⟨h.nodup, hp.disjoint⟩
  rw [List.perm_ext_iff_of_nodup hnodup g.nodup_nodes]
  intro v
  rw [List.mem_flatten]
  constructor
  · rintro ⟨c, hc, hv⟩
    exact h.subset c hc hv
  · exact h.covered v

/-- Nodes lie in one component exactly if accepted edges connect them. -/
theorem placement?_eq_iff (hp : Placed accepted placed)
    (h : Numbered g.nodes accepted g.nodes placed) (hu : u ∈ g.nodes) :
    placement? placed u = placement? placed v ↔ EqvGen (Joined accepted) u v := by
  obtain ⟨c, hc, huc⟩ := h.covered u hu
  obtain ⟨id, hid⟩ := List.getElem?_of_mem hc
  have hplace : placement? placed u = some id := (placement?_eq_some hp.disjoint).2 ⟨c, hid, huc⟩
  rw [hplace, eq_comm, placement?_eq_some hp.disjoint, hid]
  constructor
  · rintro ⟨d, hd, hv⟩
    cases hd
    exact h.connected c hc u huc v hv
  · intro hjoined
    exact ⟨c, rfl, (hp.mem_iff_of_eqvGen hc hjoined).1 huc⟩

/-- In a circuit with single assignment the components can be found, whatever edges are accepted.
They hold every node once; the number of a component tells which nodes lie in it, and two nodes have
the same number exactly if accepted edges connect them. No component is empty, each is listed from
its first node on, and they are numbered in the order of their first nodes. The operations of a
component are those that define its nodes, in the order of the circuit. -/
theorem components_are_connected_parts (hs : SingleAssignment g.operations)
    (accepts : Edge → Bool) : ∃ comps, g.components accepts = .ok comps ∧
      (comps.flatMap Component.nodes).Perm g.nodes ∧
      (∀ v id, componentOf? comps v = some id ↔ ∃ c, comps[id]? = some c ∧ v ∈ c.nodes) ∧
      (∀ u ∈ g.nodes, ∀ v ∈ g.nodes, componentOf? comps u = componentOf? comps v ↔
        EqvGen (Joined (g.edges.filter accepts)) u v) ∧
      (∀ c ∈ comps, c.nodes ≠ [] ∧ StartsFirst g.nodes c.nodes) ∧
      comps.Pairwise (fun c d => StartsBefore g.nodes c.nodes d.nodes) ∧
      ∀ id c, comps[id]? = some c →
        c.operations = g.operations.filter (componentOf? comps ·.dest = some id) := by
  have hsub : g.edges.filter accepts ⊆ g.edges := List.filter_subset_self _
  obtain ⟨placed, hgrow, hp, -, hcomps⟩ := exists_componentsOf hs hsub
  have hedges : ∀ e ∈ g.edges.filter accepts, e.source ∈ g.nodes ∧ e.dest ∈ g.nodes := by
    intro e he
    obtain ⟨hop, hv⟩ := mem_edges.1 (hsub he)
    exact ⟨source_mem_nodes hop hv, dest_mem_nodes hop⟩
  have hn : Numbered g.nodes (g.edges.filter accepts) g.nodes placed :=
    growAll_numbered hedges g.nodup_nodes rfl ⟨.nil, by simp⟩ .nil hgrow
  have hnodes : (placed.map fun nodes => (⟨nodes, g.operations.filter (·.dest ∈ nodes)⟩ :
      Component)).map Component.nodes = placed := by
    rw [List.map_map]
    exact List.map_id placed
  refine ⟨_, hcomps, ?_, ?_, ?_, ?_, ?_, ?_⟩
  · rw [List.flatMap_def, hnodes]
    exact flatten_perm_nodes hp hn
  · intro v id
    rw [componentOf?, hnodes, placement?_eq_some hp.disjoint, List.getElem?_map]
    simp
  · intro u hu v _
    rw [componentOf?, componentOf?, hnodes]
    exact placement?_eq_iff hp hn hu
  · intro c hc
    obtain ⟨nodes, hmem, rfl⟩ := List.mem_map.1 hc
    have hfirst := hn.first nodes hmem
    refine ⟨?_, hfirst⟩
    rintro rfl
    obtain ⟨s, rest, hlist, -⟩ := hfirst
    cases hlist
  · exact List.pairwise_map.2 hn.ordered
  · intro id c hc
    rw [List.getElem?_map] at hc
    obtain ⟨nodes, hid, rfl⟩ := Option.map_eq_some_iff.1 hc
    refine List.filter_congr fun op _ => ?_
    rw [componentOf?, hnodes, decide_eq_decide, placement?_eq_some hp.disjoint, hid]
    simp

/-- An operation that reads its own destination, and two that read each other. -/
def entangled : Graph where
  operations :=
    [⟨⟨"x", 8, .wire, 0⟩, 8, .xor, [⟨"y", 8, .wire, 0⟩, ⟨"x", 8, .wire, 0⟩, ⟨"y", 8, .wire, 0⟩]⟩,
      ⟨⟨"z", 8, .wire, 0⟩, 8, .xor, [⟨"w", 8, .wire, 0⟩]⟩,
      ⟨⟨"v", 8, .wire, 0⟩, 8, .output, [⟨"x", 8, .wire, 0⟩]⟩,
      ⟨⟨"w", 8, .wire, 0⟩, 8, .xor, [⟨"z", 8, .wire, 0⟩]⟩]

/-- The components of the sums in it: the output is connected to nothing. -/
def entangledParts : List Component :=
  [⟨[⟨"x", 8, .wire, 0⟩, ⟨"y", 8, .wire, 0⟩],
      [⟨⟨"x", 8, .wire, 0⟩, 8, .xor,
        [⟨"y", 8, .wire, 0⟩, ⟨"x", 8, .wire, 0⟩, ⟨"y", 8, .wire, 0⟩]⟩]⟩,
    ⟨[⟨"z", 8, .wire, 0⟩, ⟨"w", 8, .wire, 0⟩],
      [⟨⟨"z", 8, .wire, 0⟩, 8, .xor, [⟨"w", 8, .wire, 0⟩]⟩,
        ⟨⟨"w", 8, .wire, 0⟩, 8, .xor, [⟨"z", 8, .wire, 0⟩]⟩]⟩,
    ⟨[⟨"v", 8, .wire, 0⟩], [⟨⟨"v", 8, .wire, 0⟩, 8, .output, [⟨"x", 8, .wire, 0⟩]⟩]⟩]

theorem entangled_connected_parts :
    let accepts (e : Edge) : Bool := e.operation.opcode = .xor
    SingleAssignment entangled.operations ∧
      entangled.components accepts = .ok entangledParts ∧
      ∀ u ∈ entangled.nodes, ∀ v ∈ entangled.nodes,
        componentOf? entangledParts u = componentOf? entangledParts v ↔
          EqvGen (Joined (entangled.edges.filter accepts)) u v := by
  intro accepts
  have hs : SingleAssignment entangled.operations := by
    unfold SingleAssignment
    decide
  have hparts : entangled.components accepts = .ok entangledParts := by cbv
  obtain ⟨comps, hcomps, -, -, hconnected, -⟩ := components_are_connected_parts hs accepts
  cases hparts.symm.trans hcomps
  exact ⟨hs, hparts, hconnected⟩

end Graph

end Netlist
