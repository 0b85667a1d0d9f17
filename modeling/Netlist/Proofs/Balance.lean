import Netlist.Proofs.Rebuild

/-!
# What balancing does and keeps

`Balancing` says what the balancer makes of a circuit: the kept operations, and a tree with a copy
for each rewritten one. All trees together form a straight line over the nodes of the circuit.

The temporaries are added to the destinations and none is taken away. So balancing keeps single
assignment and closedness, and it keeps every operation of an opcode other than its connective and
`mov`. The operations of a tree fit between the leaves and the rewritten node, so no cycle appears.
A copy reads a leaf or a temporary, never a rewritten node. Without operations of its connective
balancing only permutes a circuit.
-/

namespace Netlist.Bitwise

open Relation

variable {b : Bitwise} {g r : Graph} {kept : List Operation} {rewrites : List Rewrite}

/-- Some operations of a circuit are kept and the others rewritten to get another circuit. -/
structure Balancing (b : Bitwise) (g r : Graph) (kept : List Operation) (rewrites : List Rewrite) :
    Prop where
  assigned : SingleAssignment g.operations
  source : g.operations.Perm (kept ++ rewrites.map Rewrite.operation)
  result : r.operations.Perm (kept ++ rewrites.flatMap (Rewrite.operations b))
  sound : ∀ w ∈ rewrites, ∃ ops, ops.Sublist g.operations ∧ w.Sound b ops
  unread : ∀ w ∈ rewrites, ∀ p ∈ b.within g.operations, w.operation.dest ∉ p.sources
  fresh : Fresh (.ofGraph g 0) 0 (rewrites.flatMap (Rewrite.temporaries b))
  declared : r.declared = g.memories
  generation : r.generation = g.lastTag + 1

/-- Balancing rebuilds the components, and together they make up what it does to the circuit. -/
theorem exists_rebuilding (h : b.balance g = .ok r) :
    ∃ comps kept rewrites, g.components (·.operation.opcode = b.opcode) = .ok comps ∧
      Rebuilding b (comps.map Component.operations) g.operations r.operations kept rewrites ∧
      Balancing b g r kept rewrites := by
  obtain ⟨comps, hcomps, h⟩ := bind_eq_ok.1 h
  obtain ⟨rebuilt, hrebuilt, h⟩ := bind_eq_ok.1 h
  cases h
  obtain ⟨hs, hpart⟩ := Graph.partition_of_components hcomps
  have hsub : ∀ c ∈ comps, c.operations.Sublist g.operations := by
    intro c hc
    rw [hpart.operations c hc]
    exact List.filter_sublist
  obtain ⟨kept, rewrites, hr, hf⟩ :=
    rebuildAll_rebuilding (fun c hc => hs.sublist (hsub c hc)) hrebuilt
  have hbefore := hpart.perm.symm.trans hr.before
  refine ⟨comps, kept, rewrites, hcomps, ⟨hbefore, hr.after, hr.sound, hr.stays⟩,
    hs, hbefore, hr.after, ?_, ?_, hf, rfl, rfl⟩
  · intro w hw
    obtain ⟨ops, hops, hw⟩ := hr.sound w hw
    obtain ⟨c, hc, rfl⟩ := List.mem_map.1 hops
    exact ⟨_, hsub c hc, hw⟩
  · intro w hw p hp hread
    obtain ⟨ops, hops, hw⟩ := hr.sound w hw
    obtain ⟨c, hc, rfl⟩ := List.mem_map.1 hops
    obtain ⟨hpg, hpc⟩ := mem_within.1 hp
    have hmem : p ∈ c.operations :=
      (hpart.mem_iff_of_read hc hpg ((hsub c hc).subset hw.mem) hread (by simpa using hpc)).2 hw.mem
    exact hw.unread hmem hread

theorem exists_balancing (h : b.balance g = .ok r) :
    ∃ kept rewrites, Balancing b g r kept rewrites := by
  obtain ⟨-, kept, rewrites, -, -, hb⟩ := exists_rebuilding h
  exact ⟨kept, rewrites, hb⟩

theorem exists_balance (hs : SingleAssignment g.operations)
    (ha : Acyclic (b.within g.operations)) : ∃ r, b.balance g = .ok r := by
  obtain ⟨comps, hcomps, hpart⟩ :=
    Graph.exists_components (·.operation.opcode = b.opcode) hs
  have hstep : ∀ x ∈ comps.zipIdx, ∃ out,
      b.rebuild { Minter.ofGraph g 0 with scope := x.2 } x.1.operations = .ok out := by
    intro x hx
    apply exists_rebuild
    apply ha.of_subset
    have hc : x.1 ∈ comps := (List.mem_zipIdx' hx).2 ▸ List.getElem_mem _
    rw [hpart.operations x.1 hc]
    exact List.filter_subset _ List.filter_sublist.subset
  obtain ⟨rebuilt, hrebuilt⟩ := exists_mapM_eq_ok hstep
  exact ⟨_, bind_eq_ok.2 ⟨comps, hcomps, bind_eq_ok.2 ⟨rebuilt, hrebuilt, rfl⟩⟩⟩

def trees (b : Bitwise) (rewrites : List Rewrite) : List Operation :=
  rewrites.flatMap fun w => (w.tree b).operations

theorem trees_cons (w : Rewrite) :
    b.trees (w :: rewrites) = (w.tree b).operations ++ b.trees rewrites := List.flatMap_cons

theorem map_dest_trees : (b.trees rewrites).map Operation.dest =
    rewrites.flatMap (Rewrite.temporaries b) := by
  rw [trees, List.map_flatMap]
  rfl

theorem opcode_of_mem_trees {op : Operation} (h : op ∈ b.trees rewrites) :
    op.opcode = b.opcode := by
  obtain ⟨w, -, hop⟩ := List.mem_flatMap.1 h
  exact opcode_of_mem_combine hop

theorem temporary_mem {w : Rewrite} {v : Node} (hw : w ∈ rewrites)
    (hv : v ∈ w.temporaries b) : v ∈ (b.trees rewrites).map Operation.dest := by
  rw [map_dest_trees]
  exact List.mem_flatMap.2 ⟨w, hw, hv⟩

theorem trees_straight {known : Node → Prop} (hknown : ∀ w ∈ rewrites, ∀ v ∈ w.leaves, known v)
    (hnew : ∀ t ∈ (b.trees rewrites).map Operation.dest, ¬known t)
    (hnodup : ((b.trees rewrites).map Operation.dest).Nodup) :
    Straight known (b.trees rewrites) := by
  induction rewrites generalizing known with
  | nil => trivial
  | cons w rewrites ih =>
    obtain ⟨hw, hknown⟩ := List.forall_mem_cons.1 hknown
    rw [trees_cons, List.map_append] at hnew hnodup
    rw [trees_cons, Straight.append_iff]
    obtain ⟨hfirst, hrest, hdisjoint⟩ := List.nodup_append.1 hnodup
    have hleaves := List.forall_mem_cons.1 hw
    refine ⟨combine_straight hleaves.1 hleaves.2 ?_ hfirst, ih ?_ ?_ hrest⟩
    · exact fun op hop => hnew _ (List.mem_append_left _ (List.mem_map.2 ⟨op, hop, rfl⟩))
    · exact fun w hw v hv => .inl (hknown w hw v hv)
    · rintro t ht (hk | hmem)
      · exact hnew t (List.mem_append_right _ ht) hk
      · exact hdisjoint t hmem t ht rfl

/-- A ranking goes on to a tree, with the root below the rewritten node. -/
theorem exists_rank_tree {known : Node → Prop} {rank : Node → ℚ} {w : Rewrite}
    (hstraight : Straight known (w.tree b).operations) (hdest : known w.operation.dest)
    (hknown : ∀ v ∈ w.leaves, known v)
    (hrank : ∀ v ∈ w.leaves, rank v < rank w.operation.dest) :
    ∃ rank' : Node → ℚ, (∀ v, known v → rank' v = rank v) ∧
      Ranked rank' (w.tree b).operations ∧ rank' (w.tree b).root < rank' w.operation.dest := by
  have hbelow : ∀ op ∈ (w.tree b).operations, ∀ v ∈ op.sources, known v →
      rank v < rank w.operation.dest := by
    intro op hop v hv hk
    rcases combine_sources hop hv with hv | hv
    · exact hrank v hv
    · obtain ⟨p, hp, rfl⟩ := List.mem_map.1 hv
      exact absurd hk (hstraight.not_known hp)
  obtain ⟨rank', hagree, hranked, hcap⟩ := hstraight.exists_rank hbelow
  refine ⟨rank', hagree, hranked, ?_⟩
  rw [hagree _ hdest]
  rcases combine_root with hv | hv
  · rw [Rewrite.tree, hagree _ (hknown _ hv)]
    exact hrank _ hv
  · obtain ⟨op, hop, he⟩ := List.mem_map.1 hv
    rw [Rewrite.tree, ← he]
    exact hcap op hop

theorem exists_rank_trees {known : Node → Prop} {rank : Node → ℚ}
    (hstraight : Straight known (b.trees rewrites)) (hdest : ∀ w ∈ rewrites, known w.operation.dest)
    (hknown : ∀ w ∈ rewrites, ∀ v ∈ w.leaves, known v)
    (hrank : ∀ w ∈ rewrites, ∀ v ∈ w.leaves, rank v < rank w.operation.dest) :
    ∃ rank' : Node → ℚ, (∀ v, known v → rank' v = rank v) ∧ Ranked rank' (b.trees rewrites) ∧
      ∀ w ∈ rewrites, rank' (w.tree b).root < rank' w.operation.dest := by
  induction rewrites generalizing known rank with
  | nil => exact ⟨rank, fun _ _ => rfl, by simp [Ranked, trees], by simp⟩
  | cons w rewrites ih =>
    rw [trees_cons, Straight.append_iff] at hstraight
    obtain ⟨hfirst, hrest⟩ := hstraight
    obtain ⟨hdw, hdest⟩ := List.forall_mem_cons.1 hdest
    obtain ⟨hkw, hknown⟩ := List.forall_mem_cons.1 hknown
    obtain ⟨hrw, hrank⟩ := List.forall_mem_cons.1 hrank
    obtain ⟨rank₁, hagree, hranked, hroot⟩ := exists_rank_tree hfirst hdw hkw hrw
    have hrank₁ : ∀ w ∈ rewrites, ∀ v ∈ w.leaves, rank₁ v < rank₁ w.operation.dest := by
      intro w hw v hv
      rw [hagree v (hknown w hw v hv), hagree _ (hdest w hw)]
      exact hrank w hw v hv
    obtain ⟨rank', hagree', hranked', hroots⟩ := ih hrest (fun w hw => .inl (hdest w hw))
      (fun w hw v hv => .inl (hknown w hw v hv)) hrank₁
    refine ⟨rank', fun v hv => (hagree' v (.inl hv)).trans (hagree v hv), ?_,
      List.forall_mem_cons.2 ⟨?_, hroots⟩⟩
    · intro op hop v hv
      rcases List.mem_append.1 (trees_cons w ▸ hop) with hop | hop
      · rw [hagree' v (hfirst.known_of_mem hop hv), hagree' _ (.inr (List.mem_map_of_mem hop))]
        exact hranked op hop v hv
      · exact hranked' op hop v hv
    · rw [hagree' (w.tree b).root (combine_root.imp_left (hkw _)), hagree' _ (.inl hdw)]
      exact hroot

namespace Balancing

variable (h : Balancing b g r kept rewrites) {w : Rewrite} {op : Operation} {v : Node}

include h

theorem mem_operations : op ∈ g.operations ↔ op ∈ kept ∨ ∃ w ∈ rewrites, w.operation = op := by
  rw [h.source.mem_iff, List.mem_append, List.mem_map]

theorem mem_result : op ∈ r.operations ↔
    op ∈ kept ∨ op ∈ b.trees rewrites ∨ ∃ w ∈ rewrites, op = w.copy b := by
  rw [h.result.mem_iff, List.mem_append, trees]
  simp only [List.mem_flatMap, Rewrite.operations, List.mem_append, List.mem_singleton]
  grind

theorem rewritten (hw : w ∈ rewrites) : w.operation ∈ b.within g.operations := by
  obtain ⟨ops, hops, hs⟩ := h.sound w hw
  exact mem_within.2 ⟨hops.subset hs.mem, hs.opcode⟩

theorem rewritten_mem_nodes (hw : w ∈ rewrites) : w.operation.dest ∈ g.nodes :=
  Graph.dest_mem_nodes (mem_within.1 (h.rewritten hw)).1

theorem leaf_read (hw : w ∈ rewrites) (hv : v ∈ w.leaves) :
    ∃ p ∈ b.within g.operations, v ∈ p.sources := by
  obtain ⟨ops, hops, hs⟩ := h.sound w hw
  obtain ⟨p, hp, hread⟩ := hs.exists_read hv
  obtain ⟨hp, hc⟩ := mem_within.1 hp
  exact ⟨p, mem_within.2 ⟨hops.subset hp, hc⟩, hread⟩

theorem leaf_mem_nodes (hw : w ∈ rewrites) (hv : v ∈ w.leaves) : v ∈ g.nodes := by
  obtain ⟨p, hp, hread⟩ := h.leaf_read hw hv
  exact Graph.source_mem_nodes (mem_within.1 hp).1 hread

theorem leaf_dependsOn (hw : w ∈ rewrites) (hv : v ∈ w.leaves) :
    TransGen (DependsOn g.operations) w.operation.dest v := by
  obtain ⟨ops, hops, hs⟩ := h.sound w hw
  have hd := dependsOn_of_mem_leaves hs.mem hs.opcode hs.leaves hv
  exact TransGen.mono (fun _ _ ⟨op, hop, hdest, hu⟩ => ⟨op, hops.subset hop, hdest, hu⟩) _ _ hd

theorem tag_eq (hv : v ∈ (b.trees rewrites).map Operation.dest) : v.tag = g.lastTag + 1 := by
  rw [map_dest_trees] at hv
  exact h.fresh.tag v hv

theorem notMem_nodes (hv : v ∈ (b.trees rewrites).map Operation.dest) : v ∉ g.nodes := by
  intro hmem
  have hle := Graph.tag_le_lastTag hmem
  have htag := h.tag_eq hv
  omega

theorem mem_trees : op ∈ b.trees rewrites ↔ op ∈ r.operations ∧ op.dest ∉ g.nodes := by
  constructor
  · intro hop
    exact ⟨h.mem_result.2 (.inr (.inl hop)), h.notMem_nodes (List.mem_map_of_mem hop)⟩
  · rintro ⟨hop, hnew⟩
    rcases h.mem_result.1 hop with hop | hop | ⟨w, hw, rfl⟩
    · exact absurd (Graph.dest_mem_nodes (h.mem_operations.2 (.inl hop))) hnew
    · exact hop
    · exact absurd (h.rewritten_mem_nodes hw) hnew

theorem nodup_temporaries : ((b.trees rewrites).map Operation.dest).Nodup := by
  rw [map_dest_trees]
  exact h.fresh.nodup.of_map _

theorem straight {known : Node → Prop} (hknown : ∀ v ∈ g.nodes, known v)
    (hnew : ∀ v ∈ (b.trees rewrites).map Operation.dest, ¬known v) :
    Straight known (b.trees rewrites) :=
  trees_straight (fun _ hw v hv => hknown v (h.leaf_mem_nodes hw hv)) hnew h.nodup_temporaries

theorem straight_nodes : Straight (· ∈ g.nodes) (b.trees rewrites) :=
  h.straight (fun _ hv => hv) fun _ => h.notMem_nodes

theorem source_cases (hop : op ∈ r.operations) (hv : v ∈ op.sources) :
    (∃ p ∈ g.operations, v ∈ p.sources) ∨ v ∈ (b.trees rewrites).map Operation.dest := by
  have hleaf (w : Rewrite) (hw : w ∈ rewrites) (hv : v ∈ w.leaves) :
      ∃ p ∈ g.operations, v ∈ p.sources := by
    obtain ⟨p, hp, hread⟩ := h.leaf_read hw hv
    exact ⟨p, (mem_within.1 hp).1, hread⟩
  rcases h.mem_result.1 hop with hop | hop | ⟨w, hw, rfl⟩
  · exact .inl ⟨op, h.mem_operations.2 (.inl hop), hv⟩
  · obtain ⟨w, hw, hop⟩ := List.mem_flatMap.1 hop
    exact (combine_sources hop hv).imp (hleaf w hw) (temporary_mem hw)
  · obtain rfl := List.mem_singleton.1 hv
    exact combine_root.imp (hleaf w hw) (temporary_mem hw)

theorem result_perm :
    r.operations.Perm (kept ++ rewrites.map (Rewrite.copy b) ++ b.trees rewrites) := by
  have hsplit : (rewrites.flatMap (Rewrite.operations b)).Perm
      (rewrites.map (Rewrite.copy b) ++ b.trees rewrites) := by
    rw [List.map_eq_flatMap]
    exact (List.flatMap_append_perm rewrites _ _).symm.trans List.perm_append_comm
  rw [List.append_assoc]
  exact h.result.trans (hsplit.append_left kept)

theorem dests_perm : (r.operations.map Operation.dest).Perm
    (g.operations.map Operation.dest ++ (b.trees rewrites).map Operation.dest) := by
  have hcopy : (rewrites.map (Rewrite.copy b)).map Operation.dest =
      (rewrites.map Rewrite.operation).map Operation.dest := by
    simp [Rewrite.copy]
  have hr := h.result_perm.map Operation.dest
  rw [List.map_append, List.map_append, hcopy, ← List.map_append] at hr
  exact hr.trans ((h.source.map Operation.dest).symm.append_right _)

theorem assigned_result : SingleAssignment r.operations := by
  rw [SingleAssignment, h.dests_perm.nodup_iff, List.nodup_append]
  refine ⟨h.assigned, h.nodup_temporaries, ?_⟩
  rintro v hv _ ht rfl
  obtain ⟨op, hop, rfl⟩ := List.mem_map.1 hv
  exact h.notMem_nodes ht (Graph.dest_mem_nodes hop)

theorem produced_iff : (∃ p ∈ r.operations, p.dest = v) ↔
    (∃ p ∈ g.operations, p.dest = v) ∨ v ∈ (b.trees rewrites).map Operation.dest := by
  rw [← List.mem_map, h.dests_perm.mem_iff, List.mem_append, List.mem_map]

theorem operand_cases (hop : op ∈ r.operations) (hv : v ∈ op.operands) :
    (∃ p ∈ g.operations, v ∈ p.operands) ∨ v ∈ (b.trees rewrites).map Operation.dest := by
  rcases List.mem_cons.1 hv with rfl | hv
  · refine (h.produced_iff.1 ⟨op, hop, rfl⟩).imp_left ?_
    rintro ⟨p, hp, hd⟩
    exact ⟨p, hp, hd ▸ List.mem_cons_self⟩
  · refine (h.source_cases hop hv).imp_left ?_
    rintro ⟨p, hp, hv⟩
    exact ⟨p, hp, List.mem_cons_of_mem _ hv⟩

theorem mem_nodes_or_temporary (hv : v ∈ r.nodes) :
    v ∈ g.nodes ∨ v ∈ (b.trees rewrites).map Operation.dest := by
  rcases Graph.mem_nodes.1 hv with ⟨op, hop, hv⟩ | hv
  · exact (h.operand_cases hop hv).imp_left fun hp => Graph.mem_nodes.2 (.inl hp)
  · rw [h.declared] at hv
    exact .inl (List.mem_of_mem_filter hv)

theorem closed (hc : g.closed = .ok ()) : r.closed = .ok () := by
  obtain ⟨-, hclosed⟩ := Graph.closed_eq_ok.1 hc
  refine Graph.closed_eq_ok.2 ⟨h.assigned_result, ?_⟩
  intro op hop v hv
  rw [h.produced_iff, ← or_assoc]
  rcases h.source_cases hop hv with ⟨p, hp, hv⟩ | hv
  · exact .inl (hclosed p hp v hv)
  · exact .inr hv

theorem temporary_isGiven (hv : v ∈ (b.trees rewrites).map Operation.dest) :
    Graph.isGiven v = false := by
  rw [map_dest_trees] at hv
  simp [Graph.isGiven, Node.isConstant, Node.isMemory, h.fresh.wire v hv]

theorem isGiven_dest (hg : ∀ op ∈ g.operations, Graph.isGiven op.dest = false) :
    ∀ op ∈ r.operations, Graph.isGiven op.dest = false := by
  intro op hop
  rcases h.produced_iff.1 ⟨op, hop, rfl⟩ with ⟨p, hp, hd⟩ | ht
  · rw [← hd]
    exact hg p hp
  · exact h.temporary_isGiven ht

theorem acyclic (ha : Acyclic g.operations) : Acyclic r.operations := by
  obtain ⟨rank, hrank⟩ := ha.exists_rank
  -- Between a leaf and the rewritten node there is room for any tree among the rationals.
  have hleaf : ∀ w ∈ rewrites, ∀ v ∈ w.leaves, (rank v : ℚ) < rank w.operation.dest := by
    intro w hw v hv
    exact_mod_cast hrank.lt (h.leaf_dependsOn hw hv)
  obtain ⟨rank', hagree, htree, hroot⟩ := exists_rank_trees h.straight_nodes
    (fun w hw => h.rewritten_mem_nodes hw)
    (fun w hw v hv => h.leaf_mem_nodes hw hv) hleaf
  suffices hranked : Ranked rank' r.operations from hranked.acyclic
  intro op hop v hv
  rcases h.mem_result.1 hop with hop | hop | ⟨w, hw, rfl⟩
  · have hop := h.mem_operations.2 (.inl hop)
    rw [hagree v (Graph.source_mem_nodes hop hv), hagree _ (Graph.dest_mem_nodes hop)]
    exact_mod_cast hrank op hop v hv
  · exact htree op hop v hv
  · rw [List.mem_singleton.1 hv]
    exact hroot w hw

theorem opcode_cases (hop : op ∈ r.operations) :
    op.opcode = .mov ∨ ∃ p ∈ g.operations, p.opcode = op.opcode := by
  rcases h.mem_result.1 hop with hop | hop | ⟨w, hw, rfl⟩
  · exact .inr ⟨op, h.mem_operations.2 (.inl hop), rfl⟩
  · obtain ⟨w, hw, hop⟩ := List.mem_flatMap.1 hop
    obtain ⟨hmem, hc⟩ := mem_within.1 (h.rewritten hw)
    exact .inr ⟨w.operation, hmem, hc.trans (opcode_of_mem_combine hop).symm⟩
  · exact .inl rfl

theorem filter_perm {o : Opcode} (hb : o ≠ b.opcode) (hmov : o ≠ .mov) :
    (r.operations.filter (·.opcode = o)).Perm (g.operations.filter (·.opcode = o)) := by
  have hends : (rewrites.map Rewrite.operation).filter (·.opcode = o) = [] := by
    rw [List.filter_eq_nil_iff]
    intro op hop
    obtain ⟨w, hw, rfl⟩ := List.mem_map.1 hop
    simpa [(mem_within.1 (h.rewritten hw)).2] using hb.symm
  have htrees : (b.trees rewrites).filter (·.opcode = o) = [] := by
    rw [List.filter_eq_nil_iff]
    intro op hop
    simpa [opcode_of_mem_trees hop] using hb.symm
  have hcopies : (rewrites.map (Rewrite.copy b)).filter (·.opcode = o) = [] := by
    rw [List.filter_eq_nil_iff]
    intro op hop
    obtain ⟨w, -, rfl⟩ := List.mem_map.1 hop
    exact fun he => hmov (of_decide_eq_true he).symm
  have hr := h.result_perm.filter (·.opcode = o)
  have hg := h.source.filter (·.opcode = o)
  rw [List.filter_append, List.filter_append, hcopies, htrees, List.append_nil,
    List.append_nil] at hr
  rw [List.filter_append, hends, List.append_nil] at hg
  exact hr.trans hg.symm

theorem outputs_perm : r.outputs.Perm g.outputs :=
  h.filter_perm (by cases b <;> decide) (by decide)

theorem copy_cases (hop : op ∈ r.operations) (hc : op.opcode = .mov) :
    op ∈ g.operations ∨ ∃ w ∈ rewrites, op = w.copy b := by
  rcases h.mem_result.1 hop with hop | hop | hop
  · exact .inl (h.mem_operations.2 (.inl hop))
  · rw [opcode_of_mem_trees hop] at hc
    cases b <;> cases hc
  · exact .inr hop

theorem single (hs : ∀ op ∈ g.operations, op.opcode = .mov → ∃ u, op.sources = [u]) :
    ∀ op ∈ r.operations, op.opcode = .mov → ∃ u, op.sources = [u] := by
  intro op hop hmov
  rcases h.copy_cases hop hmov with hop | ⟨w, -, rfl⟩
  · exact hs op hop hmov
  · exact ⟨_, rfl⟩

theorem copy_unread (hw : w ∈ rewrites) {w' : Rewrite} (hw' : w' ∈ rewrites) :
    w'.operation.dest ≠ (w.tree b).root := by
  intro he
  obtain ⟨hmem, -⟩ := mem_within.1 (h.rewritten hw')
  rcases combine_root with hroot | hroot
  · obtain ⟨p, hp, hread⟩ := h.leaf_read hw hroot
    exact h.unread w' hw' p hp (he ▸ hread)
  · exact h.notMem_nodes (temporary_mem hw hroot) (he ▸ Graph.dest_mem_nodes hmem)

theorem perm_of_unused (hno : ∀ op ∈ g.operations, op.opcode ≠ b.opcode) :
    r.operations.Perm g.operations := by
  cases rewrites with
  | nil => simpa using h.result.trans (h.source.trans (by simp)).symm
  | cons w rewrites =>
    obtain ⟨hmem, hc⟩ := mem_within.1 (h.rewritten List.mem_cons_self)
    exact absurd hc (hno _ hmem)

end Balancing

end Netlist.Bitwise
