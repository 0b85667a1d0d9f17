import Mathlib.Data.List.Perm.Lattice
import Netlist.Liveness
import Netlist.Proofs.Assignment
import Netlist.Proofs.Outcome
import Netlist.Proofs.Search

/-!
# What dead code elimination keeps

The live nodes hold every output with its sources, and with a produced node the sources of its
producer. The pass succeeds on every closed circuit. Where it succeeds, `Pruning` says what is left:
the producers of the live nodes that are not given. The result is closed, and an output is lost only
if its destination is a constant or a memory.
-/

namespace Netlist.Graph

open Relation

variable {g d : Graph} {u v : Node} {op : Operation}

theorem mem_dependencies (hs : SingleAssignment g.operations) : u ∈ g.dependencies v ↔
    isGiven v = false ∧ ∃ op ∈ g.operations, op.dest = v ∧ u ∈ op.sources := by
  rw [dependencies, ← isGiven]
  cases isGiven v with
  | true => simp
  | false =>
    cases hp : g.producer? v with
    | none => simpa using fun op hop hd _ => producer?_eq_none.1 hp op hop hd
    | some p =>
      obtain ⟨hp, hd⟩ := (producer?_eq_some hs).1 hp
      simp only [Bool.false_eq_true, if_false, Option.map_some, Option.getD_some, true_and]
      constructor
      · exact fun hu => ⟨p, hp, hd, hu⟩
      · rintro ⟨op, hop, hd', hu⟩
        rwa [hs.eq_of_dest_eq hp hop (hd.trans hd'.symm)]

theorem mem_liveNodes_of_mem_outputs (hop : op ∈ g.outputs) (hv : v ∈ op.operands) :
    v ∈ g.liveNodes :=
  mem_exploreAll_of_mem_start (List.mem_map_of_mem hop) hv
    (mem_nodes.2 (.inl ⟨op, (mem_outputs.1 hop).1, hv⟩))

theorem mem_liveNodes_of_mem_sources (hs : SingleAssignment g.operations) (hop : op ∈ g.operations)
    (hg : isGiven op.dest = false) (hlive : op.dest ∈ g.liveNodes) (hv : v ∈ op.sources) :
    v ∈ g.liveNodes :=
  exploreAll_closed hlive ((mem_dependencies hs).2 ⟨hg, op, hop, rfl, hv⟩) (source_mem_nodes hop hv)

theorem read_of_mem_liveNodes (hs : SingleAssignment g.operations) (hv : v ∈ g.liveNodes) :
    (∃ op ∈ g.outputs, op.dest = v) ∨ ∃ op ∈ g.operations, v ∈ op.sources := by
  obtain ⟨start, hstart, s, hs', hpath⟩ := exists_start_of_mem_exploreAll hv
  obtain ⟨op, hop, rfl⟩ := List.mem_map.1 hstart
  rcases ReflTransGen.cases_tail hpath with rfl | ⟨c, -, hc⟩
  · rcases List.mem_cons.1 hs' with rfl | hs'
    · exact .inl ⟨op, hop, rfl⟩
    · exact .inr ⟨op, (mem_outputs.1 hop).1, hs'⟩
  · obtain ⟨-, p, hp, -, hv⟩ := (mem_dependencies hs).1 hc
    exact .inr ⟨p, hp, hv⟩

theorem liveProducer_eq_ok (hs : SingleAssignment g.operations) :
    g.liveProducer v = .ok op ↔ op ∈ g.operations ∧ op.dest = v := by
  rw [← producer?_eq_some hs, liveProducer]
  cases g.producer? v <;> simp

theorem mapM_liveProducer_eq_ok (hs : SingleAssignment g.operations) {vs : List Node}
    {ops : List Operation} : vs.mapM g.liveProducer = .ok ops ↔
      ops ⊆ g.operations ∧ ops.map Operation.dest = vs := by
  rw [mapM_eq_ok]
  constructor
  · intro h
    induction h with
    | nil => exact ⟨List.nil_subset _, rfl⟩
    | cons hop _ ih =>
      obtain ⟨hmem, hd⟩ := (liveProducer_eq_ok hs).1 hop
      exact ⟨List.cons_subset.2 ⟨hmem, ih.1⟩, by rw [List.map_cons, hd, ih.2]⟩
  · rintro ⟨hsub, rfl⟩
    rw [List.forall₂_map_left_iff, List.forall₂_same]
    intro op hop
    exact (liveProducer_eq_ok hs).2 ⟨hsub hop, rfl⟩

/-- The pass lists the producers of the live nodes that are not given, and declares the memories
among the live nodes. -/
theorem eliminateDeadCode_eq_ok : g.eliminateDeadCode = .ok d ↔
    SingleAssignment g.operations ∧ d.operations ⊆ g.operations ∧
      d.operations.map Operation.dest = g.liveNodes.filter (!isGiven ·) ∧
      d.declared = g.liveNodes.filter Node.isMemory ∧ d.generation = g.lastTag := by
  have hgiven : (fun v : Node => !isGiven v) = fun v => !v.isConstant && !v.isMemory := by
    funext v
    rw [isGiven, Bool.not_or]
  rw [hgiven, eliminateDeadCode, bind_eq_ok]
  simp only [bind_eq_ok]
  constructor
  · rintro ⟨_, hs, ops, hops, h⟩
    cases h
    have hs := singleAssignment_eq_ok.1 hs
    obtain ⟨hsub, hdest⟩ := (mapM_liveProducer_eq_ok hs).1 hops
    exact ⟨hs, hsub, hdest, rfl, rfl⟩
  · rintro ⟨hs, hsub, hdest, hdeclared, hgeneration⟩
    refine ⟨(), singleAssignment_eq_ok.2 hs, d.operations,
      (mapM_liveProducer_eq_ok hs).2 ⟨hsub, hdest⟩, ?_⟩
    rw [← hdeclared, ← hgeneration]
    rfl

/-- What is left of a circuit without its dead code. -/
structure Pruning (g d : Graph) : Prop where
  assigned : SingleAssignment g.operations
  assigned_result : SingleAssignment d.operations
  mem_result : ∀ {op}, op ∈ d.operations ↔
    op ∈ g.operations ∧ isGiven op.dest = false ∧ op.dest ∈ g.liveNodes
  produced : ∀ v ∈ g.liveNodes, isGiven v = true ∨ ∃ op ∈ g.operations, op.dest = v
  declared : d.declared ⊆ g.nodes

theorem pruning_of_eliminateDeadCode (h : g.eliminateDeadCode = .ok d) : g.Pruning d := by
  obtain ⟨hs, hsub, hdest, hdeclared, -⟩ := eliminateDeadCode_eq_ok.1 h
  have hmem (v : Node) :
      (∃ op ∈ d.operations, op.dest = v) ↔ v ∈ g.liveNodes ∧ isGiven v = false := by
    rw [← List.mem_map, hdest, List.mem_filter, Bool.not_eq_true']
  refine ⟨hs, ?_, ?_, ?_, ?_⟩
  · rw [SingleAssignment, hdest]
    exact (nodup_exploreAll g.nodup_nodes).filter _
  · intro op
    constructor
    · intro hop
      obtain ⟨hlive, hg⟩ := (hmem op.dest).1 ⟨op, hop, rfl⟩
      exact ⟨hsub hop, hg, hlive⟩
    · rintro ⟨hop, hg, hlive⟩
      obtain ⟨p, hp, hd⟩ := (hmem op.dest).2 ⟨hlive, hg⟩
      rwa [hs.eq_of_dest_eq hop (hsub hp) hd.symm]
  · intro v hv
    by_cases hg : isGiven v = true
    · exact .inl hg
    · obtain ⟨op, hop, hd⟩ := (hmem v).2 ⟨hv, by simpa using hg⟩
      exact .inr ⟨op, hsub hop, hd⟩
  · rw [hdeclared]
    exact fun v hv => mem_of_mem_exploreAll (List.mem_of_mem_filter hv)

namespace Pruning

variable (h : g.Pruning d)

include h

theorem subset : d.operations ⊆ g.operations := fun _ hop => (h.mem_result.1 hop).1

theorem closed : d.closed = .ok () := by
  refine closed_eq_ok.2 ⟨h.assigned_result, ?_⟩
  intro op hop v hv
  obtain ⟨hop, hg, hlive⟩ := h.mem_result.1 hop
  have hv := mem_liveNodes_of_mem_sources h.assigned hop hg hlive hv
  by_cases hgv : isGiven v = true
  · exact .inl hgv
  · obtain ⟨p, hp, rfl⟩ := (h.produced v hv).resolve_left hgv
    exact .inr ⟨p, h.mem_result.2 ⟨hp, by simpa using hgv, hv⟩, rfl⟩

theorem mem_outputs_iff : op ∈ d.outputs ↔ op ∈ g.outputs ∧ isGiven op.dest = false := by
  rw [mem_outputs, mem_outputs, h.mem_result]
  constructor
  · rintro ⟨⟨hop, hg, -⟩, hc⟩
    exact ⟨⟨hop, hc⟩, hg⟩
  · rintro ⟨⟨hop, hc⟩, hg⟩
    have hlive := mem_liveNodes_of_mem_outputs (mem_outputs.2 ⟨hop, hc⟩) List.mem_cons_self
    exact ⟨⟨hop, hg, hlive⟩, hc⟩

theorem outputs_perm (hg : ∀ op ∈ g.outputs, isGiven op.dest = false) :
    d.outputs.Perm g.outputs := by
  have hd : d.outputs.Nodup := h.assigned_result.nodup.filter _
  have hgo : g.outputs.Nodup := h.assigned.nodup.filter _
  rw [List.perm_ext_iff_of_nodup hd hgo]
  exact fun op => h.mem_outputs_iff.trans (and_iff_left_of_imp (hg op))

theorem nodes_subset : d.nodes ⊆ g.nodes := by
  intro v hv
  rcases mem_nodes.1 hv with ⟨op, hop, hv⟩ | hv
  · exact mem_nodes.2 (.inl ⟨op, h.subset hop, hv⟩)
  · exact h.declared hv

/-- What holds of the outputs, and with an operation of all that it reads, holds of all operations
that are left. -/
theorem dest_induction (hg : ∀ op ∈ g.outputs, isGiven op.dest = false) {P : Node → Prop}
    (output : ∀ op ∈ d.outputs, P op.dest)
    (step : ∀ op ∈ d.operations, P op.dest → ∀ v ∈ op.sources, P v) :
    ∀ op ∈ d.operations, P op.dest := by
  have hpath {s v : Node} (hs : s ∈ g.liveNodes ∧ P s)
      (hp : ReflTransGen (fun a c => c ∈ g.dependencies a) s v) : v ∈ g.liveNodes ∧ P v := by
    induction hp with
    | refl => exact hs
    | tail _ hnext ih =>
      obtain ⟨hlive, hP⟩ := ih
      obtain ⟨hgiven, p, hp, rfl, hv⟩ := (mem_dependencies h.assigned).1 hnext
      have hmem := h.mem_result.2 ⟨hp, hgiven, hlive⟩
      exact ⟨mem_liveNodes_of_mem_sources h.assigned hp hgiven hlive hv, step p hmem hP _ hv⟩
  intro op hop
  obtain ⟨start, hstart, s, hs, hp⟩ := exists_start_of_mem_exploreAll (h.mem_result.1 hop).2.2
  obtain ⟨out, hout, rfl⟩ := List.mem_map.1 hstart
  have hmem := h.mem_outputs_iff.2 ⟨hout, hg out hout⟩
  have hP : P s := by
    rcases List.mem_cons.1 hs with rfl | hs
    · exact output out hmem
    · exact step out (mem_outputs.1 hmem).1 (output out hmem) s hs
  exact (hpath ⟨mem_liveNodes_of_mem_outputs hout hs, hP⟩ hp).2

end Pruning

theorem exists_eliminateDeadCode_iff : (∃ d, g.eliminateDeadCode = .ok d) ↔
    SingleAssignment g.operations ∧
      ∀ v ∈ g.liveNodes, isGiven v = true ∨ ∃ op ∈ g.operations, op.dest = v := by
  constructor
  · rintro ⟨d, h⟩
    have hp := pruning_of_eliminateDeadCode h
    exact ⟨hp.assigned, hp.produced⟩
  · rintro ⟨hs, hproduced⟩
    have hlive : ∀ v ∈ g.liveNodes.filter (!isGiven ·), ∃ op, g.liveProducer v = .ok op := by
      intro v hv
      obtain ⟨hv, hg⟩ := List.mem_filter.1 hv
      obtain ⟨op, hop, hd⟩ := (hproduced v hv).resolve_left (by simpa using hg)
      exact ⟨op, (liveProducer_eq_ok hs).2 ⟨hop, hd⟩⟩
    obtain ⟨ops, hops⟩ := exists_mapM_eq_ok hlive
    obtain ⟨hsub, hdest⟩ := (mapM_liveProducer_eq_ok hs).1 hops
    exact ⟨⟨ops, _, _⟩, eliminateDeadCode_eq_ok.2 ⟨hs, hsub, hdest, rfl, rfl⟩⟩

theorem exists_eliminateDeadCode (h : g.closed = .ok ()) : ∃ d, g.eliminateDeadCode = .ok d := by
  obtain ⟨hs, hclosed⟩ := closed_eq_ok.1 h
  refine exists_eliminateDeadCode_iff.2 ⟨hs, fun v hv => ?_⟩
  rcases read_of_mem_liveNodes hs hv with ⟨op, hop, hd⟩ | ⟨op, hop, hv⟩
  · exact .inr ⟨op, (mem_outputs.1 hop).1, hd⟩
  · exact hclosed op hop v hv

end Netlist.Graph
