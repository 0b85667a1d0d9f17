import Netlist.Copies
import Netlist.Proofs.Assignment
import Netlist.Proofs.Meaning
import Netlist.Proofs.Order

/-!
# What elimination of copies does

The pass succeeds if every `mov` has one source. Then the node that replaces a node is the node
itself or the source of a `mov` to it, so the replacement keeps the value of every solution and
leads further down the dependencies. A closed circuit stays closed if no `mov` reads another one.
-/

namespace Netlist.Graph

open Relation

variable {g r : Graph} {v : Node} {op : Operation}

theorem mem_copies : op ∈ g.copies ↔ op ∈ g.operations ∧ op.opcode = .mov := by
  simp [copies]

/-- The operations with copies replaced by their sources. -/
structure Eliding (g r : Graph) : Prop where
  single : ∀ op ∈ g.operations, op.opcode = .mov → ∃ u, op.sources = [u]
  result : r.operations = (g.operations.filter (·.opcode ≠ .mov)).map fun op =>
    { op with sources := op.sources.map (copied g.copies) }
  declared : r.declared = g.memories

theorem single_iff : g.copies.find? (·.sources.length ≠ 1) = none ↔
    ∀ op ∈ g.operations, op.opcode = .mov → ∃ u, op.sources = [u] := by
  simp [List.find?_eq_none, mem_copies, List.length_eq_one_iff]

theorem eliding_of_eliminateCopies (h : g.eliminateCopies = .ok r) : g.Eliding r := by
  rw [eliminateCopies] at h
  split at h
  · cases h
  · next hnone =>
    cases h
    exact ⟨single_iff.1 hnone, rfl, rfl⟩

theorem exists_eliminateCopies
    (h : ∀ op ∈ g.operations, op.opcode = .mov → ∃ u, op.sources = [u]) :
    ∃ r, g.eliminateCopies = .ok r := by
  rw [eliminateCopies, single_iff.2 h]
  exact ⟨_, rfl⟩

namespace Eliding

variable (h : g.Eliding r)

include h

theorem copied_cases (v : Node) :
    (∃ op ∈ g.operations, op.opcode = .mov ∧ op.dest = v ∧ op.sources = [copied g.copies v]) ∨
      (copied g.copies v = v ∧ ∀ op ∈ g.operations, op.opcode = .mov → op.dest ≠ v) := by
  rw [copied, List.findRev?_eq_find?_reverse]
  cases hf : g.copies.reverse.find? (·.dest = v) with
  | none =>
    refine .inr ⟨rfl, fun op hop hc hd => ?_⟩
    have hmem : op ∈ g.copies.reverse := List.mem_reverse.2 (mem_copies.2 ⟨hop, hc⟩)
    simpa [hd] using List.find?_eq_none.1 hf op hmem
  | some op =>
    obtain ⟨hop, hc⟩ := mem_copies.1 (List.mem_reverse.1 (List.mem_of_find?_eq_some hf))
    obtain ⟨u, hu⟩ := h.single op hop hc
    have hd : op.dest = v := by simpa using List.find?_some hf
    exact .inl ⟨op, hop, hc, hd, by simp [hu]⟩

theorem mem_result : op ∈ r.operations ↔ ∃ p ∈ g.operations, p.opcode ≠ .mov ∧
    op = { p with sources := p.sources.map (copied g.copies) } := by
  rw [h.result]
  simp only [List.mem_map, List.mem_filter, ne_eq, decide_eq_true_eq]
  grind

theorem map_dest_outputs {β : Type*} (f : Node → β) :
    r.outputs.map (fun op => f op.dest) = g.outputs.map (fun op => f op.dest) := by
  have hout : ∀ op ∈ g.operations, (decide (op.opcode = .output) && decide (op.opcode ≠ .mov)) =
      decide (op.opcode = .output) := by
    intro op _
    by_cases hc : op.opcode = .output <;> simp [hc]
  rw [outputs, outputs, h.result, List.filter_map, List.map_map, List.filter_filter]
  exact congrArg (List.map fun op => f op.dest) (List.filter_congr hout)

theorem source_cases (hop : op ∈ r.operations) (hv : v ∈ op.sources) :
    ∃ p ∈ g.operations, v ∈ p.sources := by
  obtain ⟨p, hp, -, rfl⟩ := h.mem_result.1 hop
  obtain ⟨x, hx, rfl⟩ := List.mem_map.1 hv
  rcases h.copied_cases x with ⟨m, hm, -, -, hms⟩ | ⟨hself, -⟩
  · exact ⟨m, hm, by simp [hms]⟩
  · rw [hself]
    exact ⟨p, hp, hx⟩

theorem nodes_subset : r.nodes ⊆ g.nodes := by
  intro v hv
  rcases mem_nodes.1 hv with ⟨op, hop, hv⟩ | hv
  · rcases List.mem_cons.1 hv with rfl | hv
    · obtain ⟨p, hp, -, rfl⟩ := h.mem_result.1 hop
      have hd : p.dest ∈ g.nodes := dest_mem_nodes hp
      exact hd
    · obtain ⟨p, hp, hv⟩ := h.source_cases hop hv
      exact source_mem_nodes hp hv
  · rw [h.declared] at hv
    exact List.mem_of_mem_filter hv

theorem assigned (hs : SingleAssignment g.operations) : SingleAssignment r.operations := by
  rw [SingleAssignment, h.result, List.map_map]
  exact hs.sublist List.filter_sublist

theorem dependsOn {u : Node} (hd : DependsOn r.operations v u) :
    TransGen (DependsOn g.operations) v u := by
  obtain ⟨op, hop, rfl, hu⟩ := hd
  obtain ⟨p, hp, -, rfl⟩ := h.mem_result.1 hop
  obtain ⟨x, hx, rfl⟩ := List.mem_map.1 hu
  have hread : TransGen (DependsOn g.operations) p.dest x := .single ⟨p, hp, rfl, hx⟩
  rcases h.copied_cases x with ⟨m, hm, -, hmd, hms⟩ | ⟨hself, -⟩
  · exact hread.tail ⟨m, hm, hmd, by simp [hms]⟩
  · rwa [hself]

theorem acyclic (ha : Acyclic g.operations) : Acyclic r.operations :=
  ha.of_dependsOn fun _ _ => h.dependsOn

theorem closed (hc : g.closed = .ok ())
    (hchain : ∀ p ∈ g.operations, p.opcode = .mov → ∀ q ∈ g.operations, q.opcode = .mov →
      q.dest ∉ p.sources) : r.closed = .ok () := by
  obtain ⟨hs, hclosed⟩ := closed_eq_ok.1 hc
  refine closed_eq_ok.2 ⟨h.assigned hs, ?_⟩
  intro op hop u hu
  obtain ⟨p, hp, -, rfl⟩ := h.mem_result.1 hop
  obtain ⟨x, hx, rfl⟩ := List.mem_map.1 hu
  have hsource : (isGiven (copied g.copies x) = true ∨
      ∃ q ∈ g.operations, q.dest = copied g.copies x) ∧
      ∀ q ∈ g.operations, q.opcode = .mov → q.dest ≠ copied g.copies x := by
    rcases h.copied_cases x with ⟨m, hm, hmc, -, hms⟩ | ⟨hself, hno⟩
    · have hmem : copied g.copies x ∈ m.sources := by simp [hms]
      exact ⟨hclosed m hm _ hmem, fun q hq hqc hqd => hchain m hm hmc q hq hqc (hqd ▸ hmem)⟩
    · rw [hself]
      exact ⟨hclosed p hp x hx, hno⟩
  obtain ⟨hg | ⟨q, hq, hd⟩, hno⟩ := hsource
  · exact .inl hg
  · exact .inr ⟨_, h.mem_result.2 ⟨q, hq, fun hqc => hno q hq hqc hd, rfl⟩, hd⟩

theorem satisfies {α : Type*} [BooleanAlgebra α] {I : Interpretation α} {ρ : Node → α}
    (hg : g.Satisfies I.meaning ρ) : r.Satisfies I.meaning ρ := by
  have hvalue (v : Node) : ρ (copied g.copies v) = ρ v := by
    rcases h.copied_cases v with ⟨m, hm, hmc, rfl, hms⟩ | ⟨hself, -⟩
    · have hholds := hg m hm
      rw [Operation.Holds, hms] at hholds
      exact ((I.meaning_copy hmc).1 hholds).symm
    · rw [hself]
  intro op hop
  obtain ⟨p, hp, -, rfl⟩ := h.mem_result.1 hop
  have hs : (p.sources.map (copied g.copies)).map ρ = p.sources.map ρ := by
    rw [List.map_map]
    exact List.map_congr_left fun v _ => hvalue v
  rw [Operation.Holds, hs, I.meaning_sources]
  exact hg p hp

end Eliding

end Netlist.Graph
