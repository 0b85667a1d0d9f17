import Mathlib
import Netlist.Proofs.Chains
import Netlist.Proofs.RoundTrip

/-!
# Live operations

An operation is `Live` if an output depends on it: the outputs are live and, with an operation, the
producers of its sources. Dead code elimination keeps the live operations and no others, provided
that operations define wires only.

Elimination of copies runs after it, and a reader of a copy reads the source of the copy from then
on. So what was live behind a copy stays live, unless that is again a copy, which is dropped. In a
closed result no copy was read by a copy, so every operation of it is live.
-/

namespace Netlist.Graph

variable {g d r : Graph} {op p : Operation} {v : Node} {t : Text}

inductive Live (g : Graph) : Operation → Prop
  | output {op : Operation} (hop : op ∈ g.outputs) : Live g op
  | producer {op p : Operation} (hop : Live g op) (hp : p ∈ g.operations)
      (hd : p.dest ∈ op.sources) : Live g p

theorem Live.mem (h : g.Live op) : op ∈ g.operations := by
  cases h with
  | output hop => exact (mem_outputs.1 hop).1
  | producer _ hp _ => exact hp

theorem Live.operands_subset (hs : SingleAssignment g.operations)
    (hg : ∀ op ∈ g.operations, isGiven op.dest = false) (h : g.Live op) :
    op.operands ⊆ g.liveNodes := by
  induction h with
  | output hop => exact fun v hv => mem_liveNodes_of_mem_outputs hop hv
  | @producer op p _ hp hd ih =>
    have hlive : p.dest ∈ g.liveNodes := ih (List.mem_cons_of_mem _ hd)
    refine List.cons_subset.2 ⟨hlive, fun v hv => ?_⟩
    exact mem_liveNodes_of_mem_sources hs hp (hg p hp) hlive hv

theorem mem_liveNodes_iff (hs : SingleAssignment g.operations)
    (hg : ∀ op ∈ g.operations, isGiven op.dest = false) :
    v ∈ g.liveNodes ↔ ∃ op, g.Live op ∧ v ∈ op.operands := by
  constructor
  · intro hv
    obtain ⟨start, hstart, s, hmem, hpath⟩ := exists_start_of_mem_exploreAll hv
    obtain ⟨out, hout, rfl⟩ := List.mem_map.1 hstart
    clear hv
    induction hpath with
    | refl => exact ⟨out, .output hout, hmem⟩
    | tail _ hnext ih =>
      obtain ⟨op, hlive, hb⟩ := ih
      obtain ⟨-, p, hp, rfl, hc⟩ := (mem_dependencies hs).1 hnext
      have hpLive : g.Live p := by
        rcases List.mem_cons.1 hb with hd | hd
        · rwa [hs.eq_of_dest_eq hp hlive.mem hd]
        · exact .producer hlive hp hd
      exact ⟨p, hpLive, List.mem_cons_of_mem _ hc⟩
  · rintro ⟨op, hlive, hv⟩
    exact hlive.operands_subset hs hg hv

theorem Pruning.mem_iff_live (h : g.Pruning d) (hg : ∀ op ∈ g.operations, isGiven op.dest = false) :
    op ∈ d.operations ↔ g.Live op := by
  rw [h.mem_result, mem_liveNodes_iff h.assigned hg]
  constructor
  · rintro ⟨hop, -, p, hlive, hd⟩
    rcases List.mem_cons.1 hd with hd | hd
    · rwa [h.assigned.eq_of_dest_eq hop hlive.mem hd]
    · exact .producer hlive hop hd
  · intro hlive
    exact ⟨hlive.mem, hg op hlive.mem, op, hlive, List.mem_cons_self⟩

/-- All operations of a closed circuit are live exactly if dead code elimination keeps them all. -/
theorem all_live_iff (hc : g.closed = .ok ()) (hg : ∀ op ∈ g.operations, isGiven op.dest = false) :
    (∀ op ∈ g.operations, g.Live op) ↔
      ∃ d, g.eliminateDeadCode = .ok d ∧ d.operations.Perm g.operations := by
  constructor
  · intro hlive
    obtain ⟨d, hd⟩ := exists_eliminateDeadCode hc
    have hp := pruning_of_eliminateDeadCode hd
    refine ⟨d, hd, (List.perm_ext_iff_of_nodup hp.assigned_result.nodup hp.assigned.nodup).2 ?_⟩
    intro op
    rw [hp.mem_iff_live hg]
    exact ⟨Live.mem, hlive op⟩
  · rintro ⟨d, hd, hperm⟩ op hop
    exact ((pruning_of_eliminateDeadCode hd).mem_iff_live hg).1 (hperm.mem_iff.2 hop)

namespace Eliding

variable (h : d.Eliding r) (hs : SingleAssignment d.operations)

include h

theorem copied_of_not_copy {v : Node} (hno : ∀ q ∈ d.operations, q.opcode = .mov → q.dest ≠ v) :
    copied d.copies v = v := by
  rcases h.copied_cases v with ⟨m, hm, hc, hd, -⟩ | ⟨hself, -⟩
  · exact absurd hd (hno m hm hc)
  · exact hself

include hs

theorem copied_dest (hop : op ∈ d.operations) (hc : op.opcode ≠ .mov) :
    copied d.copies op.dest = op.dest := by
  refine h.copied_of_not_copy fun q hq hqc hd => hc ?_
  rw [← hs.eq_of_dest_eq hq hop hd, hqc]

end Eliding

/-- Without copies of copies, all that is left of a circuit without dead code is live. -/
theorem live_of_eliding (hd : g.Pruning d) (hr : d.Eliding r)
    (hg : ∀ op ∈ g.operations, isGiven op.dest = false) (hno : ¬d.CopiesCopy) :
    ∀ op ∈ r.operations, r.Live op := by
  have hs := hd.assigned_result
  have helided (p : Operation) (hp : p ∈ d.operations) (hc : p.opcode ≠ .mov) :
      { p with sources := p.sources.map (copied d.copies) } ∈ r.operations :=
    hr.mem_result.2 ⟨p, hp, hc, rfl⟩
  intro op hop
  obtain ⟨p, hp, hc, rfl⟩ := hr.mem_result.1 hop
  -- The invariant says of a node that what its readers read in its place is produced by a live
  -- operation, if by any.
  refine hd.dest_induction (fun op hop => hg op (mem_outputs.1 hop).1)
    (P := fun v => ∀ q ∈ d.operations, q.opcode ≠ .mov → q.dest = copied d.copies v →
      r.Live { q with sources := q.sources.map (copied d.copies) })
    ?_ ?_ p hp p hp hc (hr.copied_dest hs hp hc).symm
  · intro op hop q hq hqc hqd
    obtain ⟨hop, hout⟩ := mem_outputs.1 hop
    rw [hr.copied_dest hs hop (by simp [hout])] at hqd
    obtain rfl := hs.eq_of_dest_eq hq hop hqd
    exact .output (mem_outputs.2 ⟨helided q hq hqc, hout⟩)
  · intro op hop ih v hv q hq hqc hqd
    by_cases hc : op.opcode = .mov
    · have hcopied : copied d.copies op.dest = v := hr.copied_eq hs hop hc hv
      have hself : copied d.copies v = v := hr.copied_of_not_copy
        fun m hm hmc hmd => hno ⟨op, hop, hc, m, hm, hmc, hmd ▸ hv⟩
      exact ih q hq hqc (by rw [hqd, hself, hcopied])
    · have hlive := ih op hop hc (hr.copied_dest hs hop hc).symm
      exact .producer hlive (helided q hq hqc) (List.mem_map.2 ⟨v, hv, hqd.symm⟩)

/-- Every operation of a closed optimized circuit is live, so that dead code elimination keeps it
all. -/
theorem closed_result_has_no_dead_code (hparse : parse t = .ok g) (h : g.optimize = .ok r)
    (hclosed : r.closed = .ok ()) :
    (∀ op ∈ r.operations, r.Live op) ∧
      ∃ d, r.eliminateDeadCode = .ok d ∧ d.operations.Perm r.operations := by
  obtain ⟨g', d, hbalanced, hd, hr⟩ := optimize_eq_ok.1 h
  have hg' := isGiven_dest_of_balanced hbalanced (parsed_of_parse hparse).produced
  have hp := pruning_of_eliminateDeadCode hd
  have he := eliding_of_eliminateCopies hr
  have hlive := live_of_eliding hp he hg' ((closed_iff_not_copiesCopy hp he hg').1 hclosed)
  have hgiven : ∀ op ∈ r.operations, isGiven op.dest = false := by
    intro op hop
    obtain ⟨p, hp', -, rfl⟩ := he.mem_result.1 hop
    exact hg' p (hp.subset hp')
  exact ⟨hlive, (all_live_iff hclosed hgiven).1 hlive⟩

theorem crowdedOptimized_has_no_dead_code :
    parse crowdedText = .ok crowded ∧ crowded.optimize = .ok crowdedOptimized ∧
      crowdedOptimized.closed = .ok () ∧
      (∀ op ∈ crowdedOptimized.operations, crowdedOptimized.Live op) ∧
      ∃ d, crowdedOptimized.eliminateDeadCode = .ok d ∧
        d.operations.Perm crowdedOptimized.operations := by
  have h : crowded.optimize = .ok crowdedOptimized := by cbv
  have hclosed : crowdedOptimized.closed = .ok () := by decide
  exact ⟨parse_crowdedText, h, hclosed, closed_result_has_no_dead_code parse_crowdedText h hclosed⟩

end Netlist.Graph
