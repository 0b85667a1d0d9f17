import Mathlib
import Netlist.Audit
import Netlist.Proofs.Optimize
import Netlist.Proofs.Parse

/-!
# The optimizer does not fail

A circuit is `Sized` if it can be written. A temporary is as wide as a leaf, so the passes keep this
property. A circuit that was read is closed if it is sized, since only a name without a definition
has no width. Balancing a connective leaves the operations of the others alone, so a loop of one
connective cannot appear before its turn. Together the passes succeed on every text that is read
into a sized circuit without such loops in which every `mov` has one source, and what they make
passes the audit and can be written.
-/

namespace Netlist

variable {g r : Graph} {b c : Bitwise} {pending : List Bitwise} {v : Node}

namespace Graph

/-- Every operand has a width and every memory a width and a depth. -/
structure Sized (g : Graph) : Prop where
  operands : ∀ op ∈ g.operations, ∀ v ∈ op.operands, v.width.isKnown = true
  memories : ∀ v ∈ g.nodes, v.isMemory = true → v.width.isKnown = true ∧ v.depth.isKnown = true

theorem writable_eq_ok : g.writable = .ok () ↔ g.Sized := by
  have hm : g.unsizedMemory? = none ↔ ∀ v ∈ g.nodes, v.isMemory = true →
      v.width.isKnown = true ∧ v.depth.isKnown = true := by
    simp [unsizedMemory?, memories, List.find?_eq_none]
  have ho : g.unknownWidth? = none ↔
      ∀ op ∈ g.operations, ∀ v ∈ op.operands, v.width.isKnown = true := by
    simp [unknownWidth?, List.findSome?_eq_none_iff, List.find?_eq_none]
  have hsized : g.Sized ↔ g.unsizedMemory? = none ∧ g.unknownWidth? = none := by
    rw [hm, ho]
    exact ⟨fun h => ⟨h.memories, h.operands⟩, fun h => ⟨h.2, h.1⟩⟩
  rw [hsized, writable]
  cases g.unsizedMemory? with
  | some v => simp
  | none => cases g.unknownWidth? <;> simp

theorem Parsed.closed (h : g.Parsed) (hs : g.Sized) : g.closed = .ok () := by
  refine closed_eq_ok.2 ⟨h.assigned, ?_⟩
  intro op hop v hv
  rcases h.defined op hop v hv with hg | hp | hw
  · exact .inl hg
  · exact .inr hp
  · have hknown := hs.operands op hop v (List.mem_cons_of_mem _ hv)
    rw [hw] at hknown
    cases hknown

theorem Pruning.sized (h : g.Pruning r) (hs : g.Sized) : r.Sized where
  operands op hop := hs.operands op (h.subset hop)
  memories v hv := hs.memories v (h.nodes_subset hv)

theorem Eliding.sized (h : g.Eliding r) (hs : g.Sized) : r.Sized where
  operands op hop v hv := by
    rcases List.mem_cons.1 hv with rfl | hv
    · obtain ⟨p, hp, -, rfl⟩ := h.mem_result.1 hop
      exact hs.operands p hp p.dest List.mem_cons_self
    · obtain ⟨p, hp, hv⟩ := h.source_cases hop hv
      exact hs.operands p hp v (List.mem_cons_of_mem _ hv)
  memories v hv := hs.memories v (h.nodes_subset hv)

end Graph

namespace Bitwise

theorem opcode_injective : Function.Injective opcode := by
  intro b c
  cases b <;> cases c <;> simp [opcode]

namespace Balancing

variable {kept : List Operation} {rewrites : List Rewrite} (h : Balancing b g r kept rewrites)

include h

theorem temporary_width (hv : v ∈ (b.trees rewrites).map Operation.dest) :
    ∃ p ∈ g.operations, ∃ u ∈ p.sources, v.width = u.width := by
  obtain ⟨op, hop, rfl⟩ := List.mem_map.1 hv
  obtain ⟨w, hw, hop⟩ := List.mem_flatMap.1 hop
  obtain ⟨u, hu, hwidth⟩ := combine_width hop
  obtain ⟨p, hp, hread⟩ := h.leaf_read hw hu
  exact ⟨p, (mem_within.1 hp).1, u, hread, hwidth⟩

theorem sized (hs : g.Sized) : r.Sized where
  operands op hop v hv := by
    rcases h.operand_cases hop hv with ⟨p, hp, hv⟩ | ht
    · exact hs.operands p hp v hv
    · obtain ⟨p, hp, u, hu, hwidth⟩ := h.temporary_width ht
      rw [hwidth]
      exact hs.operands p hp u (List.mem_cons_of_mem _ hu)
  memories v hv hm := by
    rcases h.mem_nodes_or_temporary hv with hv | ht
    · exact hs.memories v hv hm
    · have hg := h.temporary_isGiven ht
      simp [Graph.isGiven, hm] at hg

theorem acyclic_within (hcb : c ≠ b) (ha : Acyclic (c.within g.operations)) :
    Acyclic (c.within r.operations) := by
  have hmov : c.opcode ≠ .mov := by cases c <;> decide
  exact ha.of_subset (h.filter_perm (opcode_injective.ne hcb) hmov).subset

end Balancing

end Bitwise

namespace Graph

/-- What the passes need of a circuit while some connectives are still to be balanced. -/
structure Ready (pending : List Bitwise) (g : Graph) : Prop where
  nodup : pending.Nodup
  closed : g.closed = .ok ()
  produced : ∀ op ∈ g.operations, isGiven op.dest = false
  single : ∀ op ∈ g.operations, op.opcode = .mov → ∃ u, op.sources = [u]
  sized : g.Sized
  loopFree : ∀ c ∈ pending, Acyclic (c.within g.operations)

theorem Ready.step (h : Ready (c :: pending) g) :
    ∃ g', c.balance g = .ok g' ∧ Ready pending g' := by
  obtain ⟨hc, hnodup⟩ := List.nodup_cons.1 h.nodup
  obtain ⟨hloop, hloops⟩ := List.forall_mem_cons.1 h.loopFree
  obtain ⟨g', hg'⟩ := c.exists_balance (closed_eq_ok.1 h.closed).1 hloop
  obtain ⟨kept, rewrites, hb⟩ := Bitwise.exists_balancing hg'
  refine ⟨g', hg', hnodup, hb.closed h.closed, hb.isGiven_dest h.produced, hb.single h.single,
    hb.sized h.sized, ?_⟩
  intro c' hc'
  exact hb.acyclic_within (fun he => hc (he ▸ hc')) (hloops c' hc')

theorem audit_eq_ok : g.audit r = .ok () ↔
    Text.join "," g.outputNames = Text.join "," r.outputNames ∧
      (∀ op ∈ r.operations, op.opcode ≠ .mov) ∧ SingleAssignment r.operations ∧
        r.writable = .ok () := by
  have hmov : r.operations.find? (·.opcode = .mov) = none ↔
      ∀ op ∈ r.operations, op.opcode ≠ .mov := by simp
  rw [← hmov, ← singleAssignment_eq_ok, audit]
  split_ifs with hnames
  · simp [hnames]
  · cases r.operations.find? (·.opcode = .mov) with
    | some op => simp
    | none => cases r.singleAssignment <;> simp [not_not.1 hnames, bind, Except.bind]

theorem outputNames_perm (g : Graph) : g.outputNames.Perm (g.outputs.map (·.dest.name)) :=
  List.mergeSort_perm _ _

theorem outputNames_eq (h : (g.outputs.map (·.dest.name)).Perm (r.outputs.map (·.dest.name))) :
    g.outputNames = r.outputNames := by
  have hsorted (names : List Text) :
      (names.mergeSort fun a b => decide (a ≤ b)).Pairwise (· ≤ ·) := by
    have htrans (a b c : Text) (hab : decide (a ≤ b) = true) (hbc : decide (b ≤ c) = true) :
        decide (a ≤ c) = true :=
      decide_eq_true (List.le_trans (of_decide_eq_true hab) (of_decide_eq_true hbc))
    have htotal (a b : Text) : (decide (a ≤ b) || decide (b ≤ a)) = true := by
      simpa using List.le_total a b
    simpa using List.pairwise_mergeSort htrans htotal names
  refine List.Perm.eq_of_pairwise (fun a b _ _ => List.le_antisymm) (hsorted _) (hsorted _) ?_
  exact (g.outputNames_perm.trans h).trans r.outputNames_perm.symm

theorem Ready.exists_optimize (h : Ready balancingOrder g) :
    ∃ r, g.optimize = .ok r ∧ g.audit r = .ok () ∧ g.outputNames = r.outputNames ∧ r.Sized := by
  obtain ⟨g', hg', hready⟩ := exists_foldlM_invariant (I := Ready) (fun _ _ _ hs => hs.step) h
  obtain ⟨d, hd⟩ := exists_eliminateDeadCode hready.closed
  have hp := pruning_of_eliminateDeadCode hd
  obtain ⟨r, hr⟩ := exists_eliminateCopies fun op hop => hready.single op (hp.subset hop)
  have he := eliding_of_eliminateCopies hr
  have hsized : r.Sized := he.sized (hp.sized hready.sized)
  have hnames : g.outputNames = r.outputNames := by
    apply outputNames_eq
    rw [he.map_dest_outputs Node.name]
    have hwires : ∀ op ∈ g'.outputs, isGiven op.dest = false :=
      fun op hop => hready.produced op (mem_outputs.1 hop).1
    exact ((hp.outputs_perm hwires).trans (outputs_perm_of_balanced hg')).symm.map _
  have hcopies : ∀ op ∈ r.operations, op.opcode ≠ .mov := by
    intro op hop
    obtain ⟨p, -, hpc, rfl⟩ := he.mem_result.1 hop
    exact hpc
  have haudit : g.audit r = .ok () := audit_eq_ok.2 ⟨by rw [hnames], hcopies,
    he.assigned hp.assigned_result, writable_eq_ok.2 hsized⟩
  exact ⟨r, optimize_eq_ok.2 ⟨g', d, hg', hd, hr⟩, haudit, hnames, hsized⟩

/-- A text that is read into a circuit that can be written, in which no loop consists of operations
of one connective and every `mov` has one source, is optimized into a circuit that passes the audit,
has the same outputs and can be written. -/
theorem wellformed_input_is_optimized {t : Text} (hparse : parse t = .ok g)
    (hcheck : g.writable = .ok ()) (hloop : ∀ b : Bitwise, Acyclic (b.within g.operations))
    (hmov : ∀ op ∈ g.operations, op.opcode = .mov → op.sources.length = 1) :
    ∃ r, g.optimize = .ok r ∧ g.audit r = .ok () ∧ g.outputNames = r.outputNames ∧
      ∃ out, r.write = .ok out := by
  have hparsed := parsed_of_parse hparse
  have hsized := writable_eq_ok.1 hcheck
  have hready : Ready balancingOrder g := ⟨by decide, hparsed.closed hsized, hparsed.produced,
    fun op hop hc => List.length_eq_one_iff.1 (hmov op hop hc), hsized, fun b _ => hloop b⟩
  obtain ⟨r, hr, haudit, hnames, hsized⟩ := hready.exists_optimize
  exact ⟨r, hr, haudit, hnames, r.print, bind_eq_ok.2 ⟨(), writable_eq_ok.2 hsized, rfl⟩⟩

/-- Products of an input and a register that stores the last of them. -/
def feedbackText : Text :=
  "a = in'8\nt = and'8 a r\nu = and'8 t 3'8\nr = reg'8 s\ns = and'8 u a\nc = mov'8 s\nx = out'8 c\n"

def feedback : Graph where
  operations :=
    [⟨⟨"a", 8, .wire, 0⟩, 8, .input, []⟩,
      ⟨⟨"t", 8, .wire, 0⟩, 8, .and, [⟨"a", 8, .wire, 0⟩, ⟨"r", 8, .wire, 0⟩]⟩,
      ⟨⟨"u", 8, .wire, 0⟩, 8, .and, [⟨"t", 8, .wire, 0⟩, ⟨"3'8", 8, .constant, 0⟩]⟩,
      ⟨⟨"r", 8, .wire, 0⟩, 8, .reg, [⟨"s", 8, .wire, 0⟩]⟩,
      ⟨⟨"s", 8, .wire, 0⟩, 8, .and, [⟨"u", 8, .wire, 0⟩, ⟨"a", 8, .wire, 0⟩]⟩,
      ⟨⟨"c", 8, .wire, 0⟩, 8, .mov, [⟨"s", 8, .wire, 0⟩]⟩,
      ⟨⟨"x", 8, .wire, 0⟩, 8, .output, [⟨"c", 8, .wire, 0⟩]⟩]

theorem feedback_is_optimized : parse feedbackText = .ok feedback ∧
    ∃ r, feedback.optimize = .ok r ∧ feedback.audit r = .ok () ∧
      feedback.outputNames = r.outputNames ∧ ∃ out, r.write = .ok out := by
  have hparse : parse feedbackText = .ok feedback := by cbv
  have hloop (b : Bitwise) : Acyclic (b.within feedback.operations) := by
    let rank (v : Node) : ℕ := (["a", "r", "3'8", "t", "u", "s"] : List Text).idxOf v.name
    have hrank : Ranked rank (b.within feedback.operations) := by
      unfold Ranked
      cases b <;> decide
    exact hrank.acyclic
  exact ⟨hparse, wellformed_input_is_optimized hparse (by decide) hloop (by decide)⟩

end Graph

end Netlist
