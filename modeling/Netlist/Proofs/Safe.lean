import Mathlib
import Netlist.Proofs.Optimize

/-!
# Circuits that stay closed

Following copies one step only leaves a reader without a producer when a `mov` reads another `mov`.
Balancing one connective never makes such a chain: a copy reads a leaf, which an operation of the
connective reads and which is therefore not rewritten, or a temporary. Balancing a second connective
may. `Safe` circuits have no `mov` and use one connective at most. The optimizer succeeds on them
and makes safe circuits, so it can be applied any number of times.
-/

namespace Netlist.Graph

variable {g r : Graph} {b c : Bitwise} {pending : List Bitwise}

structure Safe (g : Graph) : Prop where
  assigned : SingleAssignment g.operations
  closed : g.closed = .ok ()
  acyclic : Acyclic g.operations
  copyFree : ∀ op ∈ g.operations, op.opcode ≠ .mov
  produced : ∀ op ∈ g.operations, isGiven op.dest = false
  uniform : ∃ b : Bitwise, ∀ op ∈ g.operations, ∀ c : Bitwise, op.opcode = c.opcode → c = b

/-- What holds of a circuit that uses one connective while some connectives are still to be
balanced. There are copies only if that connective is not among them. -/
structure Orderly (b : Bitwise) (pending : List Bitwise) (g : Graph) : Prop where
  nodup : pending.Nodup
  closed : g.closed = .ok ()
  acyclic : Acyclic g.operations
  produced : ∀ op ∈ g.operations, isGiven op.dest = false
  uniform : ∀ op ∈ g.operations, ∀ c : Bitwise, op.opcode = c.opcode → c = b
  single : ∀ op ∈ g.operations, op.opcode = .mov → ∃ u, op.sources = [u]
  unchained : ∀ p ∈ g.operations, p.opcode = .mov → ∀ q ∈ g.operations, q.opcode = .mov →
    q.dest ∉ p.sources
  copyFree : b ∈ pending → ∀ op ∈ g.operations, op.opcode ≠ .mov

theorem Safe.orderly (h : g.Safe) (hnodup : pending.Nodup) : ∃ b, Orderly b pending g := by
  obtain ⟨b, hb⟩ := h.uniform
  have hno (op : Operation) (hop : op ∈ g.operations) (hc : op.opcode = .mov) : False :=
    h.copyFree op hop hc
  exact ⟨b, hnodup, h.closed, h.acyclic, h.produced, hb, fun op hop hc => (hno op hop hc).elim,
    fun p hp hc => (hno p hp hc).elim, fun _ => h.copyFree⟩

namespace Orderly

theorem unused (h : Orderly b pending g) (hcb : c ≠ b) :
    ∀ op ∈ g.operations, op.opcode ≠ c.opcode :=
  fun op hop hc => hcb (h.uniform op hop c hc)

theorem step (h : Orderly b (c :: pending) g) :
    ∃ g', c.balance g = .ok g' ∧ Orderly b pending g' := by
  obtain ⟨hc, hnodup⟩ := List.nodup_cons.1 h.nodup
  have hassigned := (closed_eq_ok.1 h.closed).1
  obtain ⟨g', hg'⟩ :=
    c.exists_balance hassigned (h.acyclic.of_subset (List.filter_subset_self _))
  obtain ⟨kept, rewrites, hb⟩ := Bitwise.exists_balancing hg'
  refine ⟨g', hg', hnodup, hb.closed h.closed, hb.acyclic h.acyclic, hb.isGiven_dest h.produced,
    ?_, hb.single h.single, ?_, ?_⟩
  · intro op hop c' hc'
    rcases hb.opcode_cases hop with hmov | ⟨p, hp, hop⟩
    · rw [hmov] at hc'
      cases c' <;> cases hc'
    · exact h.uniform p hp c' (hop.trans hc')
  · intro p hp hpc q hq hqc
    by_cases hcb : c = b
    · have hfree := h.copyFree (hcb ▸ List.mem_cons_self)
      obtain ⟨w, hw, rfl⟩ := (hb.copy_cases hp hpc).resolve_left fun hp => hfree p hp hpc
      obtain ⟨w', hw', rfl⟩ := (hb.copy_cases hq hqc).resolve_left fun hq => hfree q hq hqc
      exact fun hmem => hb.copy_unread hw hw' (List.mem_singleton.1 hmem)
    · have hperm := hb.perm_of_unused (h.unused hcb)
      exact h.unchained p (hperm.mem_iff.1 hp) hpc q (hperm.mem_iff.1 hq) hqc
  · intro hpending op hop
    have hcb : c ≠ b := fun he => hc (he ▸ hpending)
    have hperm := hb.perm_of_unused (h.unused hcb)
    exact h.copyFree (List.mem_cons_of_mem c hpending) op (hperm.mem_iff.1 hop)

end Orderly

theorem Safe.exists_optimize (h : g.Safe) : ∃ r, g.optimize = .ok r ∧ r.Safe := by
  obtain ⟨b, hb⟩ := h.orderly (show balancingOrder.Nodup by decide)
  obtain ⟨g', hg', hb⟩ :=
    exists_foldlM_invariant (I := Orderly b) (fun _ _ _ hs => hs.step) hb
  obtain ⟨d, hd⟩ := exists_eliminateDeadCode hb.closed
  have hp := pruning_of_eliminateDeadCode hd
  obtain ⟨r, hr⟩ := exists_eliminateCopies fun op hop hmov => hb.single op (hp.subset hop) hmov
  have he := eliding_of_eliminateCopies hr
  have hclosed : r.closed = .ok () := he.closed hp.closed fun p hp' hpc q hq hqc =>
    hb.unchained p (hp.subset hp') hpc q (hp.subset hq) hqc
  have hsource (op : Operation) (hop : op ∈ r.operations) :
      ∃ p ∈ g'.operations, p.opcode ≠ .mov ∧ op.dest = p.dest ∧ op.opcode = p.opcode := by
    obtain ⟨p, hp', hpc, rfl⟩ := he.mem_result.1 hop
    exact ⟨p, hp.subset hp', hpc, rfl, rfl⟩
  refine ⟨r, optimize_eq_ok.2 ⟨g', d, hg', hd, hr⟩, (closed_eq_ok.1 hclosed).1, hclosed,
    he.acyclic (hb.acyclic.of_subset hp.subset), ?_, ?_, b, ?_⟩
  · intro op hop
    obtain ⟨p, -, hpc, -, hc⟩ := hsource op hop
    rwa [hc]
  · intro op hop
    obtain ⟨p, hp, -, hd, -⟩ := hsource op hop
    rw [hd]
    exact hb.produced p hp
  · intro op hop c hc
    obtain ⟨p, hp, -, -, hpc⟩ := hsource op hop
    exact hb.uniform p hp c (hpc ▸ hc)

/-- The circuit after a number of optimizations, each applied to the result of the one before. -/
def optimizeTimes (g : Graph) : ℕ → Except Error Graph
  | 0 => .ok g
  | n + 1 => g.optimizeTimes n >>= optimize

theorem Safe.exists_optimizeTimes (h : g.Safe) (n : ℕ) :
    ∃ r, g.optimizeTimes n = .ok r ∧ r.Safe := by
  induction n with
  | zero => exact ⟨g, rfl, h⟩
  | succ n ih =>
    obtain ⟨s, hs, hsafe⟩ := ih
    obtain ⟨r, hr, hrsafe⟩ := hsafe.exists_optimize
    exact ⟨r, bind_eq_ok.2 ⟨s, hs, hr⟩, hrsafe⟩

/-- The optimizer keeps safe circuits safe, so it succeeds on them any number of times and every
result on the way is closed. -/
theorem safe_circuits_stay_safe (h : g.Safe) :
    (∃ r, g.optimize = .ok r ∧ r.Safe) ∧
      ∀ n, ∃ r, g.optimizeTimes n = .ok r ∧ ∀ m ≤ n, ∃ s, g.optimizeTimes m = .ok s ∧
        s.closed = .ok () := by
  refine ⟨h.exists_optimize, fun n => ?_⟩
  obtain ⟨r, hr, -⟩ := h.exists_optimizeTimes n
  refine ⟨r, hr, fun m _ => ?_⟩
  obtain ⟨s, hs, hsafe⟩ := h.exists_optimizeTimes m
  exact ⟨s, hs, hsafe.closed⟩

def simplifiedSumAgain : Graph where
  operations :=
    [⟨⟨"x", 8, .wire, 0⟩, 8, .output, [⟨"OPT1_0", 8, .wire, 6⟩]⟩,
      ⟨⟨"OPT1_0", 8, .wire, 6⟩, 8, .xor, [⟨"b", 8, .wire, 0⟩, ⟨"c", 8, .wire, 0⟩]⟩,
      ⟨⟨"b", 8, .wire, 0⟩, 8, .input, []⟩,
      ⟨⟨"c", 8, .wire, 0⟩, 8, .input, []⟩]
  generation := 6

theorem cancellingSum_stays_safe : Bitwise.cancellingSum.Safe ∧
    Bitwise.cancellingSum.optimize = .ok simplifiedSum ∧ simplifiedSum.Safe ∧
    Bitwise.cancellingSum.optimizeTimes 2 = .ok simplifiedSumAgain ∧
    simplifiedSumAgain.closed = .ok () := by
  have hclosed : Bitwise.cancellingSum.closed = .ok () := by cbv
  have huses : ∀ op ∈ Bitwise.cancellingSum.operations,
      op.opcode ≠ Bitwise.and.opcode ∧ op.opcode ≠ Bitwise.or.opcode := by decide
  have huniform : ∀ op ∈ Bitwise.cancellingSum.operations, ∀ c : Bitwise, op.opcode = c.opcode →
      c = .xor := by
    intro op hop c hc
    cases c with
    | and => exact absurd hc (huses op hop).1
    | or => exact absurd hc (huses op hop).2
    | xor => rfl
  have h : Bitwise.cancellingSum.Safe := ⟨(closed_eq_ok.1 hclosed).1, hclosed,
    Bitwise.cancellingSum_acyclic, by decide, by decide, .xor, huniform⟩
  have honce : Bitwise.cancellingSum.optimize = .ok simplifiedSum := by cbv
  have htwice : Bitwise.cancellingSum.optimizeTimes 2 = .ok simplifiedSumAgain := by cbv
  obtain ⟨⟨r, hr, hsafe⟩, htimes⟩ := safe_circuits_stay_safe h
  obtain ⟨-, -, hmade⟩ := htimes 2
  obtain ⟨s, hs, hsclosed⟩ := hmade 2 le_rfl
  cases honce.symm.trans hr
  cases htwice.symm.trans hs
  exact ⟨h, honce, hsafe, htwice, hsclosed⟩

end Netlist.Graph
