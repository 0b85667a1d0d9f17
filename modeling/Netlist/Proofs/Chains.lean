import Mathlib
import Netlist.Proofs.Optimize
import Netlist.Proofs.Parse

/-!
# Copies of copies

Elimination of copies follows a copy one step only. So a reader of a copy of a copy is left with a
node that nothing produces any more. Such a reader exists wherever dead code has been eliminated and
a copy of a copy is left: on the way from an output to the copies there is a last operation that is
no copy itself. Hence an optimized circuit is closed exactly if no copy was read by a copy when the
copies were eliminated.
-/

namespace Netlist

def Run.after? (run : Run) (name : Text) : Option Graph :=
  (run.finished.find? (·.name = name)).map Finished.after

namespace Graph

variable {g d r : Graph} {t : Text}

/-- Whether a `mov` reads the destination of a `mov`, be it its own. -/
def CopiesCopy (g : Graph) : Prop :=
  ∃ p ∈ g.operations, p.opcode = .mov ∧ ∃ q ∈ g.operations, q.opcode = .mov ∧ q.dest ∈ p.sources

instance (g : Graph) : Decidable g.CopiesCopy :=
  inferInstanceAs (Decidable (∃ p ∈ g.operations, p.opcode = .mov ∧
    ∃ q ∈ g.operations, q.opcode = .mov ∧ q.dest ∈ p.sources))

namespace Eliding

variable (h : d.Eliding r) (hs : SingleAssignment d.operations) {op q : Operation} {v : Node}

include h hs

theorem copied_eq (hop : op ∈ d.operations) (hc : op.opcode = .mov) (hv : v ∈ op.sources) :
    copied d.copies op.dest = v := by
  rcases h.copied_cases op.dest with ⟨m, hm, -, hd, hsources⟩ | ⟨-, hno⟩
  · rw [← hs.eq_of_dest_eq hm hop hd, hsources] at hv
    exact (List.mem_singleton.1 hv).symm
  · exact absurd rfl (hno op hop hc)

theorem dest_ne_copied (hproduced : ∀ op ∈ d.operations, isGiven op.dest = false)
    (hclosed : r.closed = .ok ()) (hop : op ∈ d.operations) (hc : op.opcode ≠ .mov)
    (hv : v ∈ op.sources) (hq : q ∈ d.operations) (hqc : q.opcode = .mov) :
    q.dest ≠ copied d.copies v := by
  intro hd
  have hread := (closed_eq_ok.1 hclosed).2 _ (h.mem_result.2 ⟨op, hop, hc, rfl⟩)
    (copied d.copies v) (List.mem_map_of_mem hv)
  rw [← hd, hproduced q hq] at hread
  obtain ⟨p, hp, hpd⟩ := hread.resolve_left Bool.false_ne_true
  obtain ⟨p', hp', hpc, rfl⟩ := h.mem_result.1 hp
  exact hpc (hs.eq_of_dest_eq hp' hq hpd ▸ hqc)

end Eliding

/-- What elimination of copies makes of a circuit without dead code is closed exactly if no copy is
read by a copy. -/
theorem closed_iff_not_copiesCopy (hd : g.Pruning d) (hr : d.Eliding r)
    (hproduced : ∀ op ∈ g.operations, isGiven op.dest = false) :
    r.closed = .ok () ↔ ¬d.CopiesCopy := by
  have hs := hd.assigned_result
  constructor
  · rintro hclosed ⟨p, hp, hpc, q, hq, hqc, hqp⟩
    -- The invariant says of a node that no copy to it reads a copy. An operation that is no copy
    -- passes it on because the result is closed, and a copy because it reads no copies.
    refine hd.dest_induction (fun op hop => hproduced op (mem_outputs.1 hop).1)
      (P := fun v => ∀ p ∈ d.operations, p.opcode = .mov → p.dest = v →
        ∀ q ∈ d.operations, q.opcode = .mov → q.dest ∉ p.sources)
      ?_ ?_ p hp p hp hpc rfl q hq hqc hqp
    · intro op hop p hp hpc hpd
      obtain ⟨hop, hc⟩ := mem_outputs.1 hop
      rw [hs.eq_of_dest_eq hp hop hpd, hc] at hpc
      cases hpc
    · rintro op hop ih v hv p hp hpc rfl q hq hqc hqp
      by_cases hc : op.opcode = .mov
      · exact ih op hop hc rfl p hp hpc hv
      · have hgiven : ∀ op ∈ d.operations, isGiven op.dest = false :=
          fun op hop => (hd.mem_result.1 hop).2.1
        apply hr.dest_ne_copied hs hgiven hclosed hop hc hv hq hqc
        exact (hr.copied_eq hs hp hpc hqp).symm
  · intro hno
    exact hr.closed hd.closed fun p hp hpc q hq hqc hqp => hno ⟨p, hp, hpc, q, hq, hqc, hqp⟩

theorem optimizeRun_deadCode (h : g.optimize = .ok r) : ∃ g' d,
    balancingOrder.foldlM (fun g b => b.balance g) g = .ok g' ∧ g'.eliminateDeadCode = .ok d ∧
      d.eliminateCopies = .ok r ∧ g.optimizeRun.finished.find? (·.name = deadCodeName) =
        some ⟨.lateElimination, deadCodeName, g', d, ⟨0⟩⟩ := by
  obtain ⟨g', d, hbalanced, hd, hr⟩ := optimize_eq_ok.1 h
  refine ⟨g', d, hbalanced, hd, hr, ?_⟩
  simp only [balancingOrder, foldlM_cons_eq_ok] at hbalanced
  obtain ⟨g₁, h₁, g₂, h₂, _, h₃, ⟨⟩⟩ := hbalanced
  rw [optimizeRun, schedule_standard, standardPasses, runPasses_quiet_ok h₁, runPasses_quiet_ok h₂,
    runPasses_quiet_ok h₃, runPasses_quiet_ok hd, runPasses_quiet_ok hr]
  rfl

theorem optimizeRun_after? (h : g.optimize = .ok r) : ∃ g' d,
    balancingOrder.foldlM (fun g b => b.balance g) g = .ok g' ∧ g'.eliminateDeadCode = .ok d ∧
      d.eliminateCopies = .ok r ∧ g.optimizeRun.after? deadCodeName = some d := by
  obtain ⟨g', d, hbalanced, hd, hr, hfound⟩ := optimizeRun_deadCode h
  exact ⟨g', d, hbalanced, hd, hr, by rw [Run.after?, hfound]; rfl⟩

/-- The result of optimizing a circuit that was read is not closed exactly if a copy is read by a
copy after dead code has been eliminated. -/
theorem optimized_is_open_iff_copiesCopy (hparse : parse t = .ok g) (h : g.optimize = .ok r) :
    ∃ d, g.optimizeRun.after? deadCodeName = some d ∧
      ((∃ e, r.closed = .error e) ↔ d.CopiesCopy) := by
  obtain ⟨g', d, hbalanced, hd, hr, hafter⟩ := optimizeRun_after? h
  have hproduced := isGiven_dest_of_balanced hbalanced (parsed_of_parse hparse).produced
  have hiff := closed_iff_not_copiesCopy (pruning_of_eliminateDeadCode hd)
    (eliding_of_eliminateCopies hr) hproduced
  refine ⟨d, hafter, ?_⟩
  rw [← not_iff_not, ← hiff]
  cases r.closed with
  | error e => simp
  | ok u => simp

def nestedText : Text :=
  "a = in'8\nt = and'8 a a\ny = and'8 t a\nu = or'8 y y\nz = or'8 u y\nx = out'8 z\n"

/-- Two connectives, one on top of the other, that both leave nothing but a copy. -/
def nested : Graph where
  operations :=
    [⟨⟨"a", 8, .wire, 0⟩, 8, .input, []⟩,
      ⟨⟨"t", 8, .wire, 0⟩, 8, .and, [⟨"a", 8, .wire, 0⟩, ⟨"a", 8, .wire, 0⟩]⟩,
      ⟨⟨"y", 8, .wire, 0⟩, 8, .and, [⟨"t", 8, .wire, 0⟩, ⟨"a", 8, .wire, 0⟩]⟩,
      ⟨⟨"u", 8, .wire, 0⟩, 8, .or, [⟨"y", 8, .wire, 0⟩, ⟨"y", 8, .wire, 0⟩]⟩,
      ⟨⟨"z", 8, .wire, 0⟩, 8, .or, [⟨"u", 8, .wire, 0⟩, ⟨"y", 8, .wire, 0⟩]⟩,
      ⟨⟨"x", 8, .wire, 0⟩, 8, .output, [⟨"z", 8, .wire, 0⟩]⟩]

def nestedOptimized : Graph where
  operations :=
    [⟨⟨"x", 8, .wire, 0⟩, 8, .output, [⟨"y", 8, .wire, 0⟩]⟩,
      ⟨⟨"a", 8, .wire, 0⟩, 8, .input, []⟩]
  generation := 3

theorem nestedOptimized_is_open :
    parse nestedText = .ok nested ∧ nested.optimize = .ok nestedOptimized ∧
      (∃ e, nestedOptimized.closed = .error e) ∧
      ∃ d, nested.optimizeRun.after? deadCodeName = some d ∧ d.CopiesCopy := by
  have hparse : parse nestedText = .ok nested := by cbv
  have h : nested.optimize = .ok nestedOptimized := by cbv
  have hopen : ∃ e, nestedOptimized.closed = .error e :=
    ⟨.invariant ⟨"fuzz", "y", .dangling "x = out'8 y"⟩, by cbv⟩
  obtain ⟨d, hafter, hiff⟩ := optimized_is_open_iff_copiesCopy hparse h
  exact ⟨hparse, h, hopen, d, hafter, hiff.1 hopen⟩

end Graph

end Netlist
