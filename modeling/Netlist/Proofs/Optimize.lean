import Mathlib
import Netlist.Pipeline.Registry
import Netlist.Proofs.Copies
import Netlist.Proofs.Liveness
import Netlist.Proofs.Solutions

/-!
# The optimizer preserves meaning

A run of passes succeeds exactly if the passes succeed one after the other, so an optimized circuit
comes from a chain of three balanced circuits, a pruned one and one without copies.

A solution goes along this chain: each balanced circuit gives values to its own temporaries, which
have later tags than all nodes before, and the last two passes need no new values. In the other
direction a closed circuit without cycles has at most one solution for given constants and memories
if its operations are functions. So an output has the same value in the optimized circuit as before.
-/

namespace Netlist

variable {g r : Graph} {op : Operation} {v : Node}

variable {passes : List (Registration Id)} {p : Registration Id} {finished : List Finished}

theorem runPasses_quiet_error {e : Error} (h : p.pass.apply g = .error e) :
    Id.run (runPasses .quiet finished g (p :: passes)) =
      ⟨finished, .error (.within p.pass.name e)⟩ := by
  rw [runPasses, h]
  rfl

theorem runPasses_quiet_ok {g' : Graph} (h : p.pass.apply g = .ok g') :
    Id.run (runPasses .quiet finished g (p :: passes)) =
      Id.run (runPasses .quiet (finished ++ [⟨p.stage, p.pass.name, g, g', ⟨0⟩⟩]) g' passes) := by
  rw [runPasses, h]
  rfl

theorem runPasses_eq_ok : (Id.run (runPasses .quiet finished g passes)).result = .ok r ↔
    passes.foldlM (fun g p => (p.pass.apply g).run) g = .ok r := by
  induction passes generalizing finished g with
  | nil => rfl
  | cons p passes ih =>
    rw [foldlM_cons_eq_ok]
    cases hp : (p.pass.apply g).run with
    | error e => simp [runPasses_quiet_error hp]
    | ok g' => simp [runPasses_quiet_ok hp, ih]

namespace Graph

/-- The connectives in the order in which the optimizer balances them. -/
def balancingOrder : List Bitwise := [.and, .or, .xor]

theorem schedule_standard : (Registry.standard (n := Id)).schedule = standardPasses := rfl

theorem optimize_eq_result (g : Graph) : g.optimize = g.optimizeRun.result := by
  have hclose : (Registry.standard (n := Id)).close.schedule = standardPasses := rfl
  rw [optimize, optimizeRun, Registry.run, Id.run_bind, hclose, schedule_standard]
  cases (Id.run (runPasses (n := Id) .quiet [] g standardPasses)).result <;> rfl

theorem optimize_eq_ok : g.optimize = .ok r ↔ ∃ g' d,
    balancingOrder.foldlM (fun g b => b.balance g) g = .ok g' ∧ g'.eliminateDeadCode = .ok d ∧
      d.eliminateCopies = .ok r := by
  rw [optimize_eq_result, optimizeRun, runPasses_eq_ok, schedule_standard]
  simp only [standardPasses, balancingOrder, foldlM_cons_eq_ok, Bitwise.pass, Pass.deadCode,
    Pass.copies, Id.run_pure]
  constructor
  · rintro ⟨g₁, h₁, g₂, h₂, g₃, h₃, d, hd, r, hr, ⟨⟩⟩
    exact ⟨g₃, d, ⟨g₁, h₁, g₂, h₂, g₃, h₃, rfl⟩, hd, hr⟩
  · rintro ⟨g₃, d, ⟨g₁, h₁, g₂, h₂, _, h₃, ⟨⟩⟩, hd, hr⟩
    exact ⟨g₁, h₁, g₂, h₂, g₃, h₃, d, hd, r, hr, rfl⟩

/-- A closed circuit without cycles has one solution at most for given constants and memories. -/
theorem eq_on_dests {α : Type*} [BooleanAlgebra α] {I : Interpretation α} (hI : I.Functional)
    (hc : g.closed = .ok ()) (ha : Acyclic g.operations) {ρ σ : Node → α}
    (hρ : g.Satisfies I.meaning ρ) (hσ : g.Satisfies I.meaning σ)
    (hgiven : ∀ op ∈ g.operations, ∀ v ∈ op.sources, isGiven v = true → ρ v = σ v) :
    ∀ op ∈ g.operations, ρ op.dest = σ op.dest := by
  obtain ⟨-, hclosed⟩ := closed_eq_ok.1 hc
  obtain ⟨rank, hrank⟩ := ha.exists_rank
  intro op hop
  induction hn : rank op.dest using Nat.strong_induction_on generalizing op with
  | _ n ih =>
    subst hn
    have hs : op.sources.map ρ = op.sources.map σ := by
      refine List.map_congr_left fun v hv => ?_
      rcases hclosed op hop v hv with hg | ⟨p, hp, rfl⟩
      · exact hgiven op hop v hv hg
      · exact ih _ (hrank op hop p.dest hv) p hp rfl
    have hop' := hρ op hop
    rw [Operation.Holds, hs] at hop'
    exact I.meaning_functional hI hop' (hσ op hop)

section Balanced

variable {bs : List Bitwise} {g' : Graph} (h : bs.foldlM (fun g b => b.balance g) g = .ok g')

include h

theorem acyclic_of_balanced (ha : Acyclic g.operations) : Acyclic g'.operations := by
  refine foldlM_invariant (I := fun _ s => Acyclic s.operations) ?_ ha h
  intro b l s s' hs hb
  obtain ⟨kept, rewrites, hb⟩ := Bitwise.exists_balancing hb
  exact hb.acyclic hs

theorem outputs_perm_of_balanced : g'.outputs.Perm g.outputs := by
  refine foldlM_invariant (I := fun _ s => s.outputs.Perm g.outputs) ?_ (List.Perm.refl _) h
  intro b l s s' hs hb
  obtain ⟨kept, rewrites, hb⟩ := Bitwise.exists_balancing hb
  exact hb.outputs_perm.trans hs

theorem isGiven_dest_of_balanced (hg : ∀ op ∈ g.operations, isGiven op.dest = false) :
    ∀ op ∈ g'.operations, isGiven op.dest = false := by
  refine foldlM_invariant (I := fun _ s => ∀ op ∈ s.operations, isGiven op.dest = false) ?_ hg h
  intro b l s s' hs hb
  obtain ⟨kept, rewrites, hb⟩ := Bitwise.exists_balancing hb
  exact hb.isGiven_dest hs

theorem mem_nodes_of_balanced (hv : isGiven v = true) (hmem : v ∈ g'.nodes) : v ∈ g.nodes := by
  refine foldlM_invariant (I := fun _ s => v ∈ s.nodes → v ∈ g.nodes) ?_ id h hmem
  intro b l s s' hs hb hmem
  obtain ⟨kept, rewrites, hb⟩ := Bitwise.exists_balancing hb
  rcases hb.mem_nodes_or_temporary hmem with hmem | ht
  · exact hs hmem
  · rw [hb.temporary_isGiven ht] at hv
    cases hv

theorem exists_extension_of_balanced {α : Type*} [BooleanAlgebra α] {I : Interpretation α}
    {ρ : Node → α} (hg : g.Satisfies I.meaning ρ) :
    ∃ ρ', (∀ v ∈ g.nodes, ρ' v = ρ v) ∧ g'.Satisfies I.meaning ρ' := by
  -- The nodes of `g` keep their values because their tags are not later than those of any circuit
  -- on the way.
  suffices hrun : g.lastTag ≤ g'.lastTag ∧
      ∃ ρ', (∀ v ∈ g.nodes, ρ' v = ρ v) ∧ g'.Satisfies I.meaning ρ' from hrun.2
  refine foldlM_invariant (I := fun _ s => g.lastTag ≤ s.lastTag ∧
    ∃ ρ', (∀ v ∈ g.nodes, ρ' v = ρ v) ∧ s.Satisfies I.meaning ρ') ?_
    ⟨le_rfl, ρ, fun _ _ => rfl, hg⟩ h
  rintro b l s s' ⟨htag, ρ₁, hagree₁, hs⟩ hb
  obtain ⟨kept, rewrites, hb⟩ := Bitwise.exists_balancing hb
  obtain ⟨ρ₂, hagree₂, hs'⟩ := hb.exists_extension (R := I.reading b) hs
  refine ⟨?_, ρ₂, ?_, hs'⟩
  · have hgen := s'.generation_le_lastTag
    rw [hb.generation] at hgen
    omega
  · intro v hv
    rw [hagree₂ v ((tag_le_lastTag hv).trans htag), hagree₁ v hv]

end Balanced

section Optimized

variable (h : g.optimize = .ok r)

include h

theorem acyclic_of_optimize (ha : Acyclic g.operations) : Acyclic r.operations := by
  obtain ⟨g', d, hbalanced, hd, hr⟩ := optimize_eq_ok.1 h
  have hg' := acyclic_of_balanced hbalanced ha
  exact (eliding_of_eliminateCopies hr).acyclic
    (hg'.of_subset (pruning_of_eliminateDeadCode hd).subset)

theorem mem_nodes_of_optimize (hv : isGiven v = true) (hmem : v ∈ r.nodes) : v ∈ g.nodes := by
  obtain ⟨g', d, hbalanced, hd, hr⟩ := optimize_eq_ok.1 h
  have hmem' := (eliding_of_eliminateCopies hr).nodes_subset hmem
  exact mem_nodes_of_balanced hbalanced hv ((pruning_of_eliminateDeadCode hd).nodes_subset hmem')

/-- An output is kept unless its destination is a constant or a memory. -/
theorem output_of_optimize (hop : op ∈ g.outputs) (hg : isGiven op.dest = false) :
    ∃ p ∈ r.operations, p.dest = op.dest := by
  obtain ⟨g', d, hbalanced, hd, hr⟩ := optimize_eq_ok.1 h
  have hop' : op ∈ g'.outputs := (outputs_perm_of_balanced hbalanced).mem_iff.2 hop
  have hlive := (pruning_of_eliminateDeadCode hd).mem_outputs_iff.2 ⟨hop', hg⟩
  obtain ⟨hmem, hc⟩ := mem_outputs.1 hlive
  exact ⟨_, (eliding_of_eliminateCopies hr).mem_result.2 ⟨op, hmem, by simp [hc], rfl⟩, rfl⟩

theorem exists_extension_of_optimize {α : Type*} [BooleanAlgebra α] {I : Interpretation α}
    {ρ : Node → α} (hg : g.Satisfies I.meaning ρ) :
    ∃ ρ', (∀ v ∈ g.nodes, ρ' v = ρ v) ∧ r.Satisfies I.meaning ρ' := by
  obtain ⟨g', d, hbalanced, hd, hr⟩ := optimize_eq_ok.1 h
  obtain ⟨ρ', hagree, hg'⟩ := exists_extension_of_balanced hbalanced hg
  have hsub := (pruning_of_eliminateDeadCode hd).subset
  exact ⟨ρ', hagree, (eliding_of_eliminateCopies hr).satisfies fun op hop => hg' op (hsub hop)⟩

end Optimized

/-- A solution of a circuit extends to the temporaries of the optimized circuit. If the circuit has
no cycles, its operations are functions and the optimized circuit is closed, a solution of the
optimized circuit that has the same constants and memories has the same outputs. -/
theorem optimize_preserves_meaning {α : Type*} [BooleanAlgebra α] (I : Interpretation α)
    (h : g.optimize = .ok r) :
    (∀ ρ : Node → α, g.Satisfies I.meaning ρ →
      ∃ ρ', (∀ v ∈ g.nodes, ρ' v = ρ v) ∧ r.Satisfies I.meaning ρ') ∧
    (I.Functional → Acyclic g.operations → r.closed = .ok () →
      ∀ ρ σ : Node → α, g.Satisfies I.meaning ρ → r.Satisfies I.meaning σ →
        (∀ v ∈ g.nodes, isGiven v = true → σ v = ρ v) →
        ∀ op ∈ g.outputs, σ op.dest = ρ op.dest) := by
  refine ⟨fun ρ hg => exists_extension_of_optimize h hg, ?_⟩
  intro hI ha hclosed ρ σ hρ hσ hgiven op hop
  have hdest : op.dest ∈ g.nodes := dest_mem_nodes (mem_outputs.1 hop).1
  by_cases hg : isGiven op.dest = true
  · exact hgiven _ hdest hg
  obtain ⟨ρ', hagree, hρ'⟩ := exists_extension_of_optimize h hρ
  have hsame : ∀ p ∈ r.operations, ∀ v ∈ p.sources, isGiven v = true → σ v = ρ' v := by
    intro p hp v hv hgv
    have hmem := mem_nodes_of_optimize h hgv (source_mem_nodes hp hv)
    rw [hagree v hmem]
    exact hgiven v hmem hgv
  obtain ⟨p, hp, hd⟩ := output_of_optimize h hop (by simpa using hg)
  rw [← hagree _ hdest, ← hd]
  exact eq_on_dests hI hclosed (acyclic_of_optimize h ha) hσ hρ' hsame p hp

def simplifiedSum : Graph where
  operations :=
    [⟨⟨"x", 8, .wire, 0⟩, 8, .output, [⟨"OPT0_0", 8, .wire, 3⟩]⟩,
      ⟨⟨"OPT0_0", 8, .wire, 3⟩, 8, .xor, [⟨"b", 8, .wire, 0⟩, ⟨"c", 8, .wire, 0⟩]⟩,
      ⟨⟨"b", 8, .wire, 0⟩, 8, .input, []⟩,
      ⟨⟨"c", 8, .wire, 0⟩, 8, .input, []⟩]
  generation := 3

/-- One input is on, and an output shows its source. -/
def oneInput : Interpretation Bool := fun v _ _ x xs => x = xs.headD (v.name = "b")

theorem cancellingSum_meaning :
    let ρ (v : Node) : Bool := v.name ∉ (["a", "c"] : List Text)
    let σ (v : Node) : Bool := v.name ∈ (["b", "x", "OPT0_0"] : List Text)
    Bitwise.cancellingSum.optimize = .ok simplifiedSum ∧
      Bitwise.cancellingSum.Satisfies oneInput.meaning ρ ∧
      simplifiedSum.Satisfies oneInput.meaning σ ∧
      (∃ ρ', (∀ v ∈ Bitwise.cancellingSum.nodes, ρ' v = ρ v) ∧
        simplifiedSum.Satisfies oneInput.meaning ρ') ∧
      ∀ op ∈ Bitwise.cancellingSum.outputs, σ op.dest = ρ op.dest := by
  intro ρ σ
  have h : Bitwise.cancellingSum.optimize = .ok simplifiedSum := by cbv
  have hI : oneInput.Functional := fun _ _ _ _ _ _ hx hy => hx.trans hy.symm
  have hρ : Bitwise.cancellingSum.Satisfies oneInput.meaning ρ := by
    intro op hop
    simp only [Bitwise.cancellingSum, List.mem_cons, List.not_mem_nil, or_false] at hop
    rcases hop with rfl | rfl | rfl | rfl | rfl | rfl | rfl <;> exact rfl
  have hσ : simplifiedSum.Satisfies oneInput.meaning σ := by
    intro op hop
    simp only [simplifiedSum, List.mem_cons, List.not_mem_nil, or_false] at hop
    rcases hop with rfl | rfl | rfl | rfl <;> exact rfl
  obtain ⟨hext, hout⟩ := optimize_preserves_meaning oneInput h
  exact ⟨h, hρ, hσ, hext ρ hρ, hout hI Bitwise.cancellingSum_acyclic (by cbv) ρ σ hρ hσ
    (by decide)⟩

end Graph

end Netlist
