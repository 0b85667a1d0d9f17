import Mathlib
import Netlist.Proofs.Balance

/-!
# Solutions of balanced circuits

A valuation of a circuit has exactly one extension to the temporaries that the trees allow, because
the trees form a straight line. The root of a tree then has the value of the connective on the
leaves, which is its value on the sources of the rewritten operation. So the circuits before and
after have the same solutions.
-/

namespace Netlist.Bitwise

variable {b : Bitwise} {g r : Graph} {kept : List Operation} {rewrites : List Rewrite}

namespace Balancing

variable (h : Balancing b g r kept rewrites) {w : Rewrite} {α : Type*} [BooleanAlgebra α]
  {R : Reading b α} {ρ : Node → α}

include h

theorem root_value (hw : w ∈ rewrites)
    (htree : ∀ p ∈ b.trees rewrites, ρ p.dest = b.fold (p.sources.map ρ))
    (hkept : ∀ p ∈ kept, p.opcode = b.opcode → (∃ q ∈ b.within g.operations, p.dest ∈ q.sources) →
      ρ p.dest = b.fold (p.sources.map ρ)) :
    ρ (w.tree b).root = b.fold (w.operation.sources.map ρ) := by
  obtain ⟨ops, hops, hs⟩ := h.sound w hw
  have hroot : ρ (w.tree b).root = b.fold (w.leaves.map ρ) :=
    combine_value fun p hp => htree p (List.mem_flatMap.2 ⟨w, hw, hp⟩)
  rw [hroot]
  apply fold_leaves (h.assigned.sublist hops) hs.mem hs.opcode hs.leaves
  rintro p hp ⟨q, hq, hread⟩
  obtain ⟨hp, hpc⟩ := mem_within.1 hp
  obtain ⟨hq, hqc⟩ := mem_within.1 hq
  have hq := mem_within.2 ⟨hops.subset hq, hqc⟩
  rcases h.mem_operations.1 (hops.subset hp) with hp | ⟨w', hw', rfl⟩
  · exact hkept p hp hpc ⟨q, hq, hread⟩
  · exact absurd hread (h.unread w' hw' q hq)

theorem tree_value (hr : r.Satisfies R.meaning ρ) :
    ∀ p ∈ b.trees rewrites, ρ p.dest = b.fold (p.sources.map ρ) := by
  intro p hp
  exact (R.connective p _ _ (opcode_of_mem_trees hp)).1 (hr p (h.mem_result.2 (.inr (.inl hp))))

/-- If the temporaries have the values that their trees give them, the circuits before and after
say the same. -/
theorem satisfies_iff (htree : ∀ p ∈ b.trees rewrites, ρ p.dest = b.fold (p.sources.map ρ)) :
    g.Satisfies R.meaning ρ ↔ r.Satisfies R.meaning ρ := by
  have hcopy (w : Rewrite) : (w.copy b).Holds R.meaning ρ ↔
      ρ w.operation.dest = ρ (w.tree b).root := R.copy (w.copy b) _ _ rfl
  have hend (w : Rewrite) (hw : w ∈ rewrites) : w.operation.Holds R.meaning ρ ↔
      ρ w.operation.dest = b.fold (w.operation.sources.map ρ) :=
    R.connective w.operation _ _ (mem_within.1 (h.rewritten hw)).2
  have hroot (w : Rewrite) (hw : w ∈ rewrites) (hkept : ∀ p ∈ kept, p.Holds R.meaning ρ) :
      ρ (w.tree b).root = b.fold (w.operation.sources.map ρ) :=
    h.root_value hw htree fun p hp hpc _ => (R.connective p _ _ hpc).1 (hkept p hp)
  constructor
  · intro hg op hop
    have hkept (p : Operation) (hp : p ∈ kept) : p.Holds R.meaning ρ :=
      hg p (h.mem_operations.2 (.inl hp))
    rcases h.mem_result.1 hop with hop | hop | ⟨w, hw, rfl⟩
    · exact hkept op hop
    · exact (R.connective op _ _ (opcode_of_mem_trees hop)).2 (htree op hop)
    · rw [hcopy, hroot w hw hkept, ← hend w hw]
      exact hg _ (h.mem_operations.2 (.inr ⟨w, hw, rfl⟩))
  · intro hr op hop
    have hkept (p : Operation) (hp : p ∈ kept) : p.Holds R.meaning ρ :=
      hr p (h.mem_result.2 (.inl hp))
    rcases h.mem_operations.1 hop with hop | ⟨w, hw, rfl⟩
    · exact hkept op hop
    · rw [hend w hw, ← hroot w hw hkept, ← hcopy]
      exact hr _ (h.mem_result.2 (.inr (.inr ⟨w, hw, rfl⟩)))

/-- A solution goes on to the temporaries and keeps its value at every node of an earlier tag. -/
theorem exists_extension (hg : g.Satisfies R.meaning ρ) :
    ∃ ρ', (∀ v, v.tag ≤ g.lastTag → ρ' v = ρ v) ∧ r.Satisfies R.meaning ρ' := by
  have hstraight : Straight (fun v => v.tag ≤ g.lastTag) (b.trees rewrites) :=
    h.straight (fun _ => Graph.tag_le_lastTag) fun v hv => by
      rw [h.tag_eq hv]
      omega
  obtain ⟨ρ', hagree, htree⟩ := hstraight.exists_extension (fun _ => b.fold) ρ
  refine ⟨ρ', hagree, (h.satisfies_iff htree).1 ?_⟩
  exact (g.satisfies_congr fun v hv => hagree v (Graph.tag_le_lastTag hv)).2 hg

end Balancing

/-- A circuit and its balanced form have the same solutions: a valuation satisfies the circuit if
and only if it goes on to the temporaries, and then in one way only. -/
theorem satisfies_iff_extends_uniquely {α : Type*} [BooleanAlgebra α] (R : Reading b α)
    (h : b.balance g = .ok r) (ρ : Node → α) :
    (g.Satisfies R.meaning ρ ↔
      ∃ ρ', (∀ v ∈ g.nodes, ρ' v = ρ v) ∧ r.Satisfies R.meaning ρ') ∧
    ∀ ρ₁ ρ₂ : Node → α, (∀ v ∈ g.nodes, ρ₁ v = ρ v) → (∀ v ∈ g.nodes, ρ₂ v = ρ v) →
      r.Satisfies R.meaning ρ₁ → r.Satisfies R.meaning ρ₂ → ∀ v ∈ r.nodes, ρ₁ v = ρ₂ v := by
  obtain ⟨kept, rewrites, hb⟩ := exists_balancing h
  refine ⟨⟨?_, ?_⟩, ?_⟩
  · intro hg
    obtain ⟨ρ', hagree, hr⟩ := hb.exists_extension hg
    exact ⟨ρ', fun v hv => hagree v (Graph.tag_le_lastTag hv), hr⟩
  · rintro ⟨ρ', hagree, hr⟩
    exact (g.satisfies_congr hagree).1 ((hb.satisfies_iff (hb.tree_value hr)).2 hr)
  · intro ρ₁ ρ₂ h₁ h₂ hr₁ hr₂ v hv
    have hknown (u : Node) (hu : u ∈ g.nodes) : ρ₁ u = ρ₂ u := (h₁ u hu).trans (h₂ u hu).symm
    rcases hb.mem_nodes_or_temporary hv with hv | hv
    · exact hknown v hv
    · obtain ⟨op, hop, rfl⟩ := List.mem_map.1 hv
      exact hb.straight_nodes.eq_on_dests hknown (hb.tree_value hr₁) (hb.tree_value hr₂) op hop

/-- A sum in which one term is added twice, as an output. -/
def cancellingSum : Graph where
  operations :=
    [⟨⟨"a", 8, .wire, 0⟩, 8, .input, []⟩,
      ⟨⟨"b", 8, .wire, 0⟩, 8, .input, []⟩,
      ⟨⟨"c", 8, .wire, 0⟩, 8, .input, []⟩,
      ⟨⟨"t", 8, .wire, 0⟩, 8, .xor, [⟨"a", 8, .wire, 0⟩, ⟨"b", 8, .wire, 0⟩]⟩,
      ⟨⟨"u", 8, .wire, 0⟩, 8, .xor, [⟨"t", 8, .wire, 0⟩, ⟨"c", 8, .wire, 0⟩]⟩,
      ⟨⟨"s", 8, .wire, 0⟩, 8, .xor, [⟨"u", 8, .wire, 0⟩, ⟨"a", 8, .wire, 0⟩]⟩,
      ⟨⟨"x", 8, .wire, 0⟩, 8, .output, [⟨"s", 8, .wire, 0⟩]⟩]

theorem cancellingSum_acyclic : Acyclic cancellingSum.operations := by
  let rank (v : Node) : ℕ := cancellingSum.operations.findIdx (·.dest = v)
  have hrank : Ranked rank cancellingSum.operations := by
    unfold Ranked
    decide
  exact hrank.acyclic

theorem cancellingSum_extends_uniquely : ∃ r, xor.balance cancellingSum = .ok r ∧
    ∀ I : Interpretation (Set (Fin 8)), ∀ ρ : Node → Set (Fin 8),
      (cancellingSum.Satisfies I.meaning ρ ↔
        ∃ ρ', (∀ v ∈ cancellingSum.nodes, ρ' v = ρ v) ∧ r.Satisfies I.meaning ρ') ∧
      ∀ ρ₁ ρ₂ : Node → Set (Fin 8), (∀ v ∈ cancellingSum.nodes, ρ₁ v = ρ v) →
        (∀ v ∈ cancellingSum.nodes, ρ₂ v = ρ v) → r.Satisfies I.meaning ρ₁ →
        r.Satisfies I.meaning ρ₂ → ∀ v ∈ r.nodes, ρ₁ v = ρ₂ v := by
  have hok : (xor.balance cancellingSum).isOk = true := by cbv
  cases h : xor.balance cancellingSum with
  | error e =>
    rw [h] at hok
    cases hok
  | ok r => exact ⟨r, rfl, fun I ρ => satisfies_iff_extends_uniquely (I.reading .xor) h ρ⟩

end Netlist.Bitwise
