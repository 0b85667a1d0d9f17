import Netlist.Balance.Tree
import Netlist.Proofs.Meaning
import Netlist.Proofs.Straight
import Netlist.Proofs.Temporary

/-!
# What a balanced tree computes

The operations of a tree form a straight line over the nodes that it combines, and their
destinations are what the minter makes. In every valuation that they allow, the root of the tree has
the value of the connective on all the nodes together.
-/

namespace Netlist.Bitwise

variable {b : Bitwise} {m : Minter} {x : Node} {queue : List Node}

theorem combine_mints : m.Mints ((b.combine m x queue).operations.map Operation.dest)
    (b.combine m x queue).minter := by
  fun_induction combine b m x queue with
  | case1 m x => exact .nil m
  | case2 m x y t m' hmint =>
    obtain rfl : (m.mint x).1 = t := by rw [hmint]
    obtain rfl : (m.mint x).2 = m' := by rw [hmint]
    exact .cons x (.nil _)
  | case3 m x y z rest t m' hmint tree ih =>
    obtain rfl : (m.mint x).1 = t := by rw [hmint]
    obtain rfl : (m.mint x).2 = m' := by rw [hmint]
    exact .cons x ih

theorem eq_pair_of_mem_combine {op : Operation} (h : op ∈ (b.combine m x queue).operations) :
    ∃ t y z, op = b.pair t y z := by
  fun_induction combine b m x queue with
  | case1 m x => cases h
  | case2 m x y t m' hmint => exact ⟨t, x, y, List.mem_singleton.1 h⟩
  | case3 m x y z rest t m' hmint tree ih =>
    rcases List.mem_cons.1 h with rfl | h
    · exact ⟨t, x, y, rfl⟩
    · exact ih h

theorem opcode_of_mem_combine {op : Operation} (h : op ∈ (b.combine m x queue).operations) :
    op.opcode = b.opcode := by
  obtain ⟨t, y, z, rfl⟩ := eq_pair_of_mem_combine h
  rfl

theorem combine_straight {known : Node → Prop} (hx : known x) (hqueue : ∀ v ∈ queue, known v)
    (hnew : ∀ op ∈ (b.combine m x queue).operations, ¬known op.dest)
    (hnodup : ((b.combine m x queue).operations.map Operation.dest).Nodup) :
    Straight known (b.combine m x queue).operations := by
  fun_induction combine b m x queue generalizing known with
  | case1 m x => trivial
  | case2 m x y t m' hmint =>
    exact ⟨hnew _ List.mem_cons_self, by simp [pair, hx, hqueue y], trivial⟩
  | case3 m x y z rest t m' hmint tree =>
    rename_i ih
    obtain ⟨htree, hnodup⟩ := List.nodup_cons.1 hnodup
    refine ⟨hnew _ List.mem_cons_self, by simp [pair, hx, hqueue y], ih ?_ ?_ ?_ hnodup⟩
    · exact .inl (hqueue z (by simp))
    · intro v hv
      rcases List.mem_append.1 hv with hv | hv
      · exact .inl (hqueue v (by simp [hv]))
      · exact .inr (List.mem_singleton.1 hv)
    · rintro op hop (hk | heq)
      · exact hnew op (List.mem_cons_of_mem _ hop) hk
      · exact htree (List.mem_map.2 ⟨op, hop, heq⟩)

theorem combine_value {α : Type*} [BooleanAlgebra α] {ρ : Node → α}
    (h : ∀ op ∈ (b.combine m x queue).operations, ρ op.dest = b.fold (op.sources.map ρ)) :
    ρ (b.combine m x queue).root = b.fold ((x :: queue).map ρ) := by
  fun_induction combine b m x queue with
  | case1 m x => exact (b.fold_singleton (ρ x)).symm
  | case2 m x y t m' hmint => exact h _ List.mem_cons_self
  | case3 m x y z rest t m' hmint tree ih =>
    have ht : ρ t = b.join (ρ x) (ρ y) :=
      (h _ List.mem_cons_self).trans (congrArg _ (b.fold_singleton (ρ y)))
    calc ρ tree.root
        = b.fold ((z :: (rest ++ [t])).map ρ) :=
          ih fun op hop => h op (List.mem_cons_of_mem _ hop)
      _ = b.fold ((t :: z :: rest).map ρ) :=
          b.fold_perm ((List.perm_append_singleton t (z :: rest)).map ρ)
      _ = b.join (b.join (ρ x) (ρ y)) (b.fold ((z :: rest).map ρ)) := by
          rw [List.map_cons, fold_cons, ht]
      _ = b.fold ((x :: y :: z :: rest).map ρ) := b.join_assoc _ _ _

theorem combine_root : (b.combine m x queue).root ∈ x :: queue ∨
    (b.combine m x queue).root ∈ (b.combine m x queue).operations.map Operation.dest := by
  fun_induction combine b m x queue with
  | case1 m x => exact .inl List.mem_cons_self
  | case2 m x y t m' hmint => exact .inr List.mem_cons_self
  | case3 m x y z rest t m' hmint tree ih =>
    rcases ih with ih | ih
    · rcases List.mem_append.1 (List.cons_append ▸ ih : tree.root ∈ z :: rest ++ [t]) with ih | ih
      · exact .inl (by simp [List.mem_cons.1 ih])
      · exact .inr (by simp [pair, List.mem_singleton.1 ih])
    · exact .inr (List.mem_cons_of_mem _ ih)

theorem combine_sources {op : Operation} {v : Node} (h : op ∈ (b.combine m x queue).operations)
    (hv : v ∈ op.sources) :
    v ∈ x :: queue ∨ v ∈ (b.combine m x queue).operations.map Operation.dest := by
  fun_induction combine b m x queue with
  | case1 m x => cases h
  | case2 m x y t m' hmint =>
    rw [List.mem_singleton.1 h] at hv
    exact .inl hv
  | case3 m x y z rest t m' hmint tree ih =>
    rcases List.mem_cons.1 h with rfl | h
    · rcases List.mem_pair.1 hv with rfl | rfl
      · exact .inl List.mem_cons_self
      · exact .inl (List.mem_cons_of_mem _ List.mem_cons_self)
    · rcases ih h with hv | hv
      · rcases List.mem_append.1 (List.cons_append ▸ hv : v ∈ z :: rest ++ [t]) with hv | hv
        · exact .inl (List.mem_cons_of_mem _ (List.mem_cons_of_mem _ hv))
        · exact .inr (by simp [pair, List.mem_singleton.1 hv])
      · exact .inr (List.mem_cons_of_mem _ hv)

theorem width_of_mem_combine {t y z : Node} (h : b.pair t y z ∈ (b.combine m x queue).operations) :
    t.width = y.width := by
  fun_induction combine b m x queue with
  | case1 m x => cases h
  | case2 m x y' t' m' hmint =>
    cases List.mem_singleton.1 h
    exact Minter.mint_width hmint
  | case3 m x y' z' rest t' m' hmint tree ih =>
    rcases List.mem_cons.1 h with heq | h
    · cases heq
      exact Minter.mint_width hmint
    · exact ih h

theorem combine_width {op : Operation} (h : op ∈ (b.combine m x queue).operations) :
    ∃ v ∈ x :: queue, op.dest.width = v.width := by
  fun_induction combine b m x queue with
  | case1 m x => cases h
  | case2 m x y t m' hmint =>
    rw [List.mem_singleton.1 h]
    exact ⟨x, List.mem_cons_self, Minter.mint_width hmint⟩
  | case3 m x y z rest t m' hmint tree ih =>
    have ht : t.width = x.width := Minter.mint_width hmint
    rcases List.mem_cons.1 h with rfl | h
    · exact ⟨x, List.mem_cons_self, ht⟩
    · obtain ⟨v, hv, hw⟩ := ih h
      by_cases hvt : v = t
      · exact ⟨x, List.mem_cons_self, hw.trans (hvt ▸ ht)⟩
      · refine ⟨v, ?_, hw⟩
        simp only [List.mem_cons, List.mem_append, List.not_mem_nil, or_false, hvt] at hv ⊢
        tauto

end Netlist.Bitwise
