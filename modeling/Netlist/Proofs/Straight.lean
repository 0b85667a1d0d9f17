import Mathlib.Algebra.Order.Field.Basic
import Mathlib.Algebra.Order.Field.Rat
import Netlist.Proofs.Order

/-!
# Straight lines of operations

Operations form a straight line over some known nodes if each of them reads only what is known or
has been computed before it, and its destination is new. Whatever values the known nodes have, and
whatever function of its sources each operation computes, there is exactly one way to give values to
the destinations. If the known nodes that are read have ranks below a bound, the destinations can be
ranked below the same bound, since there are rationals between any two.
-/

namespace Netlist

def Straight (known : Node → Prop) : List Operation → Prop
  | [] => True
  | op :: ops =>
    ¬known op.dest ∧ (∀ v ∈ op.sources, known v) ∧ Straight (fun v => known v ∨ v = op.dest) ops

namespace Straight

variable {α : Type*} {known : Node → Prop} {ops ops' : List Operation}

theorem append_iff : Straight known (ops ++ ops') ↔
    Straight known ops ∧ Straight (fun v => known v ∨ v ∈ ops.map Operation.dest) ops' := by
  induction ops generalizing known with
  | nil => simp [Straight]
  | cons op ops ih =>
    simp only [List.cons_append, Straight, ih, List.map_cons, List.mem_cons, or_assoc, and_assoc]

/-- Operations that read known nodes only and define different new ones. -/
theorem of_known (hnodup : (ops.map Operation.dest).Nodup) (hnew : ∀ op ∈ ops, ¬known op.dest)
    (h : ∀ op ∈ ops, ∀ v ∈ op.sources, known v) : Straight known ops := by
  induction ops generalizing known with
  | nil => trivial
  | cons op ops ih =>
    obtain ⟨hdest, hnodup⟩ := List.nodup_cons.1 hnodup
    refine ⟨hnew op List.mem_cons_self, h op List.mem_cons_self, ih hnodup ?_ ?_⟩
    · rintro p hp (hk | heq)
      · exact hnew p (List.mem_cons_of_mem op hp) hk
      · exact hdest (heq ▸ List.mem_map_of_mem hp)
    · intro p hp v hv
      exact .inl (h p (List.mem_cons_of_mem op hp) v hv)

theorem known_of_mem (h : Straight known ops) {op : Operation} (hop : op ∈ ops) {v : Node}
    (hv : v ∈ op.sources) : known v ∨ v ∈ ops.map Operation.dest := by
  induction ops generalizing known with
  | nil => cases hop
  | cons p ops ih =>
    obtain ⟨_, hknown, hrest⟩ := h
    rcases List.mem_cons.1 hop with rfl | hop
    · exact .inl (hknown v hv)
    · rcases ih hrest hop with (hk | rfl) | hmem
      · exact .inl hk
      · exact .inr List.mem_cons_self
      · exact .inr (List.mem_cons_of_mem _ hmem)

theorem not_known (h : Straight known ops) {op : Operation} (hop : op ∈ ops) : ¬known op.dest := by
  induction ops generalizing known with
  | nil => cases hop
  | cons p ops ih =>
    obtain ⟨hnew, _, hrest⟩ := h
    rcases List.mem_cons.1 hop with rfl | hop
    · exact hnew
    · exact fun hk => ih hrest hop (.inl hk)

theorem exists_extension (h : Straight known ops) (f : Operation → List α → α)
    (ρ : Node → α) :
    ∃ ρ', (∀ v, known v → ρ' v = ρ v) ∧ ∀ op ∈ ops, ρ' op.dest = f op (op.sources.map ρ') := by
  induction ops generalizing known ρ with
  | nil => exact ⟨ρ, fun _ _ => rfl, by simp⟩
  | cons op ops ih =>
    obtain ⟨hnew, hknown, hrest⟩ := h
    let ρ₁ := Function.update ρ op.dest (f op (op.sources.map ρ))
    have hρ₁ (v : Node) (hv : known v) : ρ₁ v = ρ v :=
      Function.update_of_ne (fun he : v = op.dest => hnew (he ▸ hv)) _ _
    obtain ⟨ρ', hagree, hvalue⟩ := ih hrest ρ₁
    have hρ' (v : Node) (hv : known v) : ρ' v = ρ v := (hagree v (.inl hv)).trans (hρ₁ v hv)
    refine ⟨ρ', hρ', ?_⟩
    intro op' hop'
    rcases List.mem_cons.1 hop' with rfl | hop'
    · have hs : op'.sources.map ρ' = op'.sources.map ρ :=
        List.map_congr_left fun v hv => hρ' v (hknown v hv)
      rw [hagree op'.dest (.inr rfl), hs]
      exact Function.update_self _ _ _
    · exact hvalue op' hop'

theorem eq_on_dests (h : Straight known ops) {f : List α → α} {ρ σ : Node → α}
    (hk : ∀ v, known v → ρ v = σ v) (hρ : ∀ op ∈ ops, ρ op.dest = f (op.sources.map ρ))
    (hσ : ∀ op ∈ ops, σ op.dest = f (op.sources.map σ)) : ∀ op ∈ ops, ρ op.dest = σ op.dest := by
  induction ops generalizing known with
  | nil => simp
  | cons op ops ih =>
    obtain ⟨_, hknown, hrest⟩ := h
    have hop : ρ op.dest = σ op.dest := by
      have hs : op.sources.map ρ = op.sources.map σ :=
        List.map_congr_left fun v hv => hk v (hknown v hv)
      rw [hρ op List.mem_cons_self, hσ op List.mem_cons_self, hs]
    have hk' (v : Node) (hv : known v ∨ v = op.dest) : ρ v = σ v := by
      rcases hv with hv | rfl
      · exact hk v hv
      · exact hop
    have hrest := ih hrest hk' (fun p hp => hρ p (List.mem_cons_of_mem op hp))
      (fun p hp => hσ p (List.mem_cons_of_mem op hp))
    intro p hp
    rcases List.mem_cons.1 hp with rfl | hp
    · exact hop
    · exact hrest p hp

theorem exists_bound {l : List Node} {rank : Node → ℚ} {c : ℚ} (h : ∀ v ∈ l, rank v < c) :
    ∃ y < c, ∀ v ∈ l, rank v < y := by
  induction l with
  | nil =>
    obtain ⟨y, hy⟩ := exists_lt c
    exact ⟨y, hy, by simp⟩
  | cons v l ih =>
    obtain ⟨y, hy, hl⟩ := ih fun u hu => h u (List.mem_cons_of_mem v hu)
    obtain ⟨z, hz, hzc⟩ := exists_between (max_lt hy (h v List.mem_cons_self))
    rw [max_lt_iff] at hz
    exact ⟨z, hzc, List.forall_mem_cons.2 ⟨hz.2, fun u hu => (hl u hu).trans hz.1⟩⟩

theorem exists_rank (h : Straight known ops) {rank : Node → ℚ} {c : ℚ}
    (hc : ∀ op ∈ ops, ∀ v ∈ op.sources, known v → rank v < c) :
    ∃ rank' : Node → ℚ, (∀ v, known v → rank' v = rank v) ∧ Ranked rank' ops ∧
      ∀ op ∈ ops, rank' op.dest < c := by
  induction ops generalizing known rank with
  | nil => exact ⟨rank, fun _ _ => rfl, by simp [Ranked], by simp⟩
  | cons op ops ih =>
    obtain ⟨hnew, hknown, hrest⟩ := h
    obtain ⟨y, hy, hlt⟩ :=
      exists_bound fun v hv => hc op List.mem_cons_self v hv (hknown v hv)
    let rank₁ := Function.update rank op.dest y
    have hold (v : Node) (hv : known v) : rank₁ v = rank v :=
      Function.update_of_ne (fun he : v = op.dest => hnew (he ▸ hv)) _ _
    have hself : rank₁ op.dest = y := Function.update_self _ _ _
    have hc₁ : ∀ p ∈ ops, ∀ v ∈ p.sources, known v ∨ v = op.dest → rank₁ v < c := by
      intro p hp v hv hkv
      rcases hkv with hkv | rfl
      · rw [hold v hkv]
        exact hc p (List.mem_cons_of_mem op hp) v hv hkv
      · rw [hself]
        exact hy
    obtain ⟨rank', hagree, hranked, hbound⟩ := ih hrest hc₁
    have hdest : rank' op.dest = y := (hagree _ (.inr rfl)).trans hself
    have hsame (v : Node) (hv : known v) : rank' v = rank v :=
      (hagree v (.inl hv)).trans (hold v hv)
    refine ⟨rank', hsame, ?_, ?_⟩
    · intro p hp v hv
      rcases List.mem_cons.1 hp with rfl | hp
      · rw [hdest, hsame v (hknown v hv)]
        exact hlt v hv
      · exact hranked p hp v hv
    · intro p hp
      rcases List.mem_cons.1 hp with rfl | hp
      · rw [hdest]
        exact hy
      · exact hbound p hp

theorem acyclic (h : Straight known ops) : Acyclic ops := by
  have hbelow : ∀ op ∈ ops, ∀ v ∈ op.sources, known v → (0 : Node → ℚ) v < 1 := by simp
  obtain ⟨rank, -, hranked, -⟩ := h.exists_rank hbelow
  exact hranked.acyclic

end Straight

end Netlist
