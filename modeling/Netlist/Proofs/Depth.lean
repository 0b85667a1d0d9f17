import Mathlib
import Netlist.Proofs.Replacement
import Netlist.Proofs.Unfolding

/-!
# The depth of balanced trees

A tree is built from a queue, and the queue holds nodes of two heights at most: those of the lower
height come first, and what is made from them is put behind those of the greater. So the height of
the root is known before the tree is built, and for `k` leaves it is the least `n` with `k ≤ 2 ^ n`.

No circuit of operations with two sources can be shallower. Such operations in a chain of length `n`
at most unfold to `2 ^ n` leaves at most, and the search finds each of these once or not at all.
-/

namespace Netlist

/-- A path from a node down to another through a number of nodes that are new in a circuit, each of
which depends on the next. -/
inductive Descent (g r : Graph) : ℕ → Node → Node → Prop
  | here (v : Node) : Descent g r 0 v v
  | step {n : ℕ} {t u v : Node} : t ∉ g.nodes → DependsOn r.operations t u → Descent g r n u v →
      Descent g r (n + 1) t v

namespace Bitwise

variable {b : Bitwise} {g r : Graph} {ops : List Operation} {op p : Operation} {m : Minter}
  {x t v : Node} {queue vs us : List Node} {height : Node → ℕ} {n i j : ℕ} {l : List ℕ}
  {kept : List Operation} {rewrites : List Rewrite} {w : Rewrite}

/-- A number of operations of a connective of which each reads the next, up to a last one that reads
all others, directly or through others. -/
inductive Chain (b : Bitwise) (ops : List Operation) : ℕ → Operation → Prop
  | single {op : Operation} : op ∈ b.within ops → Chain b ops 1 op
  | cons {n : ℕ} {op p : Operation} : op ∈ b.within ops → p.dest ∈ op.sources → Chain b ops n p →
      Chain b ops (n + 1) op

theorem clog_two_eq_succ {k : ℕ} (hk : 2 ≤ k) : Nat.clog 2 k = Nat.clog 2 ((k + 1) / 2) + 1 :=
  Nat.clog_of_two_le Nat.one_lt_two hk

/-- Heights in a queue from which a tree of height `n` will be built. -/
def Staged (n : ℕ) (l : List ℕ) : Prop :=
  ∃ k a c, l = List.replicate (a + 1) k ++ List.replicate c (k + 1) ∧
    n = k + Nat.clog 2 (a + 1 + 2 * c)

theorem staged_leaves (k : ℕ) : Staged (Nat.clog 2 (k + 1)) (List.replicate (k + 1) 0) :=
  ⟨0, k, 0, by simp, by simp⟩

theorem Staged.eq_of_singleton (h : Staged n [i]) : i = n := by
  obtain ⟨k, a, c, hl, rfl⟩ := h
  have hlength := congrArg List.length hl
  rw [List.length_append, List.length_replicate, List.length_replicate,
    List.length_singleton] at hlength
  obtain ⟨rfl, rfl⟩ : a = 0 ∧ c = 0 := by omega
  simpa using hl

/-- Taking two nodes off the queue and putting one above them at its end does not change what comes
of the queue. -/
theorem Staged.step (h : Staged n (i :: j :: l)) : Staged n (l ++ [max i j + 1]) := by
  obtain ⟨k, a, c, hl, rfl⟩ := h
  cases a with
  | zero =>
    cases c with
    | zero => simp at hl
    | succ c =>
      obtain ⟨rfl, rfl, rfl⟩ : i = k ∧ j = k + 1 ∧ l = List.replicate c (k + 1) := by
        simpa [List.replicate_succ] using hl
      have hmax : max i (i + 1) + 1 = i + 2 := by omega
      have hclog : Nat.clog 2 (0 + 1 + 2 * (c + 1)) = Nat.clog 2 (c + 2) + 1 := by
        rw [clog_two_eq_succ (by omega)]
        congr 2
        omega
      rw [hmax, hclog]
      cases c with
      | zero => exact ⟨i + 2, 0, 0, rfl, by rw [clog_two_eq_succ (by omega)]; simp⟩
      | succ c => exact ⟨i + 1, c, 1, rfl, by rw [show c + 1 + 2 * 1 = c + 1 + 2 by omega]; omega⟩
  | succ a =>
    obtain ⟨rfl, rfl, rfl⟩ : i = k ∧ j = k ∧
        l = List.replicate a k ++ List.replicate c (k + 1) := by
      simpa [List.replicate_succ] using hl
    rw [max_self, List.append_assoc, ← List.replicate_succ']
    cases a with
    | zero =>
      refine ⟨j + 1, c, 0, by simp, ?_⟩
      rw [clog_two_eq_succ (by omega), show (0 + 1 + 1 + 2 * c + 1) / 2 = c + 1 + 2 * 0 by omega]
      omega
    | succ a =>
      exact ⟨j, a, c + 1, rfl, by rw [show a + 1 + 1 + 1 + 2 * c = a + 1 + 2 * (c + 1) by omega]⟩

theorem combine_height
    (hpair : ∀ t y z, b.pair t y z ∈ (b.combine m x queue).operations →
      height t = max (height y) (height z) + 1)
    (h : Staged n ((x :: queue).map height)) : height (b.combine m x queue).root = n := by
  fun_induction combine b m x queue with
  | case1 m x => exact h.eq_of_singleton
  | case2 m x y t m' hmint =>
    have hstep := h.step
    rw [← hpair t x y List.mem_cons_self] at hstep
    exact hstep.eq_of_singleton
  | case3 m x y z rest t m' hmint tree ih =>
    refine ih (fun t y z hmem => hpair t y z (List.mem_cons_of_mem _ hmem)) ?_
    have hstep := h.step
    rw [← hpair t x y List.mem_cons_self] at hstep
    simpa using hstep

namespace Balancing

variable (h : Balancing b g r kept rewrites)

include h

theorem exists_height : ∃ height : Node → ℕ, (∀ v ∈ g.nodes, height v = 0) ∧
    ∀ t y z, b.pair t y z ∈ b.trees rewrites → height t = max (height y) (height z) + 1 := by
  obtain ⟨height, hold, hnew⟩ :=
    h.straight_nodes.exists_extension (fun _ (l : List ℕ) => l.foldr max 0 + 1) 0
  refine ⟨height, hold, fun t y z hmem => ?_⟩
  have hheight := hnew _ hmem
  simpa [pair] using hheight

variable (hpair : ∀ t y z, b.pair t y z ∈ b.trees rewrites →
  height t = max (height y) (height z) + 1)

include hpair

theorem descent_le (hd : Descent g r n t v) : n ≤ height t := by
  induction hd with
  | here v => exact Nat.zero_le _
  | @step n t u v hnew hread _ ih =>
    obtain ⟨op, hop, rfl, hu⟩ := hread
    have hmem := h.mem_trees.2 ⟨hop, hnew⟩
    obtain ⟨w, -, htree⟩ := List.mem_flatMap.1 hmem
    obtain ⟨t, y, z, rfl⟩ := eq_pair_of_mem_combine htree
    have hheight := hpair t y z hmem
    change n + 1 ≤ height t
    rcases List.mem_pair.1 hu with rfl | rfl <;> omega

/-- From each node of a tree a path through as many temporaries as its height leads to a leaf. -/
theorem exists_descent (hzero : ∀ v ∈ g.nodes, height v = 0) (hw : w ∈ rewrites)
    (ht : t ∈ w.leaves ∨ t ∈ w.temporaries b) : ∃ v ∈ w.leaves, Descent g r (height t) t v := by
  induction hn : height t generalizing t with
  | zero =>
    rcases ht with ht | ht
    · exact ⟨t, ht, .here t⟩
    · obtain ⟨op, hop, rfl⟩ := List.mem_map.1 ht
      obtain ⟨t, y, z, rfl⟩ := eq_pair_of_mem_combine hop
      have hheight := hpair t y z (List.mem_flatMap.2 ⟨w, hw, hop⟩)
      change height t = 0 at hn
      omega
  | succ n ih =>
    rcases ht with ht | ht
    · have hheight := hzero t (h.leaf_mem_nodes hw ht)
      omega
    · have hnew := h.notMem_nodes (temporary_mem hw ht)
      obtain ⟨op, hop, rfl⟩ := List.mem_map.1 ht
      obtain ⟨t, y, z, rfl⟩ := eq_pair_of_mem_combine hop
      have hmem : b.pair t y z ∈ b.trees rewrites := List.mem_flatMap.2 ⟨w, hw, hop⟩
      have hheight := hpair t y z hmem
      change height t = n + 1 at hn
      obtain ⟨u, hu, hun⟩ : ∃ u ∈ [y, z], height u = n := by
        rcases le_total (height y) (height z) with hle | hle
        · exact ⟨z, by simp, by omega⟩
        · exact ⟨y, by simp, by omega⟩
      obtain ⟨v, hv, hd⟩ := ih (combine_sources hop hu) hun
      exact ⟨v, hv, .step hnew ⟨_, (h.mem_trees.1 hmem).1, rfl, hu⟩ hd⟩

omit hpair

theorem isGreatest_descent (hw : w ∈ rewrites) :
    IsGreatest {n | ∃ v ∈ w.leaves, Descent g r n (w.tree b).root v}
      (Nat.clog 2 w.leaves.length) := by
  obtain ⟨height, hzero, hpair⟩ := h.exists_height
  have hleaves : w.leaves.map height = List.replicate (w.rest.length + 1) 0 := by
    rw [List.eq_replicate_iff]
    refine ⟨List.length_map height, fun k hk => ?_⟩
    obtain ⟨v, hv, rfl⟩ := List.mem_map.1 hk
    exact hzero v (h.leaf_mem_nodes hw hv)
  have hroot : height (w.tree b).root = Nat.clog 2 w.leaves.length :=
    combine_height (fun t y z hmem => hpair t y z (List.mem_flatMap.2 ⟨w, hw, hmem⟩))
      (hleaves ▸ staged_leaves w.rest.length)
  refine ⟨?_, ?_⟩
  · have hd := h.exists_descent hpair hzero hw combine_root
    rwa [← hroot]
  · rintro n ⟨v, -, hd⟩
    exact hroot ▸ h.descent_le hpair hd

end Balancing

theorem Chain.mono {ops' : List Operation} (hsub : ops ⊆ ops') (h : b.Chain ops n op) :
    b.Chain ops' n op := by
  have hwithin (p : Operation) (hp : p ∈ b.within ops) : p ∈ b.within ops' :=
    mem_within.2 ⟨hsub (mem_within.1 hp).1, (mem_within.1 hp).2⟩
  induction h with
  | single hop => exact .single (hwithin _ hop)
  | cons hop hread _ ih => exact .cons (hwithin _ hop) hread ih

theorem Chain.last_mem (h : b.Chain ops n op) : op ∈ b.within ops := by
  cases h <;> assumption

theorem Sorted.chain_le {l : List Operation} (hs : SingleAssignment ops) (h : Sorted b ops l)
    (hop : op ∈ l) (hc : b.Chain ops n op) : n ≤ l.length := by
  induction l generalizing op n with
  | nil => cases hop
  | cons p l ih =>
    obtain ⟨-, hread, hsorted⟩ := h
    rw [List.length_cons]
    rcases List.mem_cons.1 hop with rfl | hop
    · cases hc with
      | single => omega
      | @cons n _ q _ hq hchain =>
        obtain ⟨hqmem, hqc⟩ := mem_within.1 hchain.last_mem
        have hinner : b.inner? ops q.dest = some q := (inner?_eq_some hs).2 ⟨hqmem, rfl, hqc⟩
        have := ih hsorted (hread _ hq q hinner) hchain
        omega
    · have := ih hsorted hop hc
      omega

/-- Nodes below which there are chains of length `n` at most unfold to `2 ^ n` leaves each, if no
operation has more than two sources. -/
theorem Unfolds.length_le (hbinary : ∀ p ∈ b.within ops, p.sources.length ≤ 2)
    (h : b.Unfolds ops vs us)
    (hchain : ∀ v ∈ vs, ∀ p, b.inner? ops v = some p → ∀ k, b.Chain ops k p → k ≤ n) :
    us.length ≤ vs.length * 2 ^ n := by
  induction h generalizing n with
  | nil => simp
  | leaf hv _ ih =>
    have hrest := ih (List.forall_mem_cons.1 hchain).2
    have hone := Nat.one_le_two_pow (n := n)
    rw [List.length_cons, List.length_cons, Nat.succ_mul]
    omega
  | @inner v p vs us us' hv _ _ ihp ih =>
    obtain ⟨hp, hvs⟩ := List.forall_mem_cons.1 hchain
    obtain ⟨hmem, -, hc⟩ := inner?_spec hv
    have hwithin := mem_within.2 ⟨hmem, hc⟩
    have hpos : 0 < n := hp p hv 1 (.single hwithin)
    obtain ⟨n, rfl⟩ := Nat.exists_eq_succ_of_ne_zero hpos.ne'
    have hbelow : us.length ≤ p.sources.length * 2 ^ n := by
      refine ihp fun u hu q hq k hk => ?_
      have := hp p hv (k + 1) (.cons hwithin ((inner?_spec hq).2.1 ▸ hu) hk)
      omega
    have hrest := ih hvs
    have hsources := Nat.mul_le_mul_right (2 ^ n) (hbinary p hwithin)
    rw [List.length_append, List.length_cons, Nat.succ_mul, Nat.pow_succ]
    rw [Nat.pow_succ] at hrest
    omega

theorem Chain.of_component {comps : List Component} {c : Component}
    (hpart : g.Partition (·.operation.opcode = b.opcode) comps) (hc : c ∈ comps)
    (hop : op ∈ c.operations) (h : b.Chain g.operations n op) : b.Chain c.operations n op := by
  induction h with
  | single hmem => exact .single (mem_within.2 ⟨hop, (mem_within.1 hmem).2⟩)
  | @cons n op p hmem hread hchain ih =>
    obtain ⟨hg, hopcode⟩ := mem_within.1 hmem
    have hp : p ∈ c.operations := (hpart.mem_iff_of_read hc hg
      (mem_within.1 hchain.last_mem).1 hread (by simpa using hopcode)).1 hop
    exact .cons (mem_within.2 ⟨hop, hopcode⟩) hread (ih hp)

theorem exists_isGreatest_chain (hs : SingleAssignment ops) (hop : op ∈ ops)
    (hc : op.opcode = b.opcode) (h : b.leaves ops op = .ok vs) :
    ∃ n, IsGreatest {n | b.Chain ops n op} n := by
  obtain ⟨w, l, hg, hl, -⟩ := leaves_eq_ok hop hc h
  refine BddAbove.exists_isGreatest_of_nonempty ⟨w.finished.length, fun n hn => ?_⟩
    ⟨1, .single (mem_within.2 ⟨hop, hc⟩)⟩
  exact hg.settled.sorted.chain_le hs (hl ▸ List.mem_cons_self) hn

/-- A tree over the leaves of an operation is not deeper than the longest chain up to it, if no
operation has more than two sources. -/
theorem clog_length_leaves_le (hs : SingleAssignment ops) (hop : op ∈ ops)
    (hc : op.opcode = b.opcode) (hbinary : ∀ p ∈ b.within ops, p.sources.length ≤ 2)
    (h : b.leaves ops op = .ok vs) (hchain : ∀ k, b.Chain ops k op → k ≤ n) :
    Nat.clog 2 vs.length ≤ n := by
  have hroot : b.inner? ops op.dest = some op := (inner?_eq_some hs).2 ⟨hop, rfl, hc⟩
  obtain ⟨w, l, hg, hl, -⟩ := leaves_eq_ok hop hc h
  obtain ⟨us, hus⟩ := hg.settled.sorted.exists_unfolds (hl ▸ List.mem_cons_self)
  have hsub : vs ⊆ us := by
    intro v hv
    have hcounts := (mem_leaves_iff hroot h hus).1 hv
    exact hcounts.mem
  have hvs : vs.length ≤ us.length := ((nodup_leaves hop hc h).subperm hsub).length_le
  have htree := (Unfolds.inner_single hroot hus).length_le hbinary (n := n) fun v hv p hp k hk => by
    rw [List.mem_singleton.1 hv, hroot] at hp
    cases hp
    exact hchain k hk
  rw [List.length_singleton, Nat.one_mul] at htree
  exact Nat.clog_le_of_le_pow (hvs.trans htree)

/-- In the place of an operation that is rewritten over `k` leaves a balanced circuit copies the
root of a tree. The longest path through temporaries from the root to a leaf passes through exactly
`⌈log₂ k⌉` of them. There is a longest chain of operations of the connective that ends at the
rewritten operation, and if none of them has more than two sources, it is not shorter than that. -/
theorem balanced_depth_is_logarithmic (h : b.balance g = .ok r) :
    ∃ comps, g.components (·.operation.opcode = b.opcode) = .ok comps ∧
      ∀ op vs, b.Rewritten comps op vs → ∃ root, op.copyOf root ∈ r.operations ∧
        IsGreatest {n | ∃ v ∈ vs, Descent g r n root v} (Nat.clog 2 vs.length) ∧
        ∃ n, IsGreatest {n | b.Chain g.operations n op} n ∧
          ((∀ p ∈ g.operations, p.opcode = b.opcode → p.sources.length ≤ 2) →
            Nat.clog 2 vs.length ≤ n) := by
  obtain ⟨comps, kept, rewrites, hcomps, hb, -, hrewritten⟩ := exists_rewrites h
  obtain ⟨hs, hpart⟩ := Graph.partition_of_components hcomps
  refine ⟨comps, hcomps, fun op vs hvs => ?_⟩
  obtain ⟨w, hw, rfl, rfl⟩ := (hrewritten op vs).1 hvs
  obtain ⟨c, hc, hop, -, hopcode, -, hleaves, -⟩ := hvs
  have hsub : c.operations.Sublist g.operations := by
    rw [hpart.operations c hc]
    exact List.filter_sublist
  have hchains : {n | b.Chain g.operations n w.operation} =
      {n | b.Chain c.operations n w.operation} :=
    Set.ext fun n => ⟨Chain.of_component hpart hc hop, Chain.mono hsub.subset⟩
  obtain ⟨n, hn⟩ := exists_isGreatest_chain (hs.sublist hsub) hop hopcode hleaves
  refine ⟨(w.tree b).root, hb.mem_result.2 (.inr (.inr ⟨w, hw, rfl⟩)), hb.isGreatest_descent hw,
    n, hchains ▸ hn, fun hbinary => ?_⟩
  refine clog_length_leaves_le (hs.sublist hsub) hop hopcode (fun p hp => ?_) hleaves
    fun k hk => hn.2 hk
  obtain ⟨hp, hpc⟩ := mem_within.1 hp
  exact hbinary p (hsub.subset hp) hpc

def fiveTermsTop : Operation :=
  ⟨⟨"s", 8, .wire, 0⟩, 8, .xor, [⟨"v", 8, .wire, 0⟩, ⟨"e", 8, .wire, 0⟩]⟩

/-- A chain of four sums of five terms. -/
def fiveTerms : Graph where
  operations :=
    [⟨⟨"t", 8, .wire, 0⟩, 8, .xor, [⟨"a", 8, .wire, 0⟩, ⟨"b", 8, .wire, 0⟩]⟩,
      ⟨⟨"u", 8, .wire, 0⟩, 8, .xor, [⟨"t", 8, .wire, 0⟩, ⟨"c", 8, .wire, 0⟩]⟩,
      ⟨⟨"v", 8, .wire, 0⟩, 8, .xor, [⟨"u", 8, .wire, 0⟩, ⟨"d", 8, .wire, 0⟩]⟩,
      fiveTermsTop]

/-- The tree of the five terms has three levels. -/
def fiveTermsBalanced : Graph where
  operations :=
    [⟨⟨"OPT0_0", 8, .wire, 1⟩, 8, .xor, [⟨"a", 8, .wire, 0⟩, ⟨"b", 8, .wire, 0⟩]⟩,
      ⟨⟨"OPT0_1", 8, .wire, 1⟩, 8, .xor, [⟨"c", 8, .wire, 0⟩, ⟨"d", 8, .wire, 0⟩]⟩,
      ⟨⟨"OPT0_2", 8, .wire, 1⟩, 8, .xor, [⟨"e", 8, .wire, 0⟩, ⟨"OPT0_0", 8, .wire, 1⟩]⟩,
      ⟨⟨"OPT0_3", 8, .wire, 1⟩, 8, .xor, [⟨"OPT0_1", 8, .wire, 1⟩, ⟨"OPT0_2", 8, .wire, 1⟩]⟩,
      ⟨⟨"s", 8, .wire, 0⟩, 8, .mov, [⟨"OPT0_3", 8, .wire, 1⟩]⟩,
      ⟨⟨"t", 8, .wire, 0⟩, 8, .xor, [⟨"a", 8, .wire, 0⟩, ⟨"b", 8, .wire, 0⟩]⟩,
      ⟨⟨"u", 8, .wire, 0⟩, 8, .xor, [⟨"t", 8, .wire, 0⟩, ⟨"c", 8, .wire, 0⟩]⟩,
      ⟨⟨"v", 8, .wire, 0⟩, 8, .xor, [⟨"u", 8, .wire, 0⟩, ⟨"d", 8, .wire, 0⟩]⟩]
  generation := 1

def fiveTermsLeaves : List Node :=
  [⟨"a", 8, .wire, 0⟩, ⟨"b", 8, .wire, 0⟩, ⟨"c", 8, .wire, 0⟩,
    ⟨"d", 8, .wire, 0⟩, ⟨"e", 8, .wire, 0⟩]

theorem fiveTerms_depth_is_logarithmic :
    xor.balance fiveTerms = .ok fiveTermsBalanced ∧
      xor.leaves fiveTerms.operations fiveTermsTop = .ok fiveTermsLeaves ∧
      ∃ root n, fiveTermsTop.copyOf root ∈ fiveTermsBalanced.operations ∧
        IsGreatest {n | ∃ v ∈ fiveTermsLeaves, Descent fiveTerms fiveTermsBalanced n root v} 3 ∧
        IsGreatest {n | xor.Chain fiveTerms.operations n fiveTermsTop} n ∧ 3 ≤ n := by
  have hbalance : xor.balance fiveTerms = .ok fiveTermsBalanced := by cbv
  have hparts : fiveTerms.components (·.operation.opcode = xor.opcode) =
      .ok [⟨fiveTerms.nodes, fiveTerms.operations⟩] := by cbv
  have hleaves : xor.leaves fiveTerms.operations fiveTermsTop = .ok fiveTermsLeaves := by cbv
  have hclog : Nat.clog 2 fiveTermsLeaves.length = 3 := by
    simp [fiveTermsLeaves, clog_two_eq_succ]
  obtain ⟨comps, hcomps, hdepth⟩ := balanced_depth_is_logarithmic hbalance
  cases hparts.symm.trans hcomps
  obtain ⟨root, hroot, hpath, n, hn, hle⟩ := hdepth fiveTermsTop fiveTermsLeaves
    ⟨_, List.mem_singleton_self _, by decide, by decide, rfl, by decide, hleaves, by decide⟩
  rw [hclog] at hpath hle
  exact ⟨hbalance, hleaves, root, n, hroot, hpath, hn, hle (by decide)⟩

end Bitwise

end Netlist
