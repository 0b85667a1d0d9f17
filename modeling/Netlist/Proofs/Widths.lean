import Mathlib
import Netlist.Format.Parse
import Netlist.Format.Print
import Netlist.Proofs.Replacement
import Netlist.Proofs.Solutions

/-!
# Balancing and the widths of nodes

Here the values of nodes are numbers below `2 ^ w`, where `w` is the width of the node, and an
operation cuts off the bits beyond its own width. As long as no operation of a connective is
narrower than its sources, nothing is cut off, and bit by bit the connective is the one of a Boolean
algebra.

A temporary is only as wide as the first of its two sources. So a tree for `or` or `xor` computes
the connective on all values of its leaves exactly if each of its operations is as wide as the
second source too. One that is narrower loses the highest bit of a leaf. For `and` the first source
suffices, but an `and` without sources, which has all bits of its own width, is not among the leaves
and is missing in a wider one.
-/

namespace Netlist

open Relation

variable {g r : Graph} {op p : Operation} {ρ : Node → ℕ} {u v : Node} {vs : List Node}

/-- No source of an operation is wider than the operation. -/
def Operation.Carries (op : Operation) : Prop :=
  ∀ v ∈ op.sources, v.width.toNat ≤ op.width.toNat

instance (op : Operation) : Decidable op.Carries :=
  inferInstanceAs (Decidable (∀ v ∈ op.sources, v.width.toNat ≤ op.width.toNat))

/-- Every node of a circuit has a value of its width. -/
def Graph.Bounded (g : Graph) (ρ : Node → ℕ) : Prop := ∀ v ∈ g.nodes, ρ v < 2 ^ v.width.toNat

namespace Bitwise

def wordJoin : Bitwise → ℕ → ℕ → ℕ
  | and => (· &&& ·)
  | or => (· ||| ·)
  | xor => (· ^^^ ·)

def wordNeutral (w : ℕ) : Bitwise → ℕ
  | and => 2 ^ w - 1
  | or => 0
  | xor => 0

/-- The value of a connective of a width. -/
def word (b : Bitwise) (w : ℕ) (xs : List ℕ) : ℕ :=
  xs.foldr b.wordJoin (b.wordNeutral w) % 2 ^ w

end Bitwise

/-- The meaning of operations on numbers: connectives and copies cut their values off at the width
of the operation, and everything else means what a given meaning says. -/
def wordMeaning (M : Meaning ℕ) : Meaning ℕ := fun op x xs =>
  match Bitwise.ofOpcode? op.opcode, op.opcode, xs with
  | some b, _, xs => x = b.word op.width.toNat xs
  | none, .mov, [y] => x = y % 2 ^ op.width.toNat
  | none, _, xs => M op x xs

theorem wordMeaning_connective (M : Meaning ℕ) {b : Bitwise} {x : ℕ} {xs : List ℕ}
    (h : op.opcode = b.opcode) : wordMeaning M op x xs ↔ x = b.word op.width.toNat xs := by
  simp only [wordMeaning, Bitwise.ofOpcode?_eq_some.2 h]

theorem wordMeaning_copy (M : Meaning ℕ) {x y : ℕ} (h : op.opcode = .mov) :
    wordMeaning M op x [y] ↔ x = y % 2 ^ op.width.toNat := by
  simp [wordMeaning, h, Bitwise.ofOpcode?]

namespace Bitwise

variable {b : Bitwise} {w i x y : ℕ} {xs : List ℕ} {m : Minter} {a : Node}
  {queue : List Node} {kept : List Operation} {rewrites : List Rewrite}

theorem word_lt : b.word w xs < 2 ^ w := Nat.mod_lt _ (Nat.two_pow_pos w)

theorem testBit_wordJoin : (b.wordJoin x y).testBit i = b.join x.testBit y.testBit i := by
  cases b with
  | and => exact Nat.testBit_and x y i
  | or => exact Nat.testBit_or x y i
  | xor =>
    rw [wordJoin, Nat.testBit_xor]
    change (x.testBit i ^^ y.testBit i) = symmDiff (x.testBit i) (y.testBit i)
    cases x.testBit i <;> cases y.testBit i <;> rfl

theorem testBit_word : (b.word w xs).testBit i =
    (decide (i < w) && b.fold (xs.map Nat.testBit) i) := by
  rw [word, Nat.testBit_mod_two_pow]
  by_cases hi : i < w
  · simp only [hi, decide_true, Bool.true_and]
    induction xs with
    | nil => cases b <;> simp [wordNeutral, neutral, hi]
    | cons x xs ih =>
      rw [List.foldr_cons, testBit_wordJoin, List.map_cons, fold_cons]
      cases b <;> simp [join, symmDiff, ih]
  · simp [hi]

/-- A word of a width has room for the connective on some values. -/
def HasRoom (b : Bitwise) (w : ℕ) (xs : List ℕ) : Prop :=
  match b with
  | and => ∃ x ∈ xs, x < 2 ^ w
  | or => ∀ x ∈ xs, x < 2 ^ w
  | xor => ∀ x ∈ xs, x < 2 ^ w

theorem fold_eq_false_of_forall (hb : b ≠ and) {fs : List (ℕ → Bool)} (h : ∀ f ∈ fs, f i = false) :
    b.fold fs i = false := by
  induction fs with
  | nil =>
    cases b with
    | and => exact absurd rfl hb
    | or => rfl
    | xor => rfl
  | cons f fs ih =>
    obtain ⟨hf, hfs⟩ := List.forall_mem_cons.1 h
    rw [fold_cons]
    cases b with
    | and => exact absurd rfl hb
    | or => simp [join, hf, ih hfs]
    | xor => simp [join, symmDiff, hf, ih hfs]

theorem fold_and_eq_false {fs : List (ℕ → Bool)} {f : ℕ → Bool} (hf : f ∈ fs) (hi : f i = false) :
    and.fold fs i = false := by
  induction fs with
  | nil => cases hf
  | cons f' fs ih =>
    rw [fold_cons]
    rcases List.mem_cons.1 hf with rfl | hf
    · simp [join, hi]
    · simp [join, ih hf]

theorem HasRoom.fold_eq_false (h : b.HasRoom w xs) (hi : w ≤ i) :
    b.fold (xs.map Nat.testBit) i = false := by
  have hbit (x : ℕ) (hx : x < 2 ^ w) : x.testBit i = false :=
    Nat.testBit_lt_two_pow (hx.trans_le (Nat.pow_le_pow_right Nat.two_pos hi))
  have hall (h : ∀ x ∈ xs, x < 2 ^ w) : ∀ f ∈ xs.map Nat.testBit, f i = false :=
    List.forall_mem_map.2 fun x hx => hbit x (h x hx)
  cases b with
  | and =>
    obtain ⟨x, hx, hlt⟩ := h
    exact fold_and_eq_false (List.mem_map_of_mem hx) (hbit x hlt)
  | or => exact fold_eq_false_of_forall (by decide) (hall h)
  | xor => exact fold_eq_false_of_forall (by decide) (hall h)

theorem HasRoom.testBit_word (h : b.HasRoom w xs) :
    (b.word w xs).testBit = b.fold (xs.map Nat.testBit) := by
  funext i
  rw [Bitwise.testBit_word]
  by_cases hi : i < w
  · simp [hi]
  · simp [hi, h.fold_eq_false (not_lt.1 hi)]

theorem hasRoom_of_carries (hcarries : op.Carries)
    (hbound : ∀ v ∈ op.sources, ρ v < 2 ^ v.width.toNat) (hne : b = and → op.sources ≠ []) :
    b.HasRoom op.width.toNat (op.sources.map ρ) := by
  have hall : ∀ x ∈ op.sources.map ρ, x < 2 ^ op.width.toNat := by
    intro x hx
    obtain ⟨v, hv, rfl⟩ := List.mem_map.1 hx
    exact (hbound v hv).trans_le (Nat.pow_le_pow_right Nat.two_pos (hcarries v hv))
  cases b with
  | and =>
    obtain ⟨v, hv⟩ := List.exists_mem_of_ne_nil _ (hne rfl)
    exact ⟨ρ v, List.mem_map_of_mem hv, hall _ (List.mem_map_of_mem hv)⟩
  | or => exact hall
  | xor => exact hall

theorem map_testBit (l : List Node) :
    (l.map ρ).map Nat.testBit = l.map fun v => (ρ v).testBit := List.map_map

section Tree

variable (hbound : ∀ v ∈ a :: queue, ρ v < 2 ^ v.width.toNat)
  (htree : ∀ p ∈ (b.combine m a queue).operations,
    ρ p.dest = b.word p.width.toNat (p.sources.map ρ))

include hbound htree

theorem combine_bounded (hp : p ∈ (b.combine m a queue).operations) :
    ∀ v ∈ p.sources, ρ v < 2 ^ v.width.toNat := by
  intro v hv
  rcases combine_sources hp hv with hv | hv
  · exact hbound v hv
  · obtain ⟨q, hq, rfl⟩ := List.mem_map.1 hv
    have hvalue := htree q hq
    obtain ⟨t, y, z, rfl⟩ := eq_pair_of_mem_combine hq
    rw [hvalue]
    exact word_lt

/-- In a tree for `and`, and in any tree whose operations are wide enough, no bit is cut off. -/
theorem combine_bits (hwide : b = and ∨ ∀ p ∈ (b.combine m a queue).operations, p.Carries)
    (hp : p ∈ (b.combine m a queue).operations) :
    (ρ p.dest).testBit = b.fold (p.sources.map fun v => (ρ v).testBit) := by
  have hsources := combine_bounded hbound htree hp
  suffices hroom : b.HasRoom p.width.toNat (p.sources.map ρ) by
    rw [htree p hp, hroom.testBit_word, map_testBit]
  obtain ⟨t, y, z, rfl⟩ := eq_pair_of_mem_combine hp
  rcases hwide with rfl | hwide
  · -- The first source alone bounds the value.
    have hy := hsources y List.mem_cons_self
    rw [← width_of_mem_combine hp] at hy
    exact ⟨ρ y, List.mem_cons_self, hy⟩
  · exact hasRoom_of_carries (hwide _ hp) hsources fun _ => List.cons_ne_nil _ _

theorem root_bits (hwide : b = and ∨ ∀ p ∈ (b.combine m a queue).operations, p.Carries) :
    (ρ (b.combine m a queue).root).testBit =
      b.fold ((a :: queue).map fun v => (ρ v).testBit) :=
  combine_value (ρ := fun v => (ρ v).testBit) fun _ hp => combine_bits hbound htree hwide hp

end Tree

theorem mod_eq_word (h : x.testBit = b.fold (xs.map Nat.testBit)) : x % 2 ^ w = b.word w xs := by
  apply Nat.eq_of_testBit_eq
  intro i
  rw [Nat.testBit_mod_two_pow, testBit_word, h]

/-- The value at a node if all are zero but one, which has its highest bit. -/
def spike (u v : Node) : ℕ := if v = u then 2 ^ (u.width.toNat - 1) else 0

theorem spike_self (u : Node) : spike u u = 2 ^ (u.width.toNat - 1) := if_pos rfl

theorem spike_of_ne (h : v ≠ u) : spike u v = 0 := if_neg h

theorem spike_lt (hu : 0 < u.width.toNat) (v : Node) : spike u v < 2 ^ v.width.toNat := by
  unfold spike
  split_ifs with h
  · rw [h]
    exact Nat.pow_lt_pow_right Nat.one_lt_two (by omega)
  · exact Nat.two_pow_pos _

theorem wordJoin_zero (hb : b ≠ and) : b.wordJoin x 0 = x := by
  cases b with
  | and => exact absurd rfl hb
  | or => exact Nat.or_zero x
  | xor => exact Nat.xor_zero x

theorem zero_wordJoin (hb : b ≠ and) : b.wordJoin 0 x = x := by
  cases b with
  | and => exact absurd rfl hb
  | or => exact Nat.zero_or x
  | xor => exact Nat.zero_xor x

theorem wordNeutral_eq_zero (hb : b ≠ and) : b.wordNeutral w = 0 := by
  cases b with
  | and => exact absurd rfl hb
  | or => rfl
  | xor => rfl

theorem word_pair_zero (hb : b ≠ and) : b.word w [x, 0] = x % 2 ^ w := by
  simp only [word, List.foldr_cons, List.foldr_nil, wordNeutral_eq_zero hb, wordJoin_zero hb]

theorem word_zero_pair (hb : b ≠ and) : b.word w [0, x] = x % 2 ^ w := by
  simp only [word, List.foldr_cons, List.foldr_nil, wordNeutral_eq_zero hb, wordJoin_zero hb,
    zero_wordJoin hb]

theorem foldr_spike (hb : b ≠ and) (hnodup : vs.Nodup) :
    (vs.map (spike u)).foldr b.wordJoin 0 = if u ∈ vs then 2 ^ (u.width.toNat - 1) else 0 := by
  induction vs with
  | nil => rfl
  | cons v vs ih =>
    obtain ⟨hv, hnodup⟩ := List.nodup_cons.1 hnodup
    rw [List.map_cons, List.foldr_cons, ih hnodup]
    by_cases huv : u = v
    · rw [huv, if_neg hv, if_pos List.mem_cons_self, spike_self, wordJoin_zero hb]
    · simp only [spike_of_ne (Ne.symm huv), zero_wordJoin hb, List.mem_cons, huv, false_or]

theorem word_spike (hb : b ≠ and) (hnodup : vs.Nodup) (hu : u ∈ vs) :
    b.word w (vs.map (spike u)) = 2 ^ (u.width.toNat - 1) % 2 ^ w := by
  rw [word, wordNeutral_eq_zero hb, foldr_spike hb hnodup, if_pos hu]

theorem combine_zero (hb : b ≠ and) (hzero : ∀ v ∈ a :: queue, ρ v = 0)
    (htree : ∀ p ∈ (b.combine m a queue).operations,
      ρ p.dest = b.word p.width.toNat (p.sources.map ρ)) : ρ (b.combine m a queue).root = 0 := by
  fun_induction combine b m a queue with
  | case1 m a => exact hzero a List.mem_cons_self
  | case2 m a c t m' hmint =>
    have ht := htree (b.pair t a c) List.mem_cons_self
    simpa [pair, hzero, word_pair_zero hb] using ht
  | case3 m a c d rest t m' hmint tree ih =>
    have ht := htree (b.pair t a c) List.mem_cons_self
    have ht : ρ t = 0 := by simpa [pair, hzero, word_pair_zero hb] using ht
    refine ih ?_ fun p hp => htree p (List.mem_cons_of_mem _ hp)
    intro v hv
    rcases List.mem_append.1 (List.cons_append ▸ hv : v ∈ d :: rest ++ [t]) with hv | hv
    · exact hzero v (List.mem_cons_of_mem _ (List.mem_cons_of_mem _ hv))
    · rw [List.mem_singleton.1 hv, ht]

/-- The node is a leaf whose highest bit does not come through to the root of the tree. -/
def Loses (b : Bitwise) (m : Minter) (a : Node) (queue : List Node) (u : Node) : Prop :=
  u ∈ a :: queue ∧ 0 < u.width.toNat ∧ ∀ ρ : Node → ℕ, (∀ v ∈ a :: queue, ρ v = spike u v) →
    (∀ p ∈ (b.combine m a queue).operations, ρ p.dest = b.word p.width.toNat (p.sources.map ρ)) →
    ρ (b.combine m a queue).root = 0

section Pair

variable {m' : Minter} {c t : Node} (hmint : m.mint a = (t, m')) (hb : b ≠ and) (hac : a ≠ c)
  (hvalue : ρ t = b.word t.width.toNat [ρ a, ρ c])

include hmint

theorem lt_width_of_not_carries (h : ¬(b.pair t a c).Carries) : t.width.toNat < c.width.toNat := by
  by_contra hle
  apply h
  intro v hv
  rcases List.mem_pair.1 hv with rfl | rfl
  · exact (congrArg Int.toNat (Minter.mint_width hmint)).ge
  · exact not_lt.1 hle

include hb hac hvalue

theorem pair_loses (h : ¬(b.pair t a c).Carries) (ha : ρ a = spike c a) (hc : ρ c = spike c c) :
    ρ t = 0 := by
  have hlt := lt_width_of_not_carries hmint h
  rw [hvalue, ha, hc, spike_of_ne hac, word_zero_pair hb, spike_self]
  exact Nat.mod_eq_zero_of_dvd (Nat.pow_dvd_pow 2 (by omega))

theorem pair_passes (hpos : 0 < t.width.toNat) (ha : ρ a = spike a a) (hc : ρ c = spike a c) :
    ρ t = spike t t := by
  rw [hvalue, ha, hc, spike_of_ne hac.symm, word_pair_zero hb, spike_self, spike_self,
    ← Minter.mint_width hmint]
  exact Nat.mod_eq_of_lt (Nat.pow_lt_pow_right Nat.one_lt_two (by omega))

end Pair

section Queue

variable {m' : Minter} {c d t : Node} {rest : List Node} (hmint : m.mint a = (t, m'))
  (hb : b ≠ and) (hnodup : (a :: c :: d :: rest).Nodup)

include hmint hb hnodup

/-- Above an operation that cuts off the only bit everything is zero. -/
theorem loses_of_not_carries (h : ¬(b.pair t a c).Carries) : b.Loses m a (c :: d :: rest) c := by
  have hlt := lt_width_of_not_carries hmint h
  obtain ⟨hac, hc⟩ : a ≠ c ∧ c ∉ d :: rest := by grind
  refine ⟨by simp, by omega, fun ρ hρ htree => ?_⟩
  rw [combine, hmint] at htree ⊢
  have ht : ρ t = 0 := pair_loses hmint hb hac (htree _ List.mem_cons_self) h (hρ a (by simp))
    (hρ c (by simp))
  apply combine_zero hb _ fun p hp => htree p (List.mem_cons_of_mem _ hp)
  intro v hv
  rw [← List.cons_append, List.mem_append, List.mem_singleton] at hv
  rcases hv with hv | rfl
  · rw [hρ v (by simp [List.mem_cons.1 hv]), spike_of_ne fun he : v = c => hc (he ▸ hv)]
  · exact ht

/-- What the rest of the tree loses is lost in the whole tree, a bit of the temporary as one of its
first source. -/
theorem Loses.of_rest (htnew : t ∉ a :: c :: d :: rest) (h : b.Loses m' d (rest ++ [t]) u) :
    b.Loses m a (c :: d :: rest) (if u = t then a else u) := by
  obtain ⟨hu, hpos, hlost⟩ := h
  rw [← List.cons_append, List.mem_append, List.mem_singleton] at hu
  obtain ⟨hac, ha, hc⟩ : a ≠ c ∧ a ∉ d :: rest ∧ c ∉ d :: rest := by grind
  have hwidth := Minter.mint_width hmint
  have ht : t ∉ d :: rest := by
    intro hmem
    exact htnew (List.mem_cons_of_mem _ (List.mem_cons_of_mem _ hmem))
  refine ⟨by grind, by grind, fun ρ hρ htree => ?_⟩
  rw [combine, hmint] at htree ⊢
  have hvalue : ρ t = b.word t.width.toNat [ρ a, ρ c] := htree _ List.mem_cons_self
  refine hlost ρ (fun v hv => ?_) fun p hp => htree p (List.mem_cons_of_mem _ hp)
  rw [← List.cons_append, List.mem_append, List.mem_singleton] at hv
  by_cases hut : u = t
  · rw [if_pos hut] at hρ
    subst hut
    rcases hv with hv | rfl
    · rw [hρ v (by simp [List.mem_cons.1 hv]), spike_of_ne fun he : v = a => ha (he ▸ hv),
        spike_of_ne fun he : v = u => ht (he ▸ hv)]
    · exact pair_passes hmint hb hac hvalue hpos (hρ a (by simp)) (hρ c (by simp))
  · rw [if_neg hut] at hρ
    have hleaf := hu.resolve_right hut
    rcases hv with hv | rfl
    · exact hρ v (by simp [List.mem_cons.1 hv])
    · rw [hvalue, hρ a (by simp), hρ c (by simp), spike_of_ne fun he : a = u => ha (he ▸ hleaf),
        spike_of_ne fun he : c = u => hc (he ▸ hleaf), word_pair_zero hb, Nat.zero_mod,
        spike_of_ne (Ne.symm hut)]

end Queue

/-- A tree in which an operation is narrower than a source loses the highest bit of a leaf. -/
theorem exists_loses (hb : b ≠ and) (hnodup : (a :: queue).Nodup)
    (hnew : ∀ p ∈ (b.combine m a queue).operations, p.dest ∉ a :: queue)
    (hdests : ((b.combine m a queue).operations.map Operation.dest).Nodup)
    (hp : p ∈ (b.combine m a queue).operations) (hcarries : ¬p.Carries) :
    ∃ u, b.Loses m a queue u := by
  fun_induction combine b m a queue with
  | case1 m a => cases hp
  | case2 m a c t m' hmint =>
    rw [List.mem_singleton.1 hp] at hcarries
    have hlt := lt_width_of_not_carries hmint hcarries
    refine ⟨c, by simp, by omega, fun ρ hρ htree => ?_⟩
    rw [combine, hmint] at htree ⊢
    exact pair_loses hmint hb (by simpa using hnodup) (htree _ List.mem_cons_self) hcarries
      (hρ a (by simp)) (hρ c (by simp))
  | case3 m a c d rest t m' hmint tree ih =>
    rcases List.mem_cons.1 hp with rfl | hp
    · exact ⟨c, loses_of_not_carries hmint hb hnodup hcarries⟩
    · have htnew : t ∉ a :: c :: d :: rest := hnew _ List.mem_cons_self
      obtain ⟨htree, hdests⟩ := List.nodup_cons.1 hdests
      have hnodup' : (d :: (rest ++ [t])).Nodup := by grind
      have hnew' : ∀ p ∈ tree.operations, p.dest ∉ d :: (rest ++ [t]) := by
        intro p hp hmem
        rw [← List.cons_append, List.mem_append, List.mem_singleton] at hmem
        rcases hmem with hmem | hmem
        · apply hnew p (List.mem_cons_of_mem _ hp)
          exact List.mem_cons_of_mem _ (List.mem_cons_of_mem _ hmem)
        · exact htree (List.mem_map.2 ⟨p, hp, hmem⟩)
      obtain ⟨u, hu⟩ := ih hnodup' hnew' hdests hp
      exact ⟨_, hu.of_rest hmint hb hnodup htnew⟩

theorem width_le_of_reads {ops : List Operation} {q : Operation}
    (hcarries : ∀ p ∈ ops, p.opcode = b.opcode → p.Carries)
    (hdest : ∀ p ∈ ops, p.dest.width = p.width) (h : ReflTransGen (b.Reads ops) q p) :
    p.width.toNat ≤ q.width.toNat := by
  induction h with
  | refl => exact le_rfl
  | @tail p' p _ hread ih =>
    have hle := hcarries p' hread.1 hread.2.1 p.dest hread.dest_mem
    rw [hdest p hread.mem] at hle
    exact hle.trans ih

/-- Whatever values its leaves have, a tree of new nodes computes the connective on them, as far as
the width of the operation goes for which it was built. -/
def Computes (b : Bitwise) (g r : Graph) (op : Operation) (vs : List Node) (root : Node) : Prop :=
  ∀ ρ : Node → ℕ, (∀ v ∈ vs, ρ v < 2 ^ v.width.toNat) →
    (∀ p ∈ r.operations, p.dest ∉ g.nodes → ρ p.dest = b.word p.width.toNat (p.sources.map ρ)) →
    ρ root % 2 ^ op.width.toNat = b.word op.width.toNat (vs.map ρ)

namespace Balancing

variable (h : Balancing b g r kept rewrites) {w : Rewrite}
  (hcarries : ∀ op ∈ g.operations, op.opcode = b.opcode → op.Carries)

include h

theorem computes (hwide : ∀ p ∈ b.trees rewrites, p.Carries) (hw : w ∈ rewrites) :
    b.Computes g r w.operation w.leaves (w.tree b).root := by
  intro ρ hbound hnew
  apply mod_eq_word
  rw [map_testBit]
  have hmem (p : Operation) (hp : p ∈ (w.tree b).operations) : p ∈ b.trees rewrites :=
    List.mem_flatMap.2 ⟨w, hw, hp⟩
  refine root_bits hbound (fun p hp => ?_) (.inr fun p hp => hwide p (hmem p hp))
  obtain ⟨hop, hdest⟩ := h.mem_trees.1 (hmem p hp)
  exact hnew p hop hdest

include hcarries

theorem leaf_width_le (hdest : ∀ op ∈ g.operations, op.dest.width = op.width) (hw : w ∈ rewrites)
    (hv : v ∈ w.leaves) : v.width.toNat ≤ w.operation.width.toNat := by
  obtain ⟨ops, hops, hs⟩ := h.sound w hw
  obtain ⟨p, hp, hreads, hread⟩ := exists_read_of_mem_leaves hs.mem hs.opcode hs.leaves hv
  obtain ⟨hp, hc⟩ := mem_within.1 hp
  have hle : v.width.toNat ≤ p.width.toNat := hcarries p (hops.subset hp) hc v hread
  exact hle.trans (width_le_of_reads (fun q hq => hcarries q (hops.subset hq))
    (fun q hq => hdest q (hops.subset hq)) hreads)

/-- A tree that is not wide enough somewhere computes a wrong value for some values of its leaves.
-/
theorem not_computes (hb : b ≠ and) (hdest : ∀ op ∈ g.operations, op.dest.width = op.width)
    (hw : w ∈ rewrites) (hp : p ∈ (w.tree b).operations) (hp' : ¬p.Carries) :
    ¬b.Computes g r w.operation w.leaves (w.tree b).root := by
  have htemporary (q : Operation) (hq : q ∈ (w.tree b).operations) : q.dest ∉ w.leaves :=
    fun hmem => (h.mem_trees.1 (List.mem_flatMap.2 ⟨w, hw, hq⟩)).2 (h.leaf_mem_nodes hw hmem)
  obtain ⟨ops, hops, hs⟩ := h.sound w hw
  have hnodup := nodup_leaves hs.mem hs.opcode hs.leaves
  have hdests : (w.temporaries b).Nodup := (List.nodup_flatMap.1 (h.fresh.nodup.of_map _)).1 w hw
  obtain ⟨u, hu, hpos, hlost⟩ := exists_loses hb hnodup htemporary hdests hp hp'
  have hle := h.leaf_width_le hcarries hdest hw hu
  obtain ⟨ρ, hρ, htree⟩ :=
    h.straight_nodes.exists_extension (fun op => b.word op.width.toNat) (spike u)
  have hleaves (v : Node) (hv : v ∈ w.leaves) : ρ v = spike u v := hρ v (h.leaf_mem_nodes hw hv)
  have hroot : ρ (w.tree b).root = 0 :=
    hlost ρ hleaves fun q hq => htree q (List.mem_flatMap.2 ⟨w, hw, hq⟩)
  intro hcomputes
  have hvalue := hcomputes ρ (fun v hv => hleaves v hv ▸ spike_lt hpos v)
    fun q hq hnew => htree q (h.mem_trees.2 ⟨hq, hnew⟩)
  rw [hroot, List.map_congr_left hleaves, word_spike hb hnodup hu, Nat.zero_mod,
    Nat.mod_eq_of_lt (Nat.pow_lt_pow_right Nat.one_lt_two (by omega))] at hvalue
  exact (Nat.two_pow_pos _).ne hvalue

theorem copy_value (hwide : b = and ∨ ∀ p ∈ b.trees rewrites, p.Carries)
    (hempty : b = and → ∀ p ∈ b.within g.operations,
      (∃ q ∈ b.within g.operations, p.dest ∈ q.sources) → p.sources ≠ [])
    (hbound : g.Bounded ρ)
    (hvalue : ∀ p ∈ b.within g.operations, ρ p.dest = b.word p.width.toNat (p.sources.map ρ))
    (htree : ∀ p ∈ b.trees rewrites, ρ p.dest = b.word p.width.toNat (p.sources.map ρ))
    (hw : w ∈ rewrites) :
    ρ w.operation.dest = ρ (w.tree b).root % 2 ^ w.operation.width.toNat := by
  have hmem (w : Rewrite) (hw : w ∈ rewrites) (p : Operation) (hp : p ∈ (w.tree b).operations) :
      p ∈ b.trees rewrites := List.mem_flatMap.2 ⟨w, hw, hp⟩
  rw [hvalue _ (h.rewritten hw)]
  refine (mod_eq_word ?_).symm
  rw [map_testBit]
  refine h.root_value (ρ := fun v => (ρ v).testBit) hw (fun p hp => ?_) fun p hp hc hread => ?_
  · obtain ⟨w', hw', hp⟩ := List.mem_flatMap.1 hp
    exact combine_bits (fun v hv => hbound v (h.leaf_mem_nodes hw' hv))
      (fun q hq => htree q (hmem w' hw' q hq))
      (hwide.imp_right fun hwide q hq => hwide q (hmem w' hw' q hq)) hp
  · have hp := mem_within.2 ⟨h.mem_operations.2 (.inl hp), hc⟩
    have hg := (mem_within.1 hp).1
    have hroom : b.HasRoom p.width.toNat (p.sources.map ρ) :=
      hasRoom_of_carries (hcarries p hg hc)
        (fun v hv => hbound v (Graph.source_mem_nodes hg hv)) fun hb => hempty hb p hp hread
    rw [hvalue p hp, hroom.testBit_word, map_testBit]

/-- A valuation goes on to the temporaries, as their operations say. -/
theorem exists_words {M : Meaning ℕ} (hwide : b = and ∨ ∀ p ∈ b.trees rewrites, p.Carries)
    (hempty : b = and → ∀ p ∈ b.within g.operations,
      (∃ q ∈ b.within g.operations, p.dest ∈ q.sources) → p.sources ≠ [])
    (hbound : g.Bounded ρ) (hg : g.Satisfies (wordMeaning M) ρ) :
    ∃ ρ', (∀ v ∈ g.nodes, ρ' v = ρ v) ∧ r.Bounded ρ' ∧ r.Satisfies (wordMeaning M) ρ' := by
  obtain ⟨ρ', hagree, htree⟩ :=
    h.straight_nodes.exists_extension (fun op => b.word op.width.toNat) ρ
  have hbound' : g.Bounded ρ' := fun v hv => hagree v hv ▸ hbound v hv
  have hg' : g.Satisfies (wordMeaning M) ρ' := (g.satisfies_congr hagree).2 hg
  have hvalue : ∀ p ∈ b.within g.operations,
      ρ' p.dest = b.word p.width.toNat (p.sources.map ρ') := by
    intro p hp
    obtain ⟨hp, hc⟩ := mem_within.1 hp
    exact (wordMeaning_connective M hc).1 (hg' p hp)
  refine ⟨ρ', hagree, fun v hv => ?_, fun op hop => ?_⟩
  · rcases h.mem_nodes_or_temporary hv with hv | hv
    · exact hbound' v hv
    · obtain ⟨p, hp, rfl⟩ := List.mem_map.1 hv
      obtain ⟨w, -, hmem⟩ := List.mem_flatMap.1 hp
      rw [htree p hp]
      obtain ⟨t, y, z, rfl⟩ := eq_pair_of_mem_combine hmem
      exact word_lt
  · rcases h.mem_result.1 hop with hop | hop | ⟨w, hw, rfl⟩
    · exact hg' op (h.mem_operations.2 (.inl hop))
    · exact (wordMeaning_connective M (opcode_of_mem_trees hop)).2 (htree op hop)
    · exact (wordMeaning_copy M rfl).2
        (h.copy_value hcarries hwide hempty hbound' hvalue htree hw)

end Balancing

/-- Suppose that no operation of a connective is narrower than a source, and that an `and` which
another one reads has a source. Then a balanced circuit whose new operations are not narrower than
their sources either, or any circuit balanced for `and`, allows the same values: every valuation of
the circuit before, with values below the bounds that the widths set, goes on to the temporaries.
For `or` and `xor` the new operations are so exactly if every tree computes the connective on its
leaves, whatever their values are, provided that operations are as wide as their destinations. -/
theorem balance_keeps_words (h : b.balance g = .ok r)
    (hcarries : ∀ op ∈ g.operations, op.opcode = b.opcode → op.Carries)
    (hsources : b = and → ∀ p ∈ g.operations, p.opcode = .and →
      (∃ q ∈ g.operations, q.opcode = .and ∧ p.dest ∈ q.sources) → p.sources ≠ []) :
    (b = and ∨ (∀ p ∈ r.operations, p.dest ∉ g.nodes → p.Carries) →
      ∀ (M : Meaning ℕ) (ρ : Node → ℕ), g.Bounded ρ → g.Satisfies (wordMeaning M) ρ →
        ∃ ρ', (∀ v ∈ g.nodes, ρ' v = ρ v) ∧ r.Bounded ρ' ∧ r.Satisfies (wordMeaning M) ρ') ∧
    (b ≠ and → (∀ op ∈ g.operations, op.dest.width = op.width) →
      ∃ comps, g.components (·.operation.opcode = b.opcode) = .ok comps ∧
        ((∀ p ∈ r.operations, p.dest ∉ g.nodes → p.Carries) ↔
          ∀ op vs root, b.Rewritten comps op vs → op.copyOf root ∈ r.operations →
            b.Computes g r op vs root)) := by
  obtain ⟨comps, kept, rewrites, hcomps, hb, -, hrewritten⟩ := exists_rewrites h
  have htrees (hwide : ∀ p ∈ r.operations, p.dest ∉ g.nodes → p.Carries) :
      ∀ p ∈ b.trees rewrites, p.Carries :=
    fun p hp => hwide p (hb.mem_trees.1 hp).1 (hb.mem_trees.1 hp).2
  have hcopy (w : Rewrite) (hw : w ∈ rewrites) : w.copy b ∈ r.operations :=
    hb.mem_result.2 (.inr (.inr ⟨w, hw, rfl⟩))
  refine ⟨fun hwide M ρ => ?_, fun hand hdest => ⟨comps, hcomps, ?_, ?_⟩⟩
  · refine hb.exists_words hcarries (hwide.imp_right htrees) ?_
    rintro rfl p hp ⟨q, hq, hread⟩
    obtain ⟨hp, hpc⟩ := mem_within.1 hp
    obtain ⟨hq, hqc⟩ := mem_within.1 hq
    exact hsources rfl p hp hpc ⟨q, hq, hqc, hread⟩
  · intro hwide op vs root hvs hroot
    obtain ⟨w, hw, rfl, rfl⟩ := (hrewritten op vs).1 hvs
    cases hb.assigned_result.eq_of_dest_eq hroot (hcopy w hw) rfl
    exact hb.computes (htrees hwide) hw
  · intro hcomputes p hp hnew
    by_contra hnarrow
    obtain ⟨w, hw, hmem⟩ := List.mem_flatMap.1 (hb.mem_trees.2 ⟨hp, hnew⟩)
    apply hb.not_computes hcarries hand hdest hw hmem hnarrow
    exact hcomputes _ _ _ ((hrewritten _ _).2 ⟨w, hw, rfl, rfl⟩) (hcopy w hw)

/-- A sum of four terms in which the narrow ones come second. -/
def mixedSum : Graph where
  operations :=
    [⟨⟨"a", 8, .wire, 0⟩, 8, .input, []⟩,
      ⟨⟨"b", 4, .wire, 0⟩, 4, .input, []⟩,
      ⟨⟨"c", 8, .wire, 0⟩, 8, .input, []⟩,
      ⟨⟨"t", 8, .wire, 0⟩, 8, .xor, [⟨"a", 8, .wire, 0⟩, ⟨"b", 4, .wire, 0⟩]⟩,
      ⟨⟨"u", 8, .wire, 0⟩, 8, .xor, [⟨"c", 8, .wire, 0⟩, ⟨"3", 2, .constant, 0⟩]⟩,
      ⟨⟨"s", 8, .wire, 0⟩, 8, .xor, [⟨"t", 8, .wire, 0⟩, ⟨"u", 8, .wire, 0⟩]⟩,
      ⟨⟨"x", 8, .wire, 0⟩, 8, .output, [⟨"s", 8, .wire, 0⟩]⟩]

/-- All temporaries are as wide as the sum. -/
def mixedSumBalanced : Graph where
  operations :=
    [⟨⟨"a", 8, .wire, 0⟩, 8, .input, []⟩,
      ⟨⟨"b", 4, .wire, 0⟩, 4, .input, []⟩,
      ⟨⟨"c", 8, .wire, 0⟩, 8, .input, []⟩,
      ⟨⟨"OPT0_0", 8, .wire, 1⟩, 8, .xor, [⟨"a", 8, .wire, 0⟩, ⟨"b", 4, .wire, 0⟩]⟩,
      ⟨⟨"OPT0_1", 8, .wire, 1⟩, 8, .xor, [⟨"c", 8, .wire, 0⟩, ⟨"3", 2, .constant, 0⟩]⟩,
      ⟨⟨"OPT0_2", 8, .wire, 1⟩, 8, .xor, [⟨"OPT0_0", 8, .wire, 1⟩, ⟨"OPT0_1", 8, .wire, 1⟩]⟩,
      ⟨⟨"s", 8, .wire, 0⟩, 8, .mov, [⟨"OPT0_2", 8, .wire, 1⟩]⟩,
      ⟨⟨"t", 8, .wire, 0⟩, 8, .xor, [⟨"a", 8, .wire, 0⟩, ⟨"b", 4, .wire, 0⟩]⟩,
      ⟨⟨"u", 8, .wire, 0⟩, 8, .xor, [⟨"c", 8, .wire, 0⟩, ⟨"3", 2, .constant, 0⟩]⟩,
      ⟨⟨"x", 8, .wire, 0⟩, 8, .output, [⟨"s", 8, .wire, 0⟩]⟩]
  generation := 1

theorem mixedSum_keeps_words :
    xor.balance mixedSum = .ok mixedSumBalanced ∧
      (∀ op ∈ mixedSum.operations, op.Carries) ∧
      (∀ p ∈ mixedSumBalanced.operations, p.dest ∉ mixedSum.nodes → p.Carries) ∧
      ∀ (M : Meaning ℕ) (ρ : Node → ℕ), mixedSum.Bounded ρ → mixedSum.Satisfies (wordMeaning M) ρ →
        ∃ ρ', (∀ v ∈ mixedSum.nodes, ρ' v = ρ v) ∧ mixedSumBalanced.Bounded ρ' ∧
          mixedSumBalanced.Satisfies (wordMeaning M) ρ' := by
  have hbalance : xor.balance mixedSum = .ok mixedSumBalanced := by cbv
  have hcarries : ∀ op ∈ mixedSum.operations, op.Carries := by decide
  have hwide : ∀ p ∈ mixedSumBalanced.operations, p.dest ∉ mixedSum.nodes → p.Carries := by decide
  have hand : xor ≠ and := by decide
  obtain ⟨hkeeps, -⟩ := balance_keeps_words hbalance (fun op hop _ => hcarries op hop)
    fun h => absurd h hand
  exact ⟨hbalance, hcarries, hwide, hkeeps (.inr hwide)⟩

/-- Balancing a circuit that has been read, that can be written and in which no operation is
narrower than a source, spoils one of its valuations. -/
def Spoils (b : Bitwise) (t : Text) (g r : Graph) : Prop :=
  Graph.parse t = .ok g ∧ g.writable = .ok () ∧ (∀ op ∈ g.operations, op.Carries) ∧
    b.balance g = .ok r ∧ ∃ (M : Meaning ℕ) (ρ : Node → ℕ), g.Bounded ρ ∧
      g.Satisfies (wordMeaning M) ρ ∧
      ∀ ρ', (∀ v ∈ g.nodes, ρ' v = ρ v) → ¬r.Satisfies (wordMeaning M) ρ'

def narrowTermText : Text :=
  "a = in'8\nb = in'8\nt = xor'8 a b\ns = xor'8 t 3\nx = out'8 s\n"

/-- A sum of three terms, the last of which is a narrow constant. -/
def narrowTerm : Graph where
  operations :=
    [⟨⟨"a", 8, .wire, 0⟩, 8, .input, []⟩,
      ⟨⟨"b", 8, .wire, 0⟩, 8, .input, []⟩,
      ⟨⟨"t", 8, .wire, 0⟩, 8, .xor, [⟨"a", 8, .wire, 0⟩, ⟨"b", 8, .wire, 0⟩]⟩,
      ⟨⟨"s", 8, .wire, 0⟩, 8, .xor, [⟨"t", 8, .wire, 0⟩, ⟨"3", 2, .constant, 0⟩]⟩,
      ⟨⟨"x", 8, .wire, 0⟩, 8, .output, [⟨"s", 8, .wire, 0⟩]⟩]

/-- The sum is cut off at the two bits of the constant. -/
def narrowTermBalanced : Graph where
  operations :=
    [⟨⟨"a", 8, .wire, 0⟩, 8, .input, []⟩,
      ⟨⟨"b", 8, .wire, 0⟩, 8, .input, []⟩,
      ⟨⟨"OPT0_0", 8, .wire, 1⟩, 8, .xor, [⟨"a", 8, .wire, 0⟩, ⟨"b", 8, .wire, 0⟩]⟩,
      ⟨⟨"OPT0_1", 2, .wire, 1⟩, 2, .xor, [⟨"3", 2, .constant, 0⟩, ⟨"OPT0_0", 8, .wire, 1⟩]⟩,
      ⟨⟨"s", 8, .wire, 0⟩, 8, .mov, [⟨"OPT0_1", 2, .wire, 1⟩]⟩,
      ⟨⟨"t", 8, .wire, 0⟩, 8, .xor, [⟨"a", 8, .wire, 0⟩, ⟨"b", 8, .wire, 0⟩]⟩,
      ⟨⟨"x", 8, .wire, 0⟩, 8, .output, [⟨"s", 8, .wire, 0⟩]⟩]
  generation := 1

def emptyMaskText : Text :=
  "e = and'2\na = in'8\nb = in'8\nt = and'8 e a\ns = and'8 t b\nx = out'8 s\n"

/-- A conjunction with all bits of a narrow width. -/
def emptyMask : Graph where
  operations :=
    [⟨⟨"e", 2, .wire, 0⟩, 2, .and, []⟩,
      ⟨⟨"a", 8, .wire, 0⟩, 8, .input, []⟩,
      ⟨⟨"b", 8, .wire, 0⟩, 8, .input, []⟩,
      ⟨⟨"t", 8, .wire, 0⟩, 8, .and, [⟨"e", 2, .wire, 0⟩, ⟨"a", 8, .wire, 0⟩]⟩,
      ⟨⟨"s", 8, .wire, 0⟩, 8, .and, [⟨"t", 8, .wire, 0⟩, ⟨"b", 8, .wire, 0⟩]⟩,
      ⟨⟨"x", 8, .wire, 0⟩, 8, .output, [⟨"s", 8, .wire, 0⟩]⟩]

/-- The narrow width does not count any more. -/
def emptyMaskBalanced : Graph where
  operations :=
    [⟨⟨"a", 8, .wire, 0⟩, 8, .input, []⟩,
      ⟨⟨"b", 8, .wire, 0⟩, 8, .input, []⟩,
      ⟨⟨"OPT0_0", 8, .wire, 1⟩, 8, .and, [⟨"a", 8, .wire, 0⟩, ⟨"b", 8, .wire, 0⟩]⟩,
      ⟨⟨"s", 8, .wire, 0⟩, 8, .mov, [⟨"OPT0_0", 8, .wire, 1⟩]⟩,
      ⟨⟨"e", 2, .wire, 0⟩, 2, .and, []⟩,
      ⟨⟨"t", 8, .wire, 0⟩, 8, .and, [⟨"e", 2, .wire, 0⟩, ⟨"a", 8, .wire, 0⟩]⟩,
      ⟨⟨"x", 8, .wire, 0⟩, 8, .output, [⟨"s", 8, .wire, 0⟩]⟩]
  generation := 1

/-- The value that a list gives to the name of a node. -/
def valueIn (l : List (Text × ℕ)) (v : Node) : ℕ := (l.lookup v.name).getD 0

theorem narrowTerm_spoils : xor.Spoils narrowTermText narrowTerm narrowTermBalanced := by
  let ρ := valueIn [("a", 128), ("t", 128), ("3", 3), ("s", 131)]
  have hbound : narrowTerm.Bounded ρ := by
    unfold Graph.Bounded
    decide
  have hsatisfies : narrowTerm.Satisfies (wordMeaning fun _ _ _ => True) ρ := by
    unfold Graph.Satisfies
    simp only [narrowTerm, List.forall_mem_cons]
    exact ⟨trivial, trivial, (wordMeaning_connective _ (b := xor) rfl).2 (by decide),
      (wordMeaning_connective _ (b := xor) rfl).2 (by decide), trivial, by simp⟩
  refine ⟨by cbv, by cbv, by decide, by cbv, _, ρ, hbound, hsatisfies, fun ρ' hρ' hr => ?_⟩
  have hs := hρ' ⟨"s", 8, .wire, 0⟩ (by decide)
  have htemporary : ρ' ⟨"OPT0_1", 2, .wire, 1⟩ = _ :=
    (wordMeaning_connective _ (b := xor) rfl).1
      (hr ⟨⟨"OPT0_1", 2, .wire, 1⟩, 2, .xor, [⟨"3", 2, .constant, 0⟩, ⟨"OPT0_0", 8, .wire, 1⟩]⟩
        (by decide))
  have hcopy : ρ' ⟨"s", 8, .wire, 0⟩ = ρ' ⟨"OPT0_1", 2, .wire, 1⟩ % 2 ^ 8 :=
    (wordMeaning_copy _ rfl).1
      (hr ⟨⟨"s", 8, .wire, 0⟩, 8, .mov, [⟨"OPT0_1", 2, .wire, 1⟩]⟩ (by decide))
  have hlt : ρ' ⟨"OPT0_1", 2, .wire, 1⟩ < 2 ^ 2 := htemporary ▸ word_lt
  have hvalue : ρ ⟨"s", 8, .wire, 0⟩ = 131 := by decide
  omega

theorem emptyMask_spoils : and.Spoils emptyMaskText emptyMask emptyMaskBalanced := by
  let ρ := valueIn [("e", 3), ("a", 255), ("b", 255), ("t", 3), ("s", 3)]
  have hbound : emptyMask.Bounded ρ := by
    unfold Graph.Bounded
    decide
  have hsatisfies : emptyMask.Satisfies (wordMeaning fun _ _ _ => True) ρ := by
    unfold Graph.Satisfies
    simp only [emptyMask, List.forall_mem_cons]
    exact ⟨(wordMeaning_connective _ (b := and) rfl).2 (by decide), trivial, trivial,
      (wordMeaning_connective _ (b := and) rfl).2 (by decide),
      (wordMeaning_connective _ (b := and) rfl).2 (by decide), trivial, by simp⟩
  refine ⟨by cbv, by cbv, by decide, by cbv, _, ρ, hbound, hsatisfies, fun ρ' hρ' hr => ?_⟩
  have ha := hρ' ⟨"a", 8, .wire, 0⟩ (by decide)
  have hb := hρ' ⟨"b", 8, .wire, 0⟩ (by decide)
  have hs := hρ' ⟨"s", 8, .wire, 0⟩ (by decide)
  have htemporary : ρ' ⟨"OPT0_0", 8, .wire, 1⟩ =
      and.word 8 [ρ' ⟨"a", 8, .wire, 0⟩, ρ' ⟨"b", 8, .wire, 0⟩] :=
    (wordMeaning_connective _ (b := and) rfl).1
      (hr ⟨⟨"OPT0_0", 8, .wire, 1⟩, 8, .and, [⟨"a", 8, .wire, 0⟩, ⟨"b", 8, .wire, 0⟩]⟩ (by decide))
  have hcopy : ρ' ⟨"s", 8, .wire, 0⟩ = ρ' ⟨"OPT0_0", 8, .wire, 1⟩ % 2 ^ 8 :=
    (wordMeaning_copy _ rfl).1
      (hr ⟨⟨"s", 8, .wire, 0⟩, 8, .mov, [⟨"OPT0_0", 8, .wire, 1⟩]⟩ (by decide))
  rw [htemporary, ha, hb, hs] at hcopy
  revert hcopy
  decide

theorem narrow_operations_spoil :
    xor.Spoils narrowTermText narrowTerm narrowTermBalanced ∧
      and.Spoils emptyMaskText emptyMask emptyMaskBalanced :=
  ⟨narrowTerm_spoils, emptyMask_spoils⟩

end Bitwise

end Netlist
