import Mathlib.Data.List.Nodup
import Mathlib.Data.List.Perm.Subperm
import Mathlib.Data.List.Range
import Netlist.Circuit.Temporary

/-!
# Freshness of temporaries

The name of a temporary determines the scope and the number that it was made of. So among as many
numbers as there are names taken, and one more, some number has a name that is free, and the search
for the first one ends.

`Mints m ts m'` says that a minter in state `m` makes the nodes `ts`, one after the other, and ends
in state `m'`. They are wires with distinct names, none of them taken, and their scope and tag are
those of the minter.
-/

namespace Netlist

namespace Text

theorem digit_inj {n m : Nat} (hn : n < 10) (hm : m < 10) (h : digit n = digit m) : n = m := by
  have hall : ∀ n < 10, ∀ m < 10, digit n = digit m → n = m := by decide
  exact hall n hn m hm h

theorem decimal_injective : Function.Injective decimal := by
  intro n
  induction n using Nat.strongRecOn with
  | _ n ih =>
    intro m h
    rw [decimal.eq_1 n, decimal.eq_1 m] at h
    split_ifs at h with hn hm hm
    · exact digit_inj hn hm (List.singleton_inj.1 h)
    · simpa [decimal_ne_nil] using List.append_eq_singleton_iff.1 h.symm
    · simpa [decimal_ne_nil] using List.append_eq_singleton_iff.1 h
    · obtain ⟨hdiv, hmod⟩ := List.append_inj' h rfl
      have hdiv : n / 10 = m / 10 := ih (n / 10) (by omega) hdiv
      have hmod : n % 10 = m % 10 :=
        digit_inj (by omega) (by omega) (List.singleton_inj.1 hmod)
      omega

theorem notMem_decimal {b : UInt8} (hb : isDigit b = false) (n : Nat) : b ∉ decimal n := by
  intro h
  rw [isDigit_of_mem_decimal h] at hb
  cases hb

theorem ofInt_injective : Function.Injective ofInt := by
  have hminus : ("-" : Text) = [45] := by decide
  have hhead (n m : Nat) : decimal n ≠ "-" ++ decimal m := by
    intro h
    exact notMem_decimal (b := 45) rfl n (by rw [h, hminus]; exact List.mem_cons_self)
  intro i j h
  cases i with
  | ofNat n =>
    cases j with
    | ofNat m => exact congrArg Int.ofNat (decimal_injective h)
    | negSucc m => exact absurd h (hhead n (m + 1))
  | negSucc n =>
    cases j with
    | ofNat m => exact absurd h.symm (hhead m (n + 1))
    | negSucc m =>
      have hnm := decimal_injective (List.append_cancel_left h)
      rw [Nat.succ.inj hnm]

theorem notMem_ofInt {b : UInt8} (hb : isDigit b = false) (hne : b ≠ 45) (i : Int) :
    b ∉ ofInt i := by
  have hminus : ("-" : Text) = [45] := by decide
  cases i with
  | ofNat n => exact notMem_decimal hb n
  | negSucc n =>
    rw [ofInt, hminus, List.mem_append, List.mem_singleton]
    exact not_or.2 ⟨hne, notMem_decimal hb _⟩

end Text

namespace Minter

theorem temporaryName_inj {i j : Int} {n m : Nat} (h : temporaryName i n = temporaryName j m) :
    i = j ∧ n = m := by
  have hbar : ("_" : Text) = [95] := by decide
  simp only [temporaryName, hbar, List.append_assoc, List.append_cancel_left_eq,
    List.singleton_append] at h
  have hcut := (List.append_cons_inj_of_notMem (Text.notMem_ofInt rfl (by decide) i)
    (Text.notMem_decimal rfl n)).1 h
  exact ⟨Text.ofInt_injective hcut.1, Text.decimal_injective hcut.2.2⟩

variable {taken : List Text} {scope : Int}

theorem le_firstFree (tries n : Nat) : n ≤ firstFree taken scope tries n := by
  induction tries generalizing n with
  | zero => exact le_rfl
  | succ tries ih =>
    rw [firstFree]
    split_ifs
    · exact (Nat.le_succ n).trans (ih (n + 1))
    · exact le_rfl

/-- All numbers that the search passes over have a name that is taken. -/
theorem mem_taken_of_lt_firstFree {tries n k : Nat} (hnk : n ≤ k)
    (hk : k < firstFree taken scope tries n) : temporaryName scope k ∈ taken := by
  induction tries generalizing n with
  | zero => exact absurd hk (Nat.not_lt.2 hnk)
  | succ tries ih =>
    rw [firstFree] at hk
    split_ifs at hk with hn
    · rcases hnk.eq_or_lt with rfl | hlt
      · exact hn
      · exact ih hlt hk
    · omega

theorem firstFree_eq_of_mem {tries n : Nat}
    (h : temporaryName scope (firstFree taken scope tries n) ∈ taken) :
    firstFree taken scope tries n = n + tries := by
  induction tries generalizing n with
  | zero => rfl
  | succ tries ih =>
    rw [firstFree] at h ⊢
    split_ifs at h ⊢ with hn
    · rw [ih h]
      omega
    · exact absurd h hn

/-- As many tries as there are names taken are enough. -/
theorem firstFree_notMem (n : Nat) :
    temporaryName scope (firstFree taken scope taken.length n) ∉ taken := by
  intro h
  have heq := firstFree_eq_of_mem h
  have hsub : (List.range' n (taken.length + 1)).map (temporaryName scope) ⊆ taken := by
    intro t ht
    obtain ⟨k, hk, rfl⟩ := List.mem_map.1 ht
    rw [List.mem_range'_1] at hk
    rcases Nat.lt_or_ge k (n + taken.length) with hlt | hge
    · exact mem_taken_of_lt_firstFree hk.1 (heq ▸ hlt)
    · rw [show k = firstFree taken scope taken.length n by omega]
      exact h
  have hnodup : ((List.range' n (taken.length + 1)).map (temporaryName scope)).Nodup :=
    List.Nodup.map (fun _ _ h => (temporaryName_inj h).2) List.nodup_range'
  have hlen := (List.subperm_of_subset hnodup hsub).length_le
  rw [List.length_map, List.length_range'] at hlen
  omega

theorem mint_width {m m' : Minter} {like t : Node} (h : m.mint like = (t, m')) :
    t.width = like.width := by
  obtain rfl : (m.mint like).1 = t := by rw [h]
  rfl

/-- The minter makes the nodes one after the other. -/
inductive Mints : Minter → List Node → Minter → Prop
  | nil (m : Minter) : Mints m [] m
  | cons {m m' : Minter} {ts : List Node} (like : Node) (h : Mints (m.mint like).2 ts m') :
      Mints m ((m.mint like).1 :: ts) m'

namespace Mints

variable {m m' m'' : Minter} {ts ts' : List Node}

theorem append (h : Mints m ts m') (h' : Mints m' ts' m'') : Mints m (ts ++ ts') m'' := by
  induction h with
  | nil m => exact h'
  | cons like _ ih => exact .cons like (ih h')

theorem name_eq (h : Mints m ts m') {t : Node} (ht : t ∈ ts) :
    ∃ n, m.next ≤ n ∧ t.name = temporaryName m.scope n := by
  induction h with
  | nil m => cases ht
  | @cons m m' ts like h ih =>
    have hle : m.next ≤ firstFree m.taken m.scope m.taken.length m.next := le_firstFree _ _
    rcases List.mem_cons.1 ht with rfl | ht
    · exact ⟨_, hle, rfl⟩
    · obtain ⟨n, hn, hname⟩ := ih ht
      exact ⟨n, hle.trans ((Nat.le_succ _).trans hn), hname⟩

theorem nodup_names (h : Mints m ts m') : (ts.map Node.name).Nodup := by
  induction h with
  | nil m => exact List.nodup_nil
  | cons like h ih =>
    refine List.nodup_cons.2 ⟨?_, ih⟩
    intro hmem
    obtain ⟨t, ht, heq⟩ := List.mem_map.1 hmem
    obtain ⟨n, hn, hname⟩ := h.name_eq ht
    have := (temporaryName_inj (hname.symm.trans heq)).2
    subst this
    exact absurd hn (Nat.not_succ_le_self _)

theorem notMem_taken (h : Mints m ts m') {t : Node} (ht : t ∈ ts) : t.name ∉ m.taken := by
  induction h with
  | nil m => cases ht
  | cons like h ih =>
    rcases List.mem_cons.1 ht with rfl | ht
    · exact firstFree_notMem _
    · exact ih ht

theorem kind_eq (h : Mints m ts m') {t : Node} (ht : t ∈ ts) : t.kind = .wire := by
  induction h with
  | nil m => cases ht
  | cons like h ih =>
    rcases List.mem_cons.1 ht with rfl | ht
    · rfl
    · exact ih ht

theorem tag_eq (h : Mints m ts m') {t : Node} (ht : t ∈ ts) : t.tag = m.tag := by
  induction h with
  | nil m => cases ht
  | cons like h ih =>
    rcases List.mem_cons.1 ht with rfl | ht
    · rfl
    · exact ih ht

end Mints

end Minter

namespace Graph

theorem le_foldl_max_tag (l : List Node) (n : Nat) :
    n ≤ l.foldl (fun n v => max n v.tag) n := by
  induction l generalizing n with
  | nil => exact le_rfl
  | cons v l ih => exact (Nat.le_max_left n v.tag).trans (ih _)

theorem tag_le_lastTag {g : Graph} {v : Node} (h : v ∈ g.nodes) : v.tag ≤ g.lastTag := by
  have hall (l : List Node) (n : Nat) (hv : v ∈ l) :
      v.tag ≤ l.foldl (fun n v => max n v.tag) n := by
    induction l generalizing n with
    | nil => cases hv
    | cons u l ih =>
      rcases List.mem_cons.1 hv with rfl | hv
      · exact (Nat.le_max_right n v.tag).trans (le_foldl_max_tag l _)
      · exact ih _ hv
  exact hall _ _ (List.mem_eraseDups.1 h)

theorem generation_le_lastTag (g : Graph) : g.generation ≤ g.lastTag := le_foldl_max_tag _ _

end Graph

end Netlist
