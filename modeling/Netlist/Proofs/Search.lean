import Mathlib.Data.List.Nodup
import Mathlib.Logic.Relation
import Netlist.Search

/-!
# What a search finds

A search finds each thing once. It finds every start that remains, and with a thing everything next
to it that remains; and all that it finds can be reached from a start, step by step.

A search from several roots can be repeated from what it has found. A root that an earlier search
has met finds nothing of its own, so the roots may be taken in the order in which they were met, and
other things that were found may be taken for roots as well.
-/

namespace Netlist

open Relation

variable {α : Type} [DecidableEq α] {next : α → List α} {remaining pending : List α}
  {starts : List (List α)} {u v : α}

theorem mem_explore_of_mem_pending (hv : v ∈ pending) (hr : v ∈ remaining) :
    v ∈ explore next remaining pending := by
  fun_induction explore next remaining pending with
  | case1 => cases hv
  | case2 remaining s queue hs ih =>
    by_cases hvs : v = s
    · exact List.mem_cons.2 (.inl hvs)
    · have hqueue : v ∈ queue := (List.mem_cons.1 hv).resolve_left hvs
      exact List.mem_cons_of_mem s
        (ih (List.mem_append_left _ hqueue) ((List.mem_erase_of_ne hvs).2 hr))
  | case3 remaining s queue hs ih =>
    have hvs : v ≠ s := fun he => hs (he ▸ hr)
    exact ih ((List.mem_cons.1 hv).resolve_left hvs) hr

theorem explore_closed (hv : v ∈ explore next remaining pending) (hu : u ∈ next v)
    (hr : u ∈ remaining) : u ∈ explore next remaining pending := by
  fun_induction explore next remaining pending with
  | case1 => cases hv
  | case2 remaining s queue hs ih =>
    by_cases hus : u = s
    · exact List.mem_cons.2 (.inl hus)
    · have hr' : u ∈ remaining.erase s := (List.mem_erase_of_ne hus).2 hr
      apply List.mem_cons_of_mem
      rcases List.mem_cons.1 hv with rfl | hv
      · exact mem_explore_of_mem_pending (List.mem_append_right _ hu) hr'
      · exact ih hv hr'
  | case3 remaining s queue hs ih => exact ih hv hr

theorem nodup_explore (h : remaining.Nodup) : (explore next remaining pending).Nodup := by
  fun_induction explore next remaining pending with
  | case1 => exact List.nodup_nil
  | case2 remaining s queue hs ih =>
    exact List.nodup_cons.2 ⟨fun hmem => h.not_mem_erase (mem_of_mem_explore hmem), ih (h.erase s)⟩
  | case3 remaining s queue hs ih => exact ih h

theorem exists_start_of_mem_explore (hv : v ∈ explore next remaining pending) :
    ∃ s ∈ pending, ReflTransGen (fun a c => c ∈ next a) s v := by
  fun_induction explore next remaining pending with
  | case1 => cases hv
  | case2 remaining s queue hs ih =>
    rcases List.mem_cons.1 hv with rfl | hv
    · exact ⟨v, List.mem_cons_self, .refl⟩
    · obtain ⟨t, ht, hpath⟩ := ih hv
      rcases List.mem_append.1 ht with ht | ht
      · exact ⟨t, List.mem_cons_of_mem s ht, hpath⟩
      · exact ⟨s, List.mem_cons_self, .head ht hpath⟩
  | case3 remaining s queue hs ih =>
    obtain ⟨t, ht, hpath⟩ := ih hv
    exact ⟨t, List.mem_cons_of_mem s ht, hpath⟩

theorem mem_of_mem_exploreAll (hv : v ∈ exploreAll next remaining starts) : v ∈ remaining := by
  induction starts generalizing remaining with
  | nil => cases hv
  | cons start starts ih =>
    rcases List.mem_append.1 hv with hv | hv
    · exact mem_of_mem_explore hv
    · exact List.mem_of_mem_filter (ih hv)

theorem mem_exploreAll_of_mem_start {start : List α} (hstart : start ∈ starts) (hv : v ∈ start)
    (hr : v ∈ remaining) : v ∈ exploreAll next remaining starts := by
  induction starts generalizing remaining with
  | nil => cases hstart
  | cons first starts ih =>
    by_cases hfound : v ∈ explore next remaining first
    · exact List.mem_append_left _ hfound
    · rcases List.mem_cons.1 hstart with rfl | hstart
      · exact absurd (mem_explore_of_mem_pending hv hr) hfound
      · exact List.mem_append_right _ (ih hstart (List.mem_filter.2 ⟨hr, by simpa using hfound⟩))

theorem exploreAll_closed (hv : v ∈ exploreAll next remaining starts) (hu : u ∈ next v)
    (hr : u ∈ remaining) : u ∈ exploreAll next remaining starts := by
  induction starts generalizing remaining with
  | nil => cases hv
  | cons first starts ih =>
    by_cases hfound : u ∈ explore next remaining first
    · exact List.mem_append_left _ hfound
    · rcases List.mem_append.1 hv with hv | hv
      · exact absurd (explore_closed hv hu hr) hfound
      · exact List.mem_append_right _ (ih hv (List.mem_filter.2 ⟨hr, by simpa using hfound⟩))

theorem nodup_exploreAll (h : remaining.Nodup) : (exploreAll next remaining starts).Nodup := by
  induction starts generalizing remaining with
  | nil => exact List.nodup_nil
  | cons first starts ih =>
    refine List.nodup_append.2 ⟨nodup_explore h, ih (h.filter _), ?_⟩
    rintro v hv _ hv' rfl
    simpa [hv] using (List.mem_filter.1 (mem_of_mem_exploreAll hv')).2

theorem exists_start_of_mem_exploreAll (hv : v ∈ exploreAll next remaining starts) :
    ∃ start ∈ starts, ∃ s ∈ start, ReflTransGen (fun a c => c ∈ next a) s v := by
  induction starts generalizing remaining with
  | nil => cases hv
  | cons first starts ih =>
    rcases List.mem_append.1 hv with hv | hv
    · exact ⟨first, List.mem_cons_self, exists_start_of_mem_explore hv⟩
    · obtain ⟨start, hstart, hpath⟩ := ih hv
      exact ⟨start, List.mem_cons_of_mem first hstart, hpath⟩

theorem explore_eq_nil (h : ∀ v ∈ pending, v ∉ remaining) :
    explore next remaining pending = [] := by
  induction pending with
  | nil => rw [explore]
  | cons s queue ih =>
    obtain ⟨hs, hqueue⟩ := List.forall_mem_cons.1 h
    rw [explore, if_neg hs]
    exact ih hqueue

theorem exploreAll_eq_nil (h : ∀ start ∈ starts, ∀ v ∈ start, v ∉ remaining) :
    exploreAll next remaining starts = [] := by
  induction starts generalizing remaining with
  | nil => rfl
  | cons start starts ih =>
    obtain ⟨hstart, hstarts⟩ := List.forall_mem_cons.1 h
    simp only [exploreAll, explore_eq_nil hstart, List.nil_append]
    apply ih
    intro s hs v hv hmem
    exact hstarts s hs v hv (List.mem_of_mem_filter hmem)

/-- A search depends on what is next to what it can reach, and on which of that remains. -/
theorem explore_congr {next' : α → List α} {remaining' : List α} {S : α → Prop}
    (hclosed : ∀ v, S v → ∀ u ∈ next v, S u) (hnext : ∀ v, S v → next v = next' v)
    (hr : remaining.Nodup) (hr' : remaining'.Nodup)
    (hmem : ∀ v, S v → (v ∈ remaining ↔ v ∈ remaining')) (hpending : ∀ v ∈ pending, S v) :
    explore next remaining pending = explore next' remaining' pending := by
  fun_induction explore next remaining pending generalizing remaining' with
  | case1 => rw [explore]
  | case2 remaining s queue hs ih =>
    obtain ⟨hS, hqueue⟩ := List.forall_mem_cons.1 hpending
    rw [explore, if_pos ((hmem s hS).1 hs), ← hnext s hS]
    congr 1
    apply ih (hr.erase s) (hr'.erase s)
    · intro v hv
      rw [hr.mem_erase_iff, hr'.mem_erase_iff, hmem v hv]
    · intro v hv
      rcases List.mem_append.1 hv with hv | hv
      · exact hqueue v hv
      · exact hclosed s hS v hv
  | case3 remaining s queue hs ih =>
    obtain ⟨hS, hqueue⟩ := List.forall_mem_cons.1 hpending
    rw [explore, if_neg fun hs' => hs ((hmem s hS).2 hs')]
    exact ih hr hr' hmem hqueue

theorem exploreAll_congr {next' : α → List α} {remaining' : List α} {S : α → Prop}
    (hclosed : ∀ v, S v → ∀ u ∈ next v, S u) (hnext : ∀ v, S v → next v = next' v)
    (hr : remaining.Nodup) (hr' : remaining'.Nodup)
    (hmem : ∀ v, S v → (v ∈ remaining ↔ v ∈ remaining'))
    (hstarts : ∀ start ∈ starts, ∀ v ∈ start, S v) :
    exploreAll next remaining starts = exploreAll next' remaining' starts := by
  induction starts generalizing remaining remaining' with
  | nil => rfl
  | cons start starts ih =>
    obtain ⟨hstart, hstarts⟩ := List.forall_mem_cons.1 hstarts
    have hfound := explore_congr hclosed hnext hr hr' hmem hstart
    simp only [exploreAll, hfound]
    congr 1
    apply ih (hr.filter _) (hr'.filter _) _ hstarts
    intro v hv
    rw [List.mem_filter, List.mem_filter, hmem v hv]

theorem exploreAll_append (starts' : List (List α)) :
    exploreAll next remaining (starts ++ starts') = exploreAll next remaining starts ++
      exploreAll next (remaining.filter (· ∉ exploreAll next remaining starts)) starts' := by
  induction starts generalizing remaining with
  | nil => simp [exploreAll]
  | cons start starts ih =>
    simp only [List.cons_append, exploreAll, ih, List.append_assoc, List.filter_filter]
    congr 3
    apply List.filter_congr
    intro v _
    simp [Bool.and_comm]

/-- No step leads from what does not remain to what does. -/
def Sealed (next : α → List α) (remaining : List α) : Prop :=
  ∀ v, v ∉ remaining → ∀ u ∈ next v, u ∉ remaining

theorem Sealed.filter_explore (h : Sealed next remaining) (pending : List α) :
    Sealed next (remaining.filter (· ∉ explore next remaining pending)) := by
  intro v hv u hu hmem
  obtain ⟨hr, hfound⟩ := List.mem_filter.1 hmem
  by_cases hvr : v ∈ remaining
  · have hvfound : v ∈ explore next remaining pending := by
      by_contra hno
      exact hv (List.mem_filter.2 ⟨hvr, by simpa using hno⟩)
    exact of_decide_eq_true hfound (explore_closed hvfound hu hr)
  · exact h v hvr u hu hr

/-- A thing and all that is next to it. -/
def withNext (next : α → List α) (v : α) : List α := v :: next v

theorem not_remaining_of_found (hu : u ∈ explore next remaining pending)
    (hv : v ∈ withNext next u) :
    v ∉ remaining.filter (· ∉ explore next remaining pending) := by
  intro hmem
  obtain ⟨hr, hfound⟩ := List.mem_filter.1 hmem
  apply of_decide_eq_true hfound
  rcases List.mem_cons.1 hv with rfl | hv
  · exact hu
  · exact explore_closed hu hv hr

/-- The search from a root is repeated by the root; other starts among what it has found find
nothing more. -/
theorem explore_again (h : Sealed next remaining) {p : α → Bool} (hp : p v = true) :
    exploreAll next remaining
        (((explore next remaining (withNext next v)).filter p).map (withNext next)) =
      explore next remaining (withNext next v) := by
  by_cases hr : v ∈ remaining
  · obtain ⟨others, hothers⟩ : ∃ others,
        explore next remaining (withNext next v) = v :: others := by
      rw [withNext, explore, if_pos hr]
      exact ⟨_, rfl⟩
    have hnone : exploreAll next
        (remaining.filter (· ∉ explore next remaining (withNext next v)))
        ((others.filter p).map (withNext next)) = [] := by
      apply exploreAll_eq_nil
      intro start hstart w hw
      obtain ⟨u, hu, rfl⟩ := List.mem_map.1 hstart
      have hmem : u ∈ explore next remaining (withNext next v) := by
        rw [hothers]
        exact List.mem_cons_of_mem _ (List.mem_of_mem_filter hu)
      exact not_remaining_of_found hmem hw
    have hfilter : (explore next remaining (withNext next v)).filter p =
        v :: others.filter p := by rw [hothers, List.filter_cons_of_pos hp]
    rw [hfilter, List.map_cons, exploreAll]
    simp only [hnone, List.append_nil]
  · have hnil : explore next remaining (withNext next v) = [] := by
      apply explore_eq_nil
      intro u hu
      rcases List.mem_cons.1 hu with rfl | hu
      · exact hr
      · exact h v hr u hu
    rw [hnil]
    rfl

/-- A search that starts anew from some of what it has found, the roots among it, in the order in
which it has found them, finds the same in the same order. -/
theorem exploreAll_again (h : Sealed next remaining) {roots : List α} {p : α → Bool}
    (hp : ∀ v ∈ roots, p v = true) :
    exploreAll next remaining
        (((exploreAll next remaining (roots.map (withNext next))).filter p).map (withNext next)) =
      exploreAll next remaining (roots.map (withNext next)) := by
  induction roots generalizing remaining with
  | nil => rfl
  | cons root roots ih =>
    obtain ⟨hroot, hroots⟩ := List.forall_mem_cons.1 hp
    have hrest := ih (h.filter_explore (withNext next root)) hroots
    simp only [List.map_cons, exploreAll, List.filter_append, List.map_append, exploreAll_append,
      explore_again h hroot, hrest]

end Netlist
