import Mathlib.Data.List.Forall2

/-!
# Computations that may fail

A computation in `Except` that succeeds can be taken apart: a sequence of two succeeds where both
do, and a list is mapped where each of its elements is. One that fails has a first step that does,
and fails as this step does. The passes are written in `Except`, and their specifications start from
these equations.
-/

namespace Netlist

variable {ε α β σ : Type}

theorem bind_eq_ok {x : Except ε α} {f : α → Except ε β} {b : β} :
    x >>= f = .ok b ↔ ∃ a, x = .ok a ∧ f a = .ok b := by
  cases x with
  | error e => simp [bind, Except.bind]
  | ok a => simp [bind, Except.bind]

theorem bind_eq_error {x : Except ε α} {f : α → Except ε β} {e : ε} :
    x >>= f = .error e ↔ x = .error e ∨ ∃ a, x = .ok a ∧ f a = .error e := by
  cases x with
  | error e' => simp [bind, Except.bind]
  | ok a => simp [bind, Except.bind]

theorem exists_eq_ok_iff {x : Except ε α} : (∃ a, x = .ok a) ↔ ∀ e, x ≠ .error e := by
  cases x with
  | error e => simp
  | ok a => simp

theorem mapM_eq_ok {f : α → Except ε β} {l : List α} {l' : List β} :
    l.mapM f = .ok l' ↔ List.Forall₂ (fun a b => f a = .ok b) l l' := by
  induction l generalizing l' with
  | nil => simp [pure, Except.pure, eq_comm]
  | cons a l ih =>
    simp only [List.mapM_cons, bind_eq_ok, ih, List.forall₂_cons_left_iff]
    constructor
    · rintro ⟨b, hb, bs, hbs, heq⟩
      cases heq
      exact ⟨b, bs, hb, hbs, rfl⟩
    · rintro ⟨b, bs, hb, hbs, rfl⟩
      exact ⟨b, hb, bs, hbs, rfl⟩

theorem exists_mapM_eq_ok {f : α → Except ε β} {l : List α} (h : ∀ a ∈ l, ∃ b, f a = .ok b) :
    ∃ l', l.mapM f = .ok l' := by
  induction l with
  | nil => exact ⟨[], rfl⟩
  | cons a l ih =>
    obtain ⟨b, hb⟩ := h a List.mem_cons_self
    obtain ⟨l', hl'⟩ := ih fun a' ha' => h a' (List.mem_cons_of_mem a ha')
    exact ⟨b :: l', mapM_eq_ok.2 (.cons hb (mapM_eq_ok.1 hl'))⟩

theorem exists_of_mem_mapM {f : α → Except ε β} {l : List α} {l' : List β}
    (h : l.mapM f = .ok l') {b : β} (hb : b ∈ l') : ∃ a ∈ l, f a = .ok b := by
  have hall := mapM_eq_ok.1 h
  clear h
  induction hall with
  | nil => cases hb
  | cons ha _ ih =>
    rcases List.mem_cons.1 hb with rfl | hb
    · exact ⟨_, List.mem_cons_self, ha⟩
    · obtain ⟨a, hmem, hf⟩ := ih hb
      exact ⟨a, List.mem_cons_of_mem _ hmem, hf⟩

theorem exists_mem_mapM {f : α → Except ε β} {l : List α} {l' : List β}
    (h : l.mapM f = .ok l') {a : α} (ha : a ∈ l) : ∃ b ∈ l', f a = .ok b := by
  have hall := mapM_eq_ok.1 h
  clear h
  induction hall with
  | nil => cases ha
  | cons hb _ ih =>
    rcases List.mem_cons.1 ha with rfl | ha
    · exact ⟨_, List.mem_cons_self, hb⟩
    · obtain ⟨b, hmem, hf⟩ := ih ha
      exact ⟨b, List.mem_cons_of_mem _ hmem, hf⟩

theorem mapM_cons_eq_error {f : α → Except ε β} {a : α} {l : List α} {e : ε} :
    (a :: l).mapM f = .error e ↔ f a = .error e ∨ (∃ b, f a = .ok b) ∧ l.mapM f = .error e := by
  rw [List.mapM_cons, bind_eq_error]
  refine or_congr_right ?_
  simp only [bind_eq_error, pure, Except.pure, reduceCtorEq, and_false, exists_false, or_false,
    exists_and_right]

theorem mapM_concat_eq_error {f : α → Except ε β} {l : List α} {a : α} {e : ε} :
    (l ++ [a]).mapM f = .error e ↔
      l.mapM f = .error e ∨ (∃ l', l.mapM f = .ok l') ∧ f a = .error e := by
  rw [List.mapM_append, bind_eq_error]
  refine or_congr_right ?_
  simp only [bind_eq_error, mapM_cons_eq_error, List.mapM_nil, pure, Except.pure, reduceCtorEq,
    and_false, exists_false, or_false, exists_and_right]

theorem mapM_eq_error {f : α → Except ε β} {l : List α} {e : ε} :
    l.mapM f = .error e ↔ ∃ before a after, l = before ++ a :: after ∧
      (∀ b ∈ before, ∃ c, f b = .ok c) ∧ f a = .error e := by
  induction l with
  | nil => simp [pure, Except.pure]
  | cons a l ih =>
    rw [mapM_cons_eq_error, ih]
    constructor
    · rintro (ha | ⟨ha, before, b, after, rfl, hbefore, hb⟩)
      · exact ⟨[], a, l, rfl, List.forall_mem_nil _, ha⟩
      · exact ⟨a :: before, b, after, rfl, List.forall_mem_cons.2 ⟨ha, hbefore⟩, hb⟩
    · rintro ⟨before, b, after, heq, hbefore, hb⟩
      cases before with
      | nil =>
        obtain ⟨rfl, -⟩ := List.cons.inj heq
        exact .inl hb
      | cons c before =>
        obtain ⟨rfl, rfl⟩ := List.cons.inj heq
        obtain ⟨hc, hbefore⟩ := List.forall_mem_cons.1 hbefore
        exact .inr ⟨hc, before, b, after, rfl, hbefore, hb⟩

theorem foldlM_cons_eq_ok {f : σ → α → Except ε σ} {s t : σ} {a : α} {l : List α} :
    (a :: l).foldlM f s = .ok t ↔ ∃ s', f s a = .ok s' ∧ l.foldlM f s' = .ok t := by
  rw [List.foldlM_cons, bind_eq_ok]

theorem foldlM_congr {f f' : σ → α → Except ε σ} {l : List α} {s : σ}
    (h : ∀ s, ∀ a ∈ l, f s a = f' s a) : l.foldlM f s = l.foldlM f' s := by
  induction l generalizing s with
  | nil => rfl
  | cons a l ih =>
    rw [List.foldlM_cons, List.foldlM_cons, h s a List.mem_cons_self]
    exact bind_congr fun s' => ih fun s a ha => h s a (List.mem_cons_of_mem _ ha)

/-- An invariant of the steps still to come and the state holds at the end of a fold. -/
theorem foldlM_invariant {f : σ → α → Except ε σ} {I : List α → σ → Prop}
    (step : ∀ a l s s', I (a :: l) s → f s a = .ok s' → I l s') {l : List α} {s t : σ}
    (hs : I l s) (h : l.foldlM f s = .ok t) : I [] t := by
  induction l generalizing s with
  | nil =>
    cases h
    exact hs
  | cons a l ih =>
    obtain ⟨s', hs', h⟩ := foldlM_cons_eq_ok.1 h
    exact ih (step a l s s' hs hs') h

theorem exists_foldlM_invariant {f : σ → α → Except ε σ} {I : List α → σ → Prop}
    (step : ∀ a l s, I (a :: l) s → ∃ s', f s a = .ok s' ∧ I l s') {l : List α} {s : σ}
    (hs : I l s) : ∃ t, l.foldlM f s = .ok t ∧ I [] t := by
  induction l generalizing s with
  | nil => exact ⟨s, rfl, hs⟩
  | cons a l ih =>
    obtain ⟨s', hf, hs'⟩ := step a l s hs
    obtain ⟨t, ht, hI⟩ := ih hs'
    exact ⟨t, foldlM_cons_eq_ok.2 ⟨s', hf, ht⟩, hI⟩

theorem exists_step_of_foldlM_eq_error {f : σ → α → Except ε σ} {s : σ} {l : List α} {e : ε}
    (h : l.foldlM f s = .error e) : ∃ a ∈ l, ∃ s', f s' a = .error e := by
  induction l generalizing s with
  | nil => cases h
  | cons a l ih =>
    rw [List.foldlM_cons] at h
    cases hs : f s a with
    | error e' =>
      rw [hs] at h
      cases h
      exact ⟨a, List.mem_cons_self, s, hs⟩
    | ok s' =>
      rw [hs] at h
      obtain ⟨a', ha', s'', hs''⟩ := ih h
      exact ⟨a', List.mem_cons_of_mem a ha', s'', hs''⟩

end Netlist
