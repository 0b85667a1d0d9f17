import Mathlib.Data.List.Perm.Subperm
import Netlist.Balance.Leaves
import Netlist.Proofs.Assignment
import Netlist.Proofs.Order
import Netlist.Proofs.Outcome

/-!
# The search for leaves

One operation of a connective reads another if the other produces one of its sources. A search from
a root finishes every operation after those that it reads, so the finished operations, last one
first, are sorted: each stands before all that it reads. The leaves are the sources of finished
operations that no operation of the connective produces. Everything that is found lies below the
root.

If the search fails, some operation below the root reads itself through others. A path visits no
operation twice, so the bound on its depth is never reached.
-/

namespace Netlist.Bitwise

open Relation

variable {b : Bitwise} {ops : List Operation} {depth : Nat} {path : List Operation}
  {op p q : Operation} {w w' w'' : Walk} {v : Node}

theorem inner?_spec (h : b.inner? ops v = some p) :
    p ∈ ops ∧ p.dest = v ∧ p.opcode = b.opcode := by
  obtain ⟨hf, hc⟩ := Option.filter_eq_some_iff.1 h
  exact ⟨List.mem_of_find?_eq_some hf, by simpa using List.find?_some hf, by simpa using hc⟩

theorem inner?_eq_some (hs : SingleAssignment ops) :
    b.inner? ops v = some p ↔ p ∈ ops ∧ p.dest = v ∧ p.opcode = b.opcode := by
  refine ⟨inner?_spec, ?_⟩
  rintro ⟨hp, hd, hc⟩
  rw [inner?, hs.find?_dest_eq_some.2 ⟨hp, hd⟩]
  simpa using hc

/-- An operation of the connective has a source that another one produces. -/
def Reads (b : Bitwise) (ops : List Operation) (q p : Operation) : Prop :=
  q ∈ ops ∧ q.opcode = b.opcode ∧ ∃ v ∈ q.sources, b.inner? ops v = some p

theorem Reads.mem (h : b.Reads ops q p) : p ∈ ops := (inner?_spec h.2.2.choose_spec.2).1

theorem Reads.opcode (h : b.Reads ops q p) : p.opcode = b.opcode :=
  (inner?_spec h.2.2.choose_spec.2).2.2

theorem Reads.dest_mem (h : b.Reads ops q p) : p.dest ∈ q.sources := by
  obtain ⟨_, _, v, hv, hp⟩ := h
  exact (inner?_spec hp).2.1 ▸ hv

theorem Reads.inner?_dest (h : b.Reads ops q p) : b.inner? ops p.dest = some p := by
  obtain ⟨_, _, v, _, hp⟩ := h
  rw [(inner?_spec hp).2.1]
  exact hp

/-- The operations of a list that are of a connective. -/
def within (b : Bitwise) (ops : List Operation) : List Operation :=
  ops.filter (·.opcode = b.opcode)

theorem mem_within : op ∈ b.within ops ↔ op ∈ ops ∧ op.opcode = b.opcode := by
  simp [within]

theorem Reads.dependsOn (h : b.Reads ops q p) : DependsOn (b.within ops) q.dest p.dest :=
  ⟨q, mem_within.2 ⟨h.1, h.2.1⟩, rfl, h.dest_mem⟩

/-- Every listed operation stands before the ones that it reads. -/
def Sorted (b : Bitwise) (ops : List Operation) : List Operation → Prop
  | [] => True
  | p :: l => p ∉ l ∧ (∀ v ∈ p.sources, ∀ q, b.inner? ops v = some q → q ∈ l) ∧ Sorted b ops l

namespace Walk

/-- All that the finished operations of a walk read has been found. -/
structure Settled (b : Bitwise) (ops : List Operation) (w : Walk) : Prop where
  sorted : Sorted b ops w.finished
  leaf : ∀ v ∈ w.leaves, b.inner? ops v = none
  nodup : w.leaves.Nodup
  met : ∀ p ∈ w.finished, ∀ v ∈ p.sources, b.inner? ops v = none → v ∈ w.leaves

/-- What the search for the sources of an operation at the end of a path adds to a walk. -/
structure Grows (b : Bitwise) (ops path : List Operation) (op : Operation) (w w' : Walk) :
    Prop where
  settled : w'.Settled b ops
  finished : w.finished ⊆ w'.finished
  leaves : w.leaves ⊆ w'.leaves
  apart : ∀ q ∈ path, q ∉ w'.finished
  finished_below : ∀ p ∈ w'.finished, p ∈ w.finished ∨ ReflTransGen (b.Reads ops) op p
  leaves_below : ∀ v ∈ w'.leaves, v ∈ w.leaves ∨
    ∃ p, ReflTransGen (b.Reads ops) op p ∧ v ∈ p.sources

/-- A source has been taken into a walk. -/
def Knows (b : Bitwise) (ops : List Operation) (w : Walk) (v : Node) : Prop :=
  (b.inner? ops v = none → v ∈ w.leaves) ∧ ∀ q, b.inner? ops v = some q → q ∈ w.finished

theorem settled_empty : Settled b ops {} := ⟨trivial, by simp, List.nodup_nil, by simp⟩

theorem Grows.refl (hw : w.Settled b ops) (hapart : ∀ q ∈ path, q ∉ w.finished) :
    Grows b ops path op w w :=
  ⟨hw, List.Subset.refl _, List.Subset.refl _, hapart, fun _ hp => .inl hp, fun _ hv => .inl hv⟩

theorem Grows.trans (h : Grows b ops path op w w') (h' : Grows b ops path op w' w'') :
    Grows b ops path op w w'' where
  settled := h'.settled
  finished := List.Subset.trans h.finished h'.finished
  leaves := List.Subset.trans h.leaves h'.leaves
  apart := h'.apart
  finished_below p hp := (h'.finished_below p hp).elim (h.finished_below p) .inr
  leaves_below v hv := (h'.leaves_below v hv).elim (h.leaves_below v) .inr

theorem Grows.above (h : Grows b ops path p w w') (hr : b.Reads ops op p) :
    Grows b ops path op w w' where
  settled := h.settled
  finished := h.finished
  leaves := h.leaves
  apart := h.apart
  finished_below q hq := (h.finished_below q hq).imp_right (.head hr)
  leaves_below v hv := (h.leaves_below v hv).imp_right fun ⟨q, hq, hv⟩ => ⟨q, .head hr hq, hv⟩

theorem Knows.mono (h : w.Knows b ops v) (hg : Grows b ops path op w w') : w'.Knows b ops v :=
  ⟨fun hv => hg.leaves (h.1 hv), fun q hq => hg.finished (h.2 q hq)⟩

theorem mem_meet {u : Node} : u ∈ (w.meet v).leaves ↔ u ∈ w.leaves ∨ u = v := by
  rw [meet]
  split_ifs with hv
  · exact ⟨.inl, fun h => h.elim id (fun he => he ▸ hv)⟩
  · simp

theorem finished_meet : (w.meet v).finished = w.finished := by
  rw [meet]
  split_ifs <;> rfl

theorem Settled.meet (hw : w.Settled b ops) (hv : b.inner? ops v = none) :
    (w.meet v).Settled b ops where
  sorted := by
    rw [finished_meet]
    exact hw.sorted
  leaf u hu := (mem_meet.1 hu).elim (hw.leaf u) (fun he => he ▸ hv)
  nodup := by
    rw [Walk.meet]
    split_ifs with hmem
    · exact hw.nodup
    · exact List.nodup_append.2 ⟨hw.nodup, List.nodup_singleton v, by
        rintro a ha c hc rfl
        exact hmem (List.mem_singleton.1 hc ▸ ha)⟩
  met p hp u hu hnone := mem_meet.2 (.inl (hw.met p (finished_meet ▸ hp) u hu hnone))

theorem Settled.finish (hw : w.Settled b ops) (hop : op ∉ w.finished)
    (hsources : ∀ v ∈ op.sources, w.Knows b ops v) : (w.finish op).Settled b ops where
  sorted := ⟨hop, fun v hv => (hsources v hv).2, hw.sorted⟩
  leaf := hw.leaf
  nodup := hw.nodup
  met p hp v hv hnone := by
    rcases List.mem_cons.1 hp with rfl | hp
    · exact (hsources v hv).1 hnone
    · exact hw.met p hp v hv hnone

end Walk

/-- The step of a search that takes one source of the last operation of a path into a walk. -/
def descend (b : Bitwise) (ops : List Operation) (depth : Nat) (path : List Operation) (w : Walk)
    (v : Node) : Except Node Walk :=
  match b.inner? ops v with
  | none => .ok (w.meet v)
  | some p =>
    if p ∈ w.finished then .ok w
    else if p ∈ path then .error v
    else b.visit ops depth path p w

theorem visit_succ : b.visit ops (depth + 1) path op w =
    op.sources.foldlM (b.descend ops depth (op :: path)) w >>= fun w => .ok (w.finish op) := rfl

/-- One source is taken into a walk, provided that searches further down do what they should. -/
theorem descend_grows
    (hvisit : ∀ p w w', p ∈ ops → p.opcode = b.opcode → p ∉ op :: path → w.Settled b ops →
      (∀ q ∈ p :: op :: path, q ∉ w.finished) → b.visit ops depth (op :: path) p w = .ok w' →
      w.Grows b ops (op :: path) p w' ∧ p ∈ w'.finished)
    (hop : op ∈ ops) (hc : op.opcode = b.opcode) (hv : v ∈ op.sources) (hw : w.Settled b ops)
    (hapart : ∀ q ∈ op :: path, q ∉ w.finished)
    (h : b.descend ops depth (op :: path) w v = .ok w') :
    w.Grows b ops (op :: path) op w' ∧ w'.Knows b ops v := by
  rw [descend] at h
  cases hi : b.inner? ops v with
  | none =>
    rw [hi] at h
    cases h
    refine ⟨⟨hw.meet hi, ?_, fun u hu => Walk.mem_meet.2 (.inl hu), ?_, ?_, ?_⟩, ?_⟩
    · rw [Walk.finished_meet]
      exact List.Subset.refl _
    · rw [Walk.finished_meet]
      exact hapart
    · rw [Walk.finished_meet]
      exact fun p hp => .inl hp
    · intro u hu
      rcases Walk.mem_meet.1 hu with hu | rfl
      · exact .inl hu
      · exact .inr ⟨op, .refl, hv⟩
    · exact ⟨fun _ => Walk.mem_meet.2 (.inr rfl), fun q hq => by simp [hi] at hq⟩
  | some p =>
    rw [hi] at h
    obtain ⟨hp, -, hpc⟩ := inner?_spec hi
    have hreads : b.Reads ops op p := ⟨hop, hc, v, hv, hi⟩
    have hknows (hfin : p ∈ w'.finished) : w'.Knows b ops v :=
      ⟨fun hn => by simp [hi] at hn, fun q hq => Option.some.inj (hi.symm.trans hq) ▸ hfin⟩
    dsimp only at h
    split_ifs at h with hfin hpath
    · cases h
      exact ⟨.refl hw hapart, hknows hfin⟩
    · have hpapart : ∀ q ∈ p :: op :: path, q ∉ w.finished :=
        List.forall_mem_cons.2 ⟨hfin, hapart⟩
      obtain ⟨hg, hpfin⟩ := hvisit p w w' hp hpc hpath hw hpapart h
      exact ⟨hg.above hreads, hknows hpfin⟩

theorem foldlM_descend_grows {sources : List Node} (hsources : sources ⊆ op.sources)
    (hstep : ∀ v ∈ op.sources, ∀ w w', w.Settled b ops → (∀ q ∈ op :: path, q ∉ w.finished) →
      b.descend ops depth (op :: path) w v = .ok w' →
      w.Grows b ops (op :: path) op w' ∧ w'.Knows b ops v)
    (hw : w.Settled b ops) (hapart : ∀ q ∈ op :: path, q ∉ w.finished)
    (h : sources.foldlM (b.descend ops depth (op :: path)) w = .ok w') :
    w.Grows b ops (op :: path) op w' ∧ ∀ v ∈ sources, w'.Knows b ops v := by
  induction sources generalizing w with
  | nil =>
    cases h
    exact ⟨.refl hw hapart, by simp⟩
  | cons v sources ih =>
    obtain ⟨w₁, hw₁, hrest⟩ := foldlM_cons_eq_ok.1 h
    obtain ⟨hv, hsources⟩ := List.cons_subset.1 hsources
    obtain ⟨hg, hknows⟩ := hstep v hv w w₁ hw hapart hw₁
    obtain ⟨hg', hknows'⟩ := ih hsources hg.settled hg.apart hrest
    exact ⟨hg.trans hg', List.forall_mem_cons.2 ⟨hknows.mono hg', hknows'⟩⟩

/-- A path that visits no operation twice leaves room for its last one. -/
theorem depth_pos (hnodup : (op :: path).Nodup) (hsub : op :: path ⊆ ops)
    (hdepth : ops.length < depth + path.length) : 0 < depth := by
  have hlength := (List.subperm_of_subset hnodup hsub).length_le
  rw [List.length_cons] at hlength
  omega

/-- A search that ends has finished its operation last, and everything that it reads before. -/
theorem visit_grows (hnodup : (op :: path).Nodup) (hsub : op :: path ⊆ ops)
    (hdepth : ops.length < depth + path.length) (hc : op.opcode = b.opcode)
    (hw : w.Settled b ops) (hapart : ∀ q ∈ op :: path, q ∉ w.finished)
    (h : b.visit ops depth path op w = .ok w') :
    w.Grows b ops path op w' ∧ ∃ l, w'.finished = op :: l := by
  induction depth generalizing path op w w' with
  | zero => exact absurd (depth_pos hnodup hsub hdepth) (Nat.lt_irrefl 0)
  | succ depth ih =>
    rw [visit_succ, bind_eq_ok] at h
    obtain ⟨w₁, hfold, hfinish⟩ := h
    cases hfinish
    have hop : op ∈ ops := hsub List.mem_cons_self
    have hvisit : ∀ p w w', p ∈ ops → p.opcode = b.opcode → p ∉ op :: path → w.Settled b ops →
        (∀ q ∈ p :: op :: path, q ∉ w.finished) → b.visit ops depth (op :: path) p w = .ok w' →
        w.Grows b ops (op :: path) p w' ∧ p ∈ w'.finished := by
      intro p w w' hp hpc hpath hw hapart hv
      obtain ⟨hg, l, hl⟩ := ih (List.nodup_cons.2 ⟨hpath, hnodup⟩) (List.cons_subset.2 ⟨hp, hsub⟩)
        (by rw [List.length_cons]; omega) hpc hw hapart hv
      exact ⟨hg, hl ▸ List.mem_cons_self⟩
    obtain ⟨hg, hknows⟩ := foldlM_descend_grows (List.Subset.refl _)
      (fun v hv w w' hw hapart => descend_grows hvisit hop hc hv hw hapart) hw hapart hfold
    refine ⟨⟨hg.settled.finish (hg.apart op List.mem_cons_self) hknows,
      List.subset_cons_of_subset _ hg.finished, hg.leaves, ?_, ?_, hg.leaves_below⟩, _, rfl⟩
    · intro q hq hmem
      rcases List.mem_cons.1 hmem with rfl | hmem
      · exact (List.nodup_cons.1 hnodup).1 hq
      · exact hg.apart q (List.mem_cons_of_mem op hq) hmem
    · intro p hp
      rcases List.mem_cons.1 hp with rfl | hp
      · exact .inr .refl
      · exact hg.finished_below p hp

/-- A search that fails has come upon an operation that reads itself through others. -/
theorem visit_error (hop : op ∈ ops) (hc : op.opcode = b.opcode)
    (habove : ∀ q ∈ path, TransGen (b.Reads ops) q op)
    (h : b.visit ops depth path op w = .error v) :
    ∃ q, ReflTransGen (b.Reads ops) op q ∧ TransGen (b.Reads ops) q q := by
  induction depth generalizing path op w with
  | zero => cases h
  | succ depth ih =>
    have hfold : op.sources.foldlM (b.descend ops depth (op :: path)) w = .error v := by
      rw [visit_succ] at h
      cases hf : op.sources.foldlM (b.descend ops depth (op :: path)) w with
      | error u =>
        rw [hf] at h
        exact h
      | ok w₁ =>
        rw [hf] at h
        cases h
    obtain ⟨u, hu, w₁, hstep⟩ := exists_step_of_foldlM_eq_error hfold
    rw [descend] at hstep
    cases hi : b.inner? ops u with
    | none =>
      rw [hi] at hstep
      cases hstep
    | some p =>
      rw [hi] at hstep
      obtain ⟨hp, -, hpc⟩ := inner?_spec hi
      have hreads : b.Reads ops op p := ⟨hop, hc, u, hu, hi⟩
      dsimp only at hstep
      split_ifs at hstep with hfin hpath
      · refine ⟨p, .single hreads, ?_⟩
        rcases List.mem_cons.1 hpath with rfl | hpath
        · exact .single hreads
        · exact (habove p hpath).tail hreads
      · have habove' : ∀ q ∈ op :: path, TransGen (b.Reads ops) q p :=
          List.forall_mem_cons.2 ⟨.single hreads, fun q hq => (habove q hq).tail hreads⟩
        obtain ⟨q, hq, hcycle⟩ := ih hp hpc habove' hstep
        exact ⟨q, .head hreads hq, hcycle⟩

end Netlist.Bitwise
