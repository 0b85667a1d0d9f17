import Mathlib
import Netlist.Proofs.Leaves
import Netlist.Proofs.Solutions

/-!
# Leaves and the unfolded tree

If every source that an operation of the connective produces is expanded, however often it is read,
the operations below a root unfold to a tree. `Unfolds` relates nodes to the leaves of their trees,
from left to right and with all repetitions. This list may be exponentially longer than the circuit;
the search for leaves visits every operation once.

Still the search finds the same. It meets the leaves in the order in which they first occur in the
unfolded list, because an operation that is finished has all of its leaves listed. The live ones are
those that count in the list: all of them for an idempotent connective, and for `xor` those that
occur an odd number of times. To see this, give every leaf but one the neutral element as its value;
then the value of the root tells whether that one counts. The search fails exactly if it can reach
a loop, and its bound on the depth plays no part.
-/

namespace Netlist.Bitwise

open Relation

variable {b : Bitwise} {ops : List Operation} {depth depth' : ℕ} {path : List Operation}
  {root op p q : Operation} {w w' : Walk} {u v : Node} {vs us us' l : List Node}

/-- The leaves below some nodes, from left to right, as often as they occur in the tree that arises
when every node that the connective produces is replaced by the sources of its operation. -/
inductive Unfolds (b : Bitwise) (ops : List Operation) : List Node → List Node → Prop
  | nil : Unfolds b ops [] []
  | leaf {v : Node} {vs us : List Node} : b.inner? ops v = none → Unfolds b ops vs us →
      Unfolds b ops (v :: vs) (v :: us)
  | inner {v : Node} {p : Operation} {vs us us' : List Node} : b.inner? ops v = some p →
      Unfolds b ops p.sources us → Unfolds b ops vs us' → Unfolds b ops (v :: vs) (us ++ us')

/-- An operation can reach one that reads itself, directly or through others. -/
def ReachesLoop (b : Bitwise) (ops : List Operation) (root : Operation) : Prop :=
  ∃ p, ReflTransGen (b.Reads ops) root p ∧ TransGen (b.Reads ops) p p

theorem Unfolds.unique (h : b.Unfolds ops vs us) (h' : b.Unfolds ops vs us') : us' = us := by
  induction h generalizing us' with
  | nil =>
    cases h'
    rfl
  | leaf hv _ ih =>
    cases h' with
    | leaf _ h' => rw [ih h']
    | inner hv' => cases hv.symm.trans hv'
  | inner hv _ _ ihp ih =>
    cases h' with
    | leaf hv' => cases hv.symm.trans hv'
    | inner hv' hp' h' =>
      cases hv.symm.trans hv'
      rw [ihp hp', ih h']

theorem Unfolds.inner_single (hv : b.inner? ops v = some p) (h : b.Unfolds ops p.sources us) :
    b.Unfolds ops [v] us := by
  have hsingle := Unfolds.inner hv h .nil
  rwa [List.append_nil] at hsingle

theorem exists_unfolds_of_inner
    (h : ∀ v ∈ vs, ∀ p, b.inner? ops v = some p → ∃ us, b.Unfolds ops p.sources us) :
    ∃ us, b.Unfolds ops vs us := by
  induction vs with
  | nil => exact ⟨[], .nil⟩
  | cons v vs ih =>
    obtain ⟨hv, hvs⟩ := List.forall_mem_cons.1 h
    obtain ⟨us', hus'⟩ := ih hvs
    cases hi : b.inner? ops v with
    | none => exact ⟨v :: us', .leaf hi hus'⟩
    | some p =>
      obtain ⟨us, hus⟩ := hv p hi
      exact ⟨us ++ us', .inner hi hus hus'⟩

theorem Sorted.mem_of_inner {l : List Operation} (h : Sorted b ops l) (hp : p ∈ l)
    (hv : v ∈ p.sources) (hq : b.inner? ops v = some q) : q ∈ l := by
  induction l with
  | nil => cases hp
  | cons p' l ih =>
    obtain ⟨-, hread, hsorted⟩ := h
    rcases List.mem_cons.1 hp with rfl | hp
    · exact List.mem_cons_of_mem p (hread v hv q hq)
    · exact List.mem_cons_of_mem p' (ih hsorted hp)

theorem Sorted.exists_unfolds {l : List Operation} (h : Sorted b ops l) (hp : p ∈ l) :
    ∃ us, b.Unfolds ops p.sources us := by
  induction l generalizing p with
  | nil => cases hp
  | cons p' l ih =>
    obtain ⟨-, hread, hsorted⟩ := h
    rcases List.mem_cons.1 hp with rfl | hp
    · exact exists_unfolds_of_inner fun v hv q hq => ih hsorted (hread v hv q hq)
    · exact ih hsorted hp

theorem Sorted.mem_of_reads {l : List Operation} (h : Sorted b ops l) (hp : p ∈ l)
    (hr : ReflTransGen (b.Reads ops) p q) : q ∈ l := by
  induction hr with
  | refl => exact hp
  | tail _ hr ih =>
    obtain ⟨-, -, v, hv, hq⟩ := hr
    exact h.mem_of_inner ih hv hq

/-- What is sorted has no loops: an operation reads only what comes behind it. -/
theorem Sorted.not_reads_self {l : List Operation} (h : Sorted b ops l) (hp : p ∈ l) :
    ¬TransGen (b.Reads ops) p p := by
  induction l with
  | nil => cases hp
  | cons p' l ih =>
    intro hloop
    obtain ⟨hnot, hread, hsorted⟩ := h
    obtain ⟨q, ⟨-, -, v, hv, hq⟩, hrest⟩ := TransGen.head'_iff.1 hloop
    rcases List.mem_cons.1 hp with rfl | hp
    · exact hnot (hsorted.mem_of_reads (hread v hv q hq) hrest)
    · exact ih hsorted hp hloop

/-- A list with those elements of another one added at its end that it does not have yet. -/
def addNew (l us : List Node) : List Node := us.foldl (fun l v => if v ∈ l then l else l ++ [v]) l

theorem addNew_append : addNew l (us ++ us') = addNew (addNew l us) us' := List.foldl_append

theorem addNew_of_subset (h : us ⊆ l) : addNew l us = l := by
  induction us with
  | nil => rfl
  | cons v us ih =>
    obtain ⟨hv, hus⟩ := List.cons_subset.1 h
    rw [addNew, List.foldl_cons, if_pos hv]
    exact ih hus

theorem addNew_eq_append (l us : List Node) :
    addNew l us = l ++ (us.filter (· ∉ l)).eraseDups := by
  induction us generalizing l with
  | nil => simp [addNew]
  | cons v us ih =>
    by_cases hv : v ∈ l
    · rw [addNew, List.foldl_cons, if_pos hv, List.filter_cons_of_neg (by simpa using hv)]
      exact ih l
    · have hfilter : us.filter (· ∉ l ++ [v]) = (us.filter (· ∉ l)).filter (fun u => !u == v) := by
        rw [List.filter_filter]
        refine List.filter_congr fun u _ => ?_
        by_cases hu : u = v <;> simp [hu]
      rw [addNew, List.foldl_cons, if_neg hv, List.filter_cons_of_pos (by simpa using hv),
        List.eraseDups_cons, ← hfilter]
      exact (ih (l ++ [v])).trans (List.append_assoc l [v] _)

theorem addNew_nil (us : List Node) : addNew [] us = us.eraseDups := by
  rw [addNew_eq_append, List.nil_append, List.filter_eq_self.2 (by simp)]

namespace Walk

theorem leaves_meet : (w.meet v).leaves = addNew w.leaves [v] := by
  rw [meet, addNew, List.foldl_cons, List.foldl_nil]
  split_ifs <;> rfl

theorem Settled.knows (hw : w.Settled b ops) (hp : p ∈ w.finished) (hv : v ∈ p.sources) :
    w.Knows b ops v :=
  ⟨hw.met p hp v hv, fun _ hq => hw.sorted.mem_of_inner hp hv hq⟩

/-- All leaves below nodes that have been taken into a walk are listed there. -/
theorem Settled.unfolds_subset (hw : w.Settled b ops) (h : b.Unfolds ops vs us)
    (hvs : ∀ v ∈ vs, w.Knows b ops v) : us ⊆ w.leaves := by
  induction h with
  | nil => exact List.nil_subset _
  | leaf hv _ ih =>
    obtain ⟨hknows, hvs⟩ := List.forall_mem_cons.1 hvs
    exact List.cons_subset.2 ⟨hknows.1 hv, ih hvs⟩
  | inner hv _ _ ihp ih =>
    obtain ⟨hknows, hvs⟩ := List.forall_mem_cons.1 hvs
    have hfinished := hknows.2 _ hv
    exact List.append_subset.2 ⟨ihp fun u hu => hw.knows hfinished hu, ih hvs⟩

end Walk

/-- Searches that have room for the longest path do not differ. -/
theorem visit_depth (hnodup : (op :: path).Nodup) (hsub : op :: path ⊆ ops)
    (hdepth : ops.length < depth + path.length) (hdepth' : ops.length < depth' + path.length) :
    b.visit ops depth path op w = b.visit ops depth' path op w := by
  induction depth generalizing depth' path op w with
  | zero => exact absurd (depth_pos hnodup hsub hdepth) (Nat.lt_irrefl 0)
  | succ depth ih =>
    have hpos := depth_pos hnodup hsub hdepth'
    obtain ⟨depth', rfl⟩ := Nat.exists_eq_succ_of_ne_zero hpos.ne'
    have hdescend : b.descend ops depth (op :: path) = b.descend ops depth' (op :: path) := by
      funext w v
      unfold descend
      cases hi : b.inner? ops v with
      | none => rfl
      | some p =>
        have hp := (inner?_spec hi).1
        dsimp only
        split_ifs with hfinished hpath
        · rfl
        · rfl
        · exact ih (List.nodup_cons.2 ⟨hpath, hnodup⟩) (List.cons_subset.2 ⟨hp, hsub⟩)
            (by rw [List.length_cons]; omega) (by rw [List.length_cons]; omega)
    rw [visit_succ, Nat.succ_eq_add_one, visit_succ, hdescend]

theorem grows_of_descend (hnodup : (op :: path).Nodup) (hsub : op :: path ⊆ ops)
    (hdepth : ops.length < depth + (op :: path).length) (hc : op.opcode = b.opcode)
    (hv : v ∈ op.sources) (hw : w.Settled b ops) (hapart : ∀ q ∈ op :: path, q ∉ w.finished)
    (h : b.descend ops depth (op :: path) w v = .ok w') :
    w.Grows b ops (op :: path) op w' ∧ w'.Knows b ops v := by
  refine descend_grows ?_ (hsub List.mem_cons_self) hc hv hw hapart h
  intro p w w' hp hpc hpath hw hapart hvisit
  obtain ⟨hg, l, hl⟩ := visit_grows (List.nodup_cons.2 ⟨hpath, hnodup⟩)
    (List.cons_subset.2 ⟨hp, hsub⟩) hdepth hpc hw hapart hvisit
  exact ⟨hg, hl ▸ List.mem_cons_self⟩

/-- A source adds the leaves below it that have not been met, provided that searches further down
do the same. -/
theorem descend_leaves
    (hvisit : ∀ p us w', p ∈ ops → p.opcode = b.opcode → p ∉ op :: path → p ∉ w.finished →
      b.Unfolds ops p.sources us → b.visit ops depth (op :: path) p w = .ok w' →
      w'.leaves = addNew w.leaves us)
    (hw : w.Settled b ops) (hu : b.Unfolds ops [v] us)
    (h : b.descend ops depth (op :: path) w v = .ok w') : w'.leaves = addNew w.leaves us := by
  unfold descend at h
  cases hu with
  | leaf hi hrest =>
    cases hrest
    rw [hi] at h
    cases h
    exact Walk.leaves_meet
  | @inner _ p _ us _ hi hp hrest =>
    cases hrest
    rw [hi] at h
    rw [List.append_nil]
    obtain ⟨hmem, -, hpc⟩ := inner?_spec hi
    dsimp only at h
    split_ifs at h with hfinished hpath
    · cases h
      have hknows : ∀ v ∈ p.sources, w.Knows b ops v := fun v hv => hw.knows hfinished hv
      exact (addNew_of_subset (hw.unfolds_subset hp hknows)).symm
    · exact hvisit p us w' hmem hpc hpath hfinished hp h

theorem Unfolds.exists_append (h : b.Unfolds ops (v :: vs) us) :
    ∃ us₁ us₂, b.Unfolds ops [v] us₁ ∧ b.Unfolds ops vs us₂ ∧ us = us₁ ++ us₂ := by
  cases h with
  | leaf hv h => exact ⟨[v], _, .leaf hv .nil, h, rfl⟩
  | inner hv hp h => exact ⟨_, _, .inner_single hv hp, h, rfl⟩

theorem foldlM_descend_leaves (hvs : vs ⊆ op.sources)
    (hstep : ∀ v ∈ op.sources, ∀ us w w', w.Settled b ops → (∀ q ∈ op :: path, q ∉ w.finished) →
      b.Unfolds ops [v] us → b.descend ops depth (op :: path) w v = .ok w' →
      w.Grows b ops (op :: path) op w' ∧ w'.leaves = addNew w.leaves us)
    (hw : w.Settled b ops) (hapart : ∀ q ∈ op :: path, q ∉ w.finished) (hu : b.Unfolds ops vs us)
    (h : vs.foldlM (b.descend ops depth (op :: path)) w = .ok w') :
    w'.leaves = addNew w.leaves us := by
  induction vs generalizing us w with
  | nil =>
    cases hu
    cases h
    rfl
  | cons v vs ih =>
    obtain ⟨hv, hvs⟩ := List.cons_subset.1 hvs
    obtain ⟨w₁, hfirst, hrest⟩ := foldlM_cons_eq_ok.1 h
    obtain ⟨us₁, us₂, hu₁, hu₂, rfl⟩ := hu.exists_append
    obtain ⟨hg, hleaves⟩ := hstep v hv us₁ w w₁ hw hapart hu₁ hfirst
    rw [addNew_append, ← hleaves]
    exact ih hvs hg.settled hg.apart hu₂ hrest

/-- A search adds the leaves of the unfolded tree that have not been met, in their order. -/
theorem visit_leaves (hnodup : (op :: path).Nodup) (hsub : op :: path ⊆ ops)
    (hdepth : ops.length < depth + path.length) (hc : op.opcode = b.opcode)
    (hw : w.Settled b ops) (hapart : ∀ q ∈ op :: path, q ∉ w.finished)
    (hu : b.Unfolds ops op.sources us) (h : b.visit ops depth path op w = .ok w') :
    w'.leaves = addNew w.leaves us := by
  induction depth generalizing path op w w' us with
  | zero => exact absurd (depth_pos hnodup hsub hdepth) (Nat.lt_irrefl 0)
  | succ depth ih =>
    have hdepth' : ops.length < depth + (op :: path).length := by
      rw [List.length_cons]
      omega
    rw [visit_succ, bind_eq_ok] at h
    obtain ⟨w₁, hfold, hfinish⟩ := h
    cases hfinish
    change w₁.leaves = addNew w.leaves us
    refine foldlM_descend_leaves (List.Subset.refl _) ?_ hw hapart hu hfold
    intro v hv us w w' hw hapart hu hstep
    obtain ⟨hg, -⟩ := grows_of_descend hnodup hsub hdepth' hc hv hw hapart hstep
    refine ⟨hg, descend_leaves ?_ hw hu hstep⟩
    intro p us w' hp hpc hpath hfinished hup hvisit
    exact ih (List.nodup_cons.2 ⟨hpath, hnodup⟩) (List.cons_subset.2 ⟨hp, hsub⟩) hdepth' hpc hw
      (List.forall_mem_cons.2 ⟨hfinished, hapart⟩) hup hvisit

/-- Whether a leaf that occurs in a list of leaves contributes to the value of the connective. -/
def Counts (b : Bitwise) (us : List Node) (u : Node) : Prop :=
  if b.isIdempotent then u ∈ us else us.count u % 2 = 1

instance : Decidable (b.Counts us u) :=
  inferInstanceAs (Decidable (if b.isIdempotent then u ∈ us else us.count u % 2 = 1))

theorem counts_iff_mem (h : us.Nodup) : b.Counts us u ↔ u ∈ us := by
  unfold Counts
  split_ifs
  · rfl
  · rw [h.count]
    split_ifs with hu <;> simp [hu]

theorem Counts.mem (h : b.Counts us u) : u ∈ us := by
  unfold Counts at h
  split_ifs at h
  · exact h
  · exact List.count_pos_iff.1 (by omega)

/-- A valuation of the leaves under which a connective tells whether one of them counts. -/
def mark (b : Bitwise) (u v : Node) : Bool :=
  match b with
  | and => decide (v ≠ u)
  | or => decide (v = u)
  | xor => decide (v = u)

theorem fold_mark_eq_neutral : b.fold (us.map (b.mark u)) = b.neutral ↔ ¬b.Counts us u := by
  unfold Counts
  induction us with
  | nil => cases b <;> simp [isIdempotent]
  | cons v us ih =>
    rw [List.map_cons, fold_cons]
    by_cases hv : v = u
    · cases b with
      | and => simp [join, mark, neutral, isIdempotent, hv]
      | or => simp [join, mark, neutral, isIdempotent, hv]
      | xor =>
        have hparity : (us.count u + 1) % 2 = 1 ↔ us.count u % 2 = 0 := by omega
        have hvalue : xor.fold (us.map (xor.mark u)) = true ↔ us.count u % 2 = 1 := by
          simpa [neutral, isIdempotent] using not_congr ih
        simp [join, mark, neutral, isIdempotent, hv, hparity, hvalue]
    · cases b with
      | and => simpa [join, mark, neutral, isIdempotent, hv, Ne.symm hv] using ih
      | or => simpa [join, mark, neutral, isIdempotent, hv, Ne.symm hv] using ih
      | xor => simpa [join, mark, neutral, isIdempotent, hv] using ih

theorem counts_iff_of_fold_mark (h : b.fold (us.map (b.mark u)) = b.fold (us'.map (b.mark u))) :
    b.Counts us u ↔ b.Counts us' u := by
  rw [← not_iff_not, ← fold_mark_eq_neutral, ← fold_mark_eq_neutral, h]

open Classical in
/-- The value of a node by that of the leaves below it. -/
noncomputable def unfoldedValue (b : Bitwise) (ops : List Operation) (u v : Node) : Bool :=
  if h : ∃ us, b.Unfolds ops [v] us then b.fold (h.choose.map (b.mark u)) else b.neutral

theorem unfoldedValue_eq (h : b.Unfolds ops [v] us) :
    b.unfoldedValue ops u v = b.fold (us.map (b.mark u)) := by
  have hex : ∃ us, b.Unfolds ops [v] us := ⟨us, h⟩
  rw [unfoldedValue, dif_pos hex, h.unique hex.choose_spec]

theorem unfoldedValue_leaf (h : b.inner? ops v = none) : b.unfoldedValue ops u v = b.mark u v := by
  rw [unfoldedValue_eq (.leaf h .nil), List.map_singleton, fold_singleton]

theorem fold_unfoldedValue (h : b.Unfolds ops vs us) :
    b.fold (vs.map (b.unfoldedValue ops u)) = b.fold (us.map (b.mark u)) := by
  induction h with
  | nil => rfl
  | leaf hv _ ih =>
    rw [List.map_cons, List.map_cons, fold_cons, fold_cons, ih, unfoldedValue_leaf hv]
  | inner hv hp _ _ ih =>
    rw [List.map_cons, fold_cons, ih, unfoldedValue_eq (.inner_single hv hp), List.map_append,
      fold_append]

/-- The leaves that are found are those that count in the unfolded list. -/
theorem mem_leaves_iff (hroot : b.inner? ops root.dest = some root)
    (h : b.leaves ops root = .ok vs) (hu : b.Unfolds ops root.sources us) :
    u ∈ vs ↔ b.Counts us u := by
  obtain ⟨hop, -, hc⟩ := inner?_spec hroot
  obtain ⟨w, l, hg, hl, hvs⟩ := leaves_eq_ok hop hc h
  have hfinished : root ∈ w.finished := hl ▸ List.mem_cons_self
  have hbelow := fold_leaves_below (ρ := b.unfoldedValue ops u) hroot h fun q p hq hr => by
    have hp := hg.settled.sorted.mem_of_reads hfinished (hq.tail hr)
    obtain ⟨us, hus⟩ := hg.settled.sorted.exists_unfolds hp
    rw [unfoldedValue_eq (.inner_single hr.inner?_dest hus), fold_unfoldedValue hus]
  have hleaf : vs.map (b.unfoldedValue ops u) = vs.map (b.mark u) := by
    refine List.map_congr_left fun v hv => unfoldedValue_leaf (hg.settled.leaf v ?_)
    rw [hvs] at hv
    exact List.mem_of_mem_filter hv
  rw [hleaf, fold_unfoldedValue hu] at hbelow
  exact (counts_iff_mem (nodup_leaves hop hc h)).symm.trans (counts_iff_of_fold_mark hbelow)

theorem leaves_eq_filter (hroot : b.inner? ops root.dest = some root)
    (h : b.leaves ops root = .ok vs) (hu : b.Unfolds ops root.sources us) :
    vs = us.eraseDups.filter (b.Counts us) := by
  obtain ⟨hop, -, hc⟩ := inner?_spec hroot
  have hcounts (u : Node) := mem_leaves_iff (u := u) hroot h hu
  unfold leaves at h
  cases hv : b.visit ops (ops.length + 1) [] root {} with
  | error v =>
    rw [hv] at h
    cases h
  | ok w =>
    have hleaves : w.leaves = us.eraseDups := by
      rw [visit_leaves (List.nodup_singleton root) (by simpa using hop) (by simp) hc
        Walk.settled_empty (by simp) hu hv]
      exact addNew_nil us
    rw [hv] at h
    dsimp only at h
    rw [hleaves] at h
    cases h
    refine List.filter_congr fun u hmem => ?_
    have hu := hcounts u
    simpa [List.mem_filter, hmem] using hu

theorem filter_counts (us : List Node) : us.eraseDups.filter (b.Counts us) =
    if b.isIdempotent then us.eraseDups else us.eraseDups.filter fun v => us.count v % 2 = 1 := by
  unfold Counts
  split_ifs
  · exact List.filter_eq_self.2 (by simp)
  · rfl

theorem not_reachesLoop_of_visit (hop : root ∈ ops) (hc : root.opcode = b.opcode)
    (h : b.visit ops (ops.length + 1) [] root {} = .ok w) :
    w.Settled b ops ∧ root ∈ w.finished ∧ ¬b.ReachesLoop ops root := by
  obtain ⟨hg, l, hl⟩ := visit_grows (List.nodup_singleton root) (by simpa using hop) (by simp) hc
    Walk.settled_empty (by simp) h
  have hroot : root ∈ w.finished := hl ▸ List.mem_cons_self
  refine ⟨hg.settled, hroot, ?_⟩
  rintro ⟨p, hp, hloop⟩
  exact hg.settled.sorted.not_reads_self (hg.settled.sorted.mem_of_reads hroot hp) hloop

/-- For an operation of a connective that is the producer of its destination, the search for leaves
agrees with the unfolded tree. It reports a loop if and only if it can reach one. Otherwise the tree
is finite; the leaves are those of the tree without later repetitions, and for `xor` only the ones
that occur an odd number of times. A search that may go deeper finds the same. -/
theorem leaves_agree_with_unfolding (hroot : ops.find? (·.dest = root.dest) = some root)
    (hc : root.opcode = b.opcode) :
    ((∃ v : Node, b.leaves ops root = .error (.invariant ⟨b.passName, v.name, .loop⟩)) ↔
      b.ReachesLoop ops root) ∧
    (¬b.ReachesLoop ops root → ∃ us, b.Unfolds ops root.sources us ∧
      (∀ us', b.Unfolds ops root.sources us' → us' = us) ∧
      b.leaves ops root = .ok (if b.isIdempotent then us.eraseDups
        else us.eraseDups.filter fun v => us.count v % 2 = 1)) ∧
    ∀ depth, ops.length < depth →
      b.visit ops depth [] root {} = b.visit ops (ops.length + 1) [] root {} := by
  have hop : root ∈ ops := List.mem_of_find?_eq_some hroot
  have hinner : b.inner? ops root.dest = some root := by
    rw [inner?, hroot]
    simpa using hc
  have hdepth : ∀ depth, ops.length < depth →
      b.visit ops depth [] root {} = b.visit ops (ops.length + 1) [] root {} :=
    fun depth h => visit_depth (List.nodup_singleton root) (by simpa using hop) (by simpa) (by simp)
  cases hv : b.visit ops (ops.length + 1) [] root {} with
  | error v =>
    have hloop : b.ReachesLoop ops root := visit_error hop hc (by simp) hv
    have herror : b.leaves ops root = .error (.invariant ⟨b.passName, v.name, .loop⟩) := by
      unfold leaves
      rw [hv]
    exact ⟨iff_of_true ⟨v, herror⟩ hloop, fun h => absurd hloop h, hv ▸ hdepth⟩
  | ok w =>
    obtain ⟨hsettled, hfinished, hloop⟩ := not_reachesLoop_of_visit hop hc hv
    obtain ⟨us, hus⟩ := hsettled.sorted.exists_unfolds hfinished
    obtain ⟨vs, hvs⟩ : ∃ vs, b.leaves ops root = .ok vs := by
      unfold leaves
      rw [hv]
      exact ⟨_, rfl⟩
    refine ⟨iff_of_false ?_ hloop, fun _ => ⟨us, hus, fun us' => hus.unique, ?_⟩, hv ▸ hdepth⟩
    · rintro ⟨v, herror⟩
      cases hvs.symm.trans herror
    · rw [hvs, leaves_eq_filter hinner hvs hus, filter_counts]

def cancellingSumTop : Operation :=
  ⟨⟨"s", 8, .wire, 0⟩, 8, .xor, [⟨"u", 8, .wire, 0⟩, ⟨"a", 8, .wire, 0⟩]⟩

theorem cancellingSumTop_leaves_agree :
    let ops := cancellingSum.operations
    ops.find? (·.dest = cancellingSumTop.dest) = some cancellingSumTop ∧
      cancellingSumTop.opcode = xor.opcode ∧ ¬xor.ReachesLoop ops cancellingSumTop ∧
      xor.leaves ops cancellingSumTop = .ok [⟨"b", 8, .wire, 0⟩, ⟨"c", 8, .wire, 0⟩] ∧
      ∃ us, xor.Unfolds ops cancellingSumTop.sources us ∧
        xor.leaves ops cancellingSumTop =
          .ok (us.eraseDups.filter fun v => us.count v % 2 = 1) := by
  intro ops
  have hroot : ops.find? (·.dest = cancellingSumTop.dest) = some cancellingSumTop := by decide
  have hleaves : xor.leaves ops cancellingSumTop =
      .ok [⟨"b", 8, .wire, 0⟩, ⟨"c", 8, .wire, 0⟩] := by cbv
  obtain ⟨hloop, htree, -⟩ := leaves_agree_with_unfolding hroot (b := xor) rfl
  have hfree : ¬xor.ReachesLoop ops cancellingSumTop := by
    intro h
    obtain ⟨v, herror⟩ := hloop.2 h
    cases hleaves.symm.trans herror
  obtain ⟨us, hus, -, heq⟩ := htree hfree
  exact ⟨hroot, rfl, hfree, hleaves, us, hus, heq⟩

end Netlist.Bitwise
