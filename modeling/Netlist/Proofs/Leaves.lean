import Netlist.Proofs.Meaning
import Netlist.Proofs.Walk

/-!
# What the leaves of an operation compute

The liveness of nodes is passed on from the root down, in the order in which the finished operations
are sorted. Think of a live node as standing for its value. The nodes that are live and still wait
for their operation, or are leaves, then stand for the value of the connective on the sources of the
root, before and after each step: an operation takes its destination out of the waiting nodes and
puts its sources in. In the end only leaves are left.
-/

namespace Netlist.Bitwise

open Relation

variable {b : Bitwise} {ops : List Operation} {root op p : Operation} {v : Node}
  {vs live : List Node} {l : List Operation}

theorem mem_within_of_reads (hop : op ∈ ops) (hc : op.opcode = b.opcode)
    (h : ReflTransGen (b.Reads ops) op p) : p ∈ b.within ops := by
  cases h with
  | refl => exact mem_within.2 ⟨hop, hc⟩
  | tail _ hr => exact mem_within.2 ⟨hr.mem, hr.opcode⟩

/-- The leaves are the live ones among those that a search from the root finds. -/
theorem leaves_eq_ok (hop : root ∈ ops) (hc : root.opcode = b.opcode)
    (h : b.leaves ops root = .ok vs) :
    ∃ w l, Walk.Grows b ops [] root {} w ∧ w.finished = root :: l ∧
      vs = w.leaves.filter (· ∈ w.finished.foldl b.spread [root.dest]) := by
  rw [leaves] at h
  cases hv : b.visit ops (ops.length + 1) [] root {} with
  | error v =>
    rw [hv] at h
    cases h
  | ok w =>
    rw [hv] at h
    cases h
    obtain ⟨hg, l, hl⟩ := visit_grows (List.nodup_singleton root) (by simpa using hop)
      (by simp) hc Walk.settled_empty (by simp) hv
    exact ⟨w, l, hg, hl, rfl⟩

theorem nodup_leaves (hop : root ∈ ops) (hc : root.opcode = b.opcode)
    (h : b.leaves ops root = .ok vs) : vs.Nodup := by
  obtain ⟨w, l, hg, -, rfl⟩ := leaves_eq_ok hop hc h
  exact hg.settled.nodup.filter _

theorem exists_leaves (hop : root ∈ ops) (hc : root.opcode = b.opcode)
    (hacyclic : Acyclic (b.within ops)) : ∃ vs, b.leaves ops root = .ok vs := by
  rw [leaves]
  cases hv : b.visit ops (ops.length + 1) [] root {} with
  | error v =>
    obtain ⟨q, -, hcycle⟩ := visit_error hop hc (by simp) hv
    have hlift := TransGen.lift Operation.dest (fun _ _ hr => Reads.dependsOn hr) q q hcycle
    exact absurd hlift (hacyclic q.dest)
  | ok w => exact ⟨_, rfl⟩

theorem exists_read_of_mem_leaves (hop : root ∈ ops) (hc : root.opcode = b.opcode)
    (h : b.leaves ops root = .ok vs) (hv : v ∈ vs) :
    ∃ p ∈ b.within ops, ReflTransGen (b.Reads ops) root p ∧ v ∈ p.sources := by
  obtain ⟨w, l, hg, -, rfl⟩ := leaves_eq_ok hop hc h
  obtain ⟨p, hp, hv⟩ := (hg.leaves_below v (List.mem_of_mem_filter hv)).resolve_left (by simp)
  exact ⟨p, mem_within_of_reads hop hc hp, hp, hv⟩

theorem dependsOn_of_mem_leaves (hop : root ∈ ops) (hc : root.opcode = b.opcode)
    (h : b.leaves ops root = .ok vs) (hv : v ∈ vs) : TransGen (DependsOn ops) root.dest v := by
  obtain ⟨p, hp, hr, hv⟩ := exists_read_of_mem_leaves hop hc h hv
  have hdown : ReflTransGen (DependsOn ops) root.dest p.dest :=
    ReflTransGen.lift Operation.dest (fun q _ hr => ⟨q, hr.1, rfl, Reads.dest_mem hr⟩) root p hr
  exact TransGen.tail' hdown ⟨p, (mem_within.1 hp).1, rfl, hv⟩

theorem mem_revive_of_ne {u : Node} (h : u ≠ v) :
    u ∈ b.revive live v ↔ u ∈ live := by
  rw [revive]
  split_ifs
  · rfl
  · exact List.mem_erase_of_ne h
  · simp [h]

theorem nodup_revive (h : live.Nodup) : (b.revive live v).Nodup := by
  rw [revive]
  split_ifs with hv
  · exact h
  · exact h.erase v
  · exact List.nodup_cons.2 ⟨hv, h⟩

theorem spread_of_mem (hself : op.dest ∉ op.sources) (h : op.dest ∈ live) :
    b.spread live op = op.sources.foldl b.revive live := by
  have hall (sources : List Node) (hs : op.dest ∉ sources) (live : List Node)
      (h : op.dest ∈ live) :
      sources.foldl (fun live v => if op.dest ∈ live then b.revive live v else live) live =
        sources.foldl b.revive live := by
    induction sources generalizing live with
    | nil => rfl
    | cons v sources ih =>
      obtain ⟨hv, hs⟩ := not_or.1 (List.mem_cons.not.1 hs)
      rw [List.foldl_cons, List.foldl_cons, if_pos h]
      exact ih hs _ ((mem_revive_of_ne hv).2 h)
  exact hall op.sources hself live h

theorem spread_of_notMem (h : op.dest ∉ live) : b.spread live op = live := by
  rw [spread]
  induction op.sources with
  | nil => rfl
  | cons v sources ih => rw [List.foldl_cons, if_neg h, ih]

theorem nodup_spread (h : live.Nodup) : (b.spread live op).Nodup := by
  refine List.foldlRecOn op.sources _ h fun live hlive v _ => ?_
  split_ifs
  · exact nodup_revive hlive
  · exact hlive

theorem mem_spread_of_notMem {u : Node} (hu : u ∉ op.sources) :
    u ∈ b.spread live op ↔ u ∈ live := by
  refine List.foldlRecOn (motive := fun s => u ∈ s ↔ u ∈ live) op.sources _ Iff.rfl
    fun s hs v hv => ?_
  split_ifs
  · exact (mem_revive_of_ne fun he : u = v => hu (he ▸ hv)).trans hs
  · exact hs

theorem mem_of_mem_foldl_spread {u : Node} (h : u ∈ l.foldl b.spread live) :
    u ∈ live ∨ ∃ p ∈ l, u ∈ p.sources := by
  induction l generalizing live with
  | nil => exact .inl h
  | cons p l ih =>
    rcases ih h with h | ⟨q, hq, hu⟩
    · by_cases hu : u ∈ p.sources
      · exact .inr ⟨p, List.mem_cons_self, hu⟩
      · exact .inl ((mem_spread_of_notMem hu).1 h)
    · exact .inr ⟨q, List.mem_cons_of_mem p hq, hu⟩

section Values

variable {α : Type*} [BooleanAlgebra α] {ρ : Node → α}

theorem fold_revive : b.fold ((b.revive live v).map ρ) = b.join (ρ v) (b.fold (live.map ρ)) := by
  rw [revive]
  split_ifs with hv hb
  · have hfold := b.fold_perm ((List.perm_cons_erase hv).map ρ)
    rw [List.map_cons, fold_cons] at hfold
    rw [hfold, join_join_self, if_pos hb]
  · have hfold := b.fold_perm ((List.perm_cons_erase hv).map ρ)
    rw [List.map_cons, fold_cons] at hfold
    rw [hfold, join_join_self, if_neg hb]
  · rfl

theorem filter_revive {q : Node → Bool} (hq : q v = true) :
    (b.revive live v).filter q = b.revive (live.filter q) v := by
  have hmem : v ∈ live.filter q ↔ v ∈ live := by simp [hq]
  simp only [revive, hmem]
  split_ifs
  · rfl
  · rw [List.erase_filter]
  · rw [List.filter_cons_of_pos hq]

theorem fold_revives {q : Node → Bool} {sources : List Node} (hq : ∀ v ∈ sources, q v = true) :
    b.fold (((sources.foldl b.revive live).filter q).map ρ) =
      b.join (b.fold (sources.map ρ)) (b.fold ((live.filter q).map ρ)) := by
  induction sources generalizing live with
  | nil =>
    rw [List.foldl_nil, List.map_nil, fold_nil, join_comm, join_neutral]
  | cons v sources ih =>
    obtain ⟨hv, hsources⟩ := List.forall_mem_cons.1 hq
    rw [List.foldl_cons, ih hsources, filter_revive hv, fold_revive, List.map_cons, fold_cons,
      ← join_assoc, b.join_comm (b.fold (sources.map ρ))]

/-- A node is a leaf or waits for one of the listed operations. -/
def waits (b : Bitwise) (ops l : List Operation) (v : Node) : Bool :=
  (b.inner? ops v).all (· ∈ l)

theorem waits_iff : b.waits ops l v = true ↔ ∀ q, b.inner? ops v = some q → q ∈ l := by
  cases h : b.inner? ops v <;> simp [waits, h]

theorem waits_cons_of_ne (hv : v ≠ p.dest) : b.waits ops (p :: l) v = b.waits ops l v := by
  rw [Bool.eq_iff_iff, waits_iff, waits_iff]
  refine forall₂_congr fun q hq => ⟨fun hmem => ?_, List.mem_cons_of_mem p⟩
  rcases List.mem_cons.1 hmem with rfl | hmem
  · exact absurd (inner?_spec hq).2.1.symm hv
  · exact hmem

/-- The value that the waiting nodes stand for together. -/
def waiting (b : Bitwise) (ops : List Operation) (ρ : Node → α) (live : List Node)
    (l : List Operation) : α :=
  b.fold ((live.filter (b.waits ops l)).map ρ)

theorem waits_dest (hp : b.inner? ops p.dest = some p) (hsorted : Sorted b ops (p :: l)) :
    b.waits ops l p.dest = false := by
  simp [waits, hp, hsorted.1]

theorem waits_sources (hsorted : Sorted b ops (p :: l)) : ∀ v ∈ p.sources, b.waits ops l v = true :=
  fun v hv => waits_iff.2 (hsorted.2.1 v hv)

theorem dest_notMem_sources (hp : b.inner? ops p.dest = some p) (hsorted : Sorted b ops (p :: l)) :
    p.dest ∉ p.sources := by
  intro hv
  have hwaits := waits_sources hsorted _ hv
  rw [waits_dest hp hsorted] at hwaits
  cases hwaits

theorem waiting_cons_of_notMem (hlive : p.dest ∉ live) :
    b.waiting ops ρ live (p :: l) = b.waiting ops ρ live l := by
  have hcongr : live.filter (b.waits ops (p :: l)) = live.filter (b.waits ops l) := by
    refine List.filter_congr fun v hv => waits_cons_of_ne ?_
    rintro rfl
    exact hlive hv
  rw [waiting, waiting, hcongr]

theorem waiting_cons_of_mem (hp : b.inner? ops p.dest = some p) (hsorted : Sorted b ops (p :: l))
    (hnodup : live.Nodup) (hlive : p.dest ∈ live) :
    b.waiting ops ρ live (p :: l) = b.join (ρ p.dest) (b.waiting ops ρ live l) := by
  have hnow : b.waits ops (p :: l) p.dest = true := by simp [waits, hp]
  have hpast := waits_dest hp hsorted
  have hperm := List.perm_cons_erase hlive
  have hbefore := (hperm.filter (b.waits ops (p :: l))).map ρ
  have hafter := (hperm.filter (b.waits ops l)).map ρ
  rw [List.filter_cons_of_pos hnow, List.map_cons] at hbefore
  rw [List.filter_cons_of_neg (by simp [hpast])] at hafter
  have hrest : b.waiting ops ρ (live.erase p.dest) (p :: l) =
      b.waiting ops ρ (live.erase p.dest) l := waiting_cons_of_notMem hnodup.not_mem_erase
  rw [waiting, b.fold_perm hbefore, fold_cons, waiting, b.fold_perm hafter]
  exact congrArg (b.join (ρ p.dest)) hrest

/-- A live operation puts its sources among the waiting nodes. -/
theorem waiting_spread_of_mem (hp : b.inner? ops p.dest = some p)
    (hsorted : Sorted b ops (p :: l)) (hlive : p.dest ∈ live) :
    b.waiting ops ρ (b.spread live p) l =
      b.join (b.fold (p.sources.map ρ)) (b.waiting ops ρ live l) := by
  rw [waiting, spread_of_mem (dest_notMem_sources hp hsorted) hlive,
    fold_revives (waits_sources hsorted), waiting]

/-- Passing the liveness of an operation on to its sources does not change what the waiting nodes
stand for. -/
theorem waiting_spread (hp : b.inner? ops p.dest = some p) (hsorted : Sorted b ops (p :: l))
    (hnodup : live.Nodup) (hvalue : ρ p.dest = b.fold (p.sources.map ρ)) :
    b.waiting ops ρ (b.spread live p) l = b.waiting ops ρ live (p :: l) := by
  by_cases hlive : p.dest ∈ live
  · rw [waiting_spread_of_mem hp hsorted hlive, waiting_cons_of_mem hp hsorted hnodup hlive, hvalue]
  · rw [spread_of_notMem hlive, waiting_cons_of_notMem hlive]

theorem waiting_foldl_spread (hl : ∀ p ∈ l, b.inner? ops p.dest = some p)
    (hsorted : Sorted b ops l) (hnodup : live.Nodup)
    (hvalue : ∀ p ∈ l, ρ p.dest = b.fold (p.sources.map ρ)) :
    b.waiting ops ρ (l.foldl b.spread live) [] = b.waiting ops ρ live l := by
  induction l generalizing live with
  | nil => rfl
  | cons p l ih =>
    obtain ⟨hp, hl⟩ := List.forall_mem_cons.1 hl
    obtain ⟨hpvalue, hvalue⟩ := List.forall_mem_cons.1 hvalue
    rw [List.foldl_cons, ih hl hsorted.2.2 (nodup_spread hnodup) hvalue,
      waiting_spread hp hsorted hnodup hpvalue]

theorem filter_waits_perm {w : Walk} (hroot : b.inner? ops root.dest = some root)
    (hw : w.Settled b ops) :
    (w.leaves.filter (· ∈ w.finished.foldl b.spread [root.dest])).Perm
      ((w.finished.foldl b.spread [root.dest]).filter (b.waits ops [])) := by
  have hnodup : (w.finished.foldl b.spread [root.dest]).Nodup :=
    List.foldlRecOn w.finished b.spread (List.nodup_singleton _) fun _ h _ _ => nodup_spread h
  rw [List.perm_ext_iff_of_nodup (hw.nodup.filter _) (hnodup.filter _)]
  intro v
  simp only [List.mem_filter, decide_eq_true_eq, waits_iff, List.not_mem_nil]
  constructor
  · rintro ⟨hv, hlive⟩
    exact ⟨hlive, by simp [hw.leaf v hv]⟩
  · rintro ⟨hlive, hwait⟩
    have hnone : b.inner? ops v = none := Option.eq_none_iff_forall_ne_some.2 hwait
    rcases mem_of_mem_foldl_spread hlive with hv | ⟨p, hp, hv⟩
    · rw [List.mem_singleton.1 hv, hroot] at hnone
      cases hnone
    · exact ⟨hw.met p hp v hv hnone, hlive⟩

/-- The connective has the same value on the leaves of an operation as on its sources, if the
operations that are read below it compute what they should. -/
theorem fold_leaves_below (hroot : b.inner? ops root.dest = some root)
    (h : b.leaves ops root = .ok vs)
    (hvalue : ∀ q p, ReflTransGen (b.Reads ops) root q → b.Reads ops q p →
      ρ p.dest = b.fold (p.sources.map ρ)) :
    b.fold (vs.map ρ) = b.fold (root.sources.map ρ) := by
  obtain ⟨hop, -, hc⟩ := inner?_spec hroot
  obtain ⟨w, l, hg, hl, rfl⟩ := leaves_eq_ok hop hc h
  have hsorted : Sorted b ops (root :: l) := hl ▸ hg.settled.sorted
  have hread : ∀ p ∈ l, ∃ q, ReflTransGen (b.Reads ops) root q ∧ b.Reads ops q p := by
    intro p hp
    have hbelow := (hg.finished_below p (hl ▸ List.mem_cons_of_mem root hp)).resolve_left (by simp)
    rcases ReflTransGen.cases_tail hbelow with heq | ⟨q, hq, hr⟩
    · exact absurd (heq ▸ hp) hsorted.1
    · exact ⟨q, hq, hr⟩
  have hinner : ∀ p ∈ l, b.inner? ops p.dest = some p := by
    intro p hp
    obtain ⟨q, -, hr⟩ := hread p hp
    exact hr.inner?_dest
  have hholds : ∀ p ∈ l, ρ p.dest = b.fold (p.sources.map ρ) := by
    intro p hp
    obtain ⟨q, hq, hr⟩ := hread p hp
    exact hvalue q p hq hr
  -- the root itself need not hold: the first step puts its sources in its place
  have hfirst : b.waiting ops ρ (b.spread [root.dest] root) l = b.fold (root.sources.map ρ) := by
    rw [waiting_spread_of_mem hroot hsorted List.mem_cons_self, waiting,
      List.filter_cons_of_neg (by simp [waits_dest hroot hsorted])]
    exact b.join_neutral _
  calc b.fold ((w.leaves.filter (· ∈ w.finished.foldl b.spread [root.dest])).map ρ)
      = b.waiting ops ρ (w.finished.foldl b.spread [root.dest]) [] :=
        b.fold_perm ((filter_waits_perm hroot hg.settled).map ρ)
    _ = b.waiting ops ρ (l.foldl b.spread (b.spread [root.dest] root)) [] := by
        rw [hl, List.foldl_cons]
    _ = b.waiting ops ρ (b.spread [root.dest] root) l :=
        waiting_foldl_spread hinner hsorted.2.2 (nodup_spread (List.nodup_singleton _)) hholds
    _ = b.fold (root.sources.map ρ) := hfirst

theorem fold_leaves (hs : SingleAssignment ops) (hop : root ∈ ops) (hc : root.opcode = b.opcode)
    (h : b.leaves ops root = .ok vs)
    (hvalue : ∀ p ∈ b.within ops, (∃ q ∈ b.within ops, p.dest ∈ q.sources) →
      ρ p.dest = b.fold (p.sources.map ρ)) :
    b.fold (vs.map ρ) = b.fold (root.sources.map ρ) := by
  refine fold_leaves_below ((inner?_eq_some hs).2 ⟨hop, rfl, hc⟩) h fun q p _ hr => ?_
  exact hvalue p (mem_within.2 ⟨hr.mem, hr.opcode⟩)
    ⟨q, mem_within.2 ⟨hr.1, hr.2.1⟩, hr.dest_mem⟩

end Values

end Netlist.Bitwise
