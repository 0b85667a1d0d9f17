import Netlist.Balance.Rebuild
import Netlist.Proofs.Component
import Netlist.Proofs.Leaves
import Netlist.Proofs.Tree

/-!
# What balancing does to a circuit

A `Rewrite` is an end with its leaves and the minter for its tree. It puts the operations of the
tree and a copy of the root in the place of the end. `Rebuilding` relates the operations before and
after: some are kept, and no rewrite belongs to them; the others are the ends of rewrites. It holds
of each component that is rebuilt and so, piece by piece, of the whole circuit.

A rewritten operation is read by no operation of its connective anywhere in the circuit, because
such an operation would lie in the same component. The temporaries of all rewrites have names that
differ from one another and from all names in the circuit.
-/

namespace Netlist.Bitwise

variable {b : Bitwise} {ops : List Operation} {op p : Operation} {v : Node} {m : Minter}

structure Rewrite where
  operation : Operation
  first : Node
  rest : List Node
  minter : Minter

namespace Rewrite

variable (b) (w : Rewrite)

def leaves : List Node := w.first :: w.rest

def tree : Tree := b.combine w.minter w.first w.rest

def copy : Operation := ⟨w.operation.dest, w.operation.width, .mov, [(w.tree b).root]⟩

def operations : List Operation := (w.tree b).operations ++ [w.copy b]

def temporaries : List Node := (w.tree b).operations.map Operation.dest

/-- The rewrite belongs to an end among some operations, and these are enough to be rebuilt. -/
structure Sound (ops : List Operation) : Prop where
  large : leastOperations ≤ ops.length
  mem : w.operation ∈ ops
  isEnd : b.isEnd ops w.operation = true
  leaves : b.leaves ops w.operation = .ok w.leaves

end Rewrite

theorem isEnd_iff : b.isEnd ops op = true ↔
    op.opcode = b.opcode ∧ ∀ p ∈ ops, op.dest ∉ p.sources := by
  simp [isEnd]

namespace Rewrite.Sound

variable {w : Rewrite}

theorem opcode (h : w.Sound b ops) : w.operation.opcode = b.opcode := (isEnd_iff.1 h.isEnd).1

theorem unread (h : w.Sound b ops) (hp : p ∈ ops) : w.operation.dest ∉ p.sources :=
  (isEnd_iff.1 h.isEnd).2 p hp

theorem exists_read (h : w.Sound b ops) (hv : v ∈ w.leaves) :
    ∃ p ∈ b.within ops, v ∈ p.sources := by
  obtain ⟨p, hp, -, hv⟩ := exists_read_of_mem_leaves h.mem h.opcode h.leaves hv
  exact ⟨p, hp, hv⟩

end Rewrite.Sound

/-- An operation among some that no rewrite belongs to. -/
def Stays (b : Bitwise) (ops : List Operation) (op : Operation) : Prop :=
  op ∈ ops ∧ ∀ w : Rewrite, w.Sound b ops → w.operation ≠ op

theorem stays_of_small (hop : op ∈ ops) (h : ops.length < leastOperations) : b.Stays ops op :=
  ⟨hop, fun _ hw _ => absurd hw.large (Nat.not_le.2 h)⟩

theorem stays_of_not_end (hop : op ∈ ops) (h : b.isEnd ops op = false) : b.Stays ops op := by
  refine ⟨hop, ?_⟩
  rintro w hw rfl
  rw [hw.isEnd] at h
  cases h

theorem stays_of_leaves_nil (hop : op ∈ ops) (h : b.leaves ops op = .ok []) : b.Stays ops op := by
  refine ⟨hop, ?_⟩
  rintro w hw rfl
  cases hw.leaves.symm.trans h

/-- Some operations are kept and the others rewritten. -/
structure Rebuilding (b : Bitwise) (pieces : List (List Operation)) (before after : List Operation)
    (kept : List Operation) (rewrites : List Rewrite) : Prop where
  before : before.Perm (kept ++ rewrites.map Rewrite.operation)
  after : after.Perm (kept ++ rewrites.flatMap (Rewrite.operations b))
  sound : ∀ w ∈ rewrites, ∃ ops ∈ pieces, w.Sound b ops
  stays : ∀ op ∈ kept, ∃ ops ∈ pieces, b.Stays ops op

theorem append_append_perm {α : Type} (s t u v : List α) :
    (s ++ t ++ (u ++ v)).Perm (s ++ u ++ (t ++ v)) := by
  rw [← Multiset.coe_eq_coe]
  simp only [← Multiset.coe_add]
  exact add_add_add_comm _ _ _ _

namespace Rebuilding

variable {pieces pieces' : List (List Operation)} {before before' after after' : List Operation}
  {kept kept' : List Operation} {rewrites rewrites' : List Rewrite}

theorem append (h : Rebuilding b pieces before after kept rewrites)
    (h' : Rebuilding b pieces' before' after' kept' rewrites') :
    Rebuilding b (pieces ++ pieces') (before ++ before') (after ++ after') (kept ++ kept')
      (rewrites ++ rewrites') where
  before := by
    rw [List.map_append]
    exact (h.before.append h'.before).trans (append_append_perm _ _ _ _)
  after := by
    rw [List.flatMap_append]
    exact (h.after.append h'.after).trans (append_append_perm _ _ _ _)
  sound w hw := by
    rcases List.mem_append.1 hw with hw | hw
    · obtain ⟨ops, hops, hs⟩ := h.sound w hw
      exact ⟨ops, List.mem_append_left _ hops, hs⟩
    · obtain ⟨ops, hops, hs⟩ := h'.sound w hw
      exact ⟨ops, List.mem_append_right _ hops, hs⟩
  stays op hop := by
    rcases List.mem_append.1 hop with hop | hop
    · obtain ⟨ops, hops, hs⟩ := h.stays op hop
      exact ⟨ops, List.mem_append_left _ hops, hs⟩
    · obtain ⟨ops, hops, hs⟩ := h'.stays op hop
      exact ⟨ops, List.mem_append_right _ hops, hs⟩

theorem keep (h : Rebuilding b pieces before after kept rewrites) (hops : ops ∈ pieces)
    (hop : b.Stays ops op) :
    Rebuilding b pieces (op :: before) (after ++ [op]) (kept ++ [op]) rewrites where
  before := by
    refine ((h.before.cons op).trans List.perm_middle.symm).trans ?_
    rw [List.append_assoc, List.singleton_append]
  after := by
    refine (h.after.append_right [op]).trans ?_
    rw [List.append_assoc, List.append_assoc]
    exact List.perm_append_comm.append_left kept
  sound := h.sound
  stays p hp := by
    rcases List.mem_append.1 hp with hp | hp
    · exact h.stays p hp
    · exact ⟨ops, hops, List.mem_singleton.1 hp ▸ hop⟩

theorem rewrite (h : Rebuilding b pieces before after kept rewrites) {w : Rewrite}
    (hops : ops ∈ pieces) (hw : w.Sound b ops) :
    Rebuilding b pieces (w.operation :: before) (after ++ w.operations b) kept
      (rewrites ++ [w]) where
  before := by
    rw [List.map_append, ← List.append_assoc]
    exact (h.before.cons w.operation).trans (List.perm_append_singleton _ _).symm
  after := by
    rw [List.flatMap_append, List.flatMap_singleton, ← List.append_assoc]
    exact h.after.append_right _
  sound w' hw' := by
    rcases List.mem_append.1 hw' with hw' | hw'
    · exact h.sound w' hw'
    · exact ⟨ops, hops, List.mem_singleton.1 hw' ▸ hw⟩
  stays := h.stays

end Rebuilding

namespace Draft

variable {d : Draft} {kept : List Operation} {rewrites : List Rewrite}

/-- A draft is what keeping some operations and rewriting others yields so far. -/
structure Accounts (b : Bitwise) (ops : List Operation) (m : Minter) (d : Draft)
    (kept : List Operation) (rewrites : List Rewrite) : Prop where
  rebuilding : Rebuilding b [ops] d.done d.output kept rewrites
  nodup : d.done.Nodup
  sub : d.done ⊆ ops
  minted : m.Mints (rewrites.flatMap (Rewrite.temporaries b)) d.minter

theorem mem_done_emit : p ∈ (d.emit op).done ↔ p ∈ d.done ∨ p = op := by
  rw [emit]
  split_ifs with hop
  · exact ⟨.inl, fun h => h.elim id fun he => he ▸ hop⟩
  · rw [List.mem_cons, or_comm]

theorem Accounts.emit (h : Accounts b ops m d kept rewrites)
    (hop : op ∉ d.done → b.Stays ops op) :
    ∃ kept', Accounts b ops m (d.emit op) kept' rewrites := by
  rw [Draft.emit]
  split_ifs with hdone
  · exact ⟨kept, h⟩
  · have hstays := hop hdone
    exact ⟨kept ++ [op], h.rebuilding.keep List.mem_cons_self hstays,
      List.nodup_cons.2 ⟨hdone, h.nodup⟩, List.cons_subset.2 ⟨hstays.1, h.sub⟩, h.minted⟩

theorem Accounts.emitAll (h : Accounts b ops m d kept rewrites) {l : List Operation}
    (hl : ∀ p ∈ l, p ∉ d.done → b.Stays ops p) :
    ∃ kept', Accounts b ops m (l.foldl Draft.emit d) kept' rewrites ∧
      ∀ p, p ∈ (l.foldl Draft.emit d).done ↔ p ∈ d.done ∨ p ∈ l := by
  induction l generalizing d kept with
  | nil => exact ⟨kept, h, by simp⟩
  | cons op l ih =>
    obtain ⟨hop, hl⟩ := List.forall_mem_cons.1 hl
    obtain ⟨kept₁, h₁⟩ := h.emit hop
    have hl₁ : ∀ p ∈ l, p ∉ (d.emit op).done → b.Stays ops p :=
      fun p hp hdone => hl p hp fun hmem => hdone (mem_done_emit.2 (.inl hmem))
    obtain ⟨kept', h', hdone⟩ := ih h₁ hl₁
    refine ⟨kept', h', fun p => ?_⟩
    rw [List.foldl_cons, hdone, mem_done_emit, List.mem_cons, or_assoc]

/-- Emitting the producers of nodes is emitting operations, none of which is an end if the nodes are
read. -/
theorem foldl_emitProducer {vs : List Node} (hread : ∀ v ∈ vs, ∃ p ∈ ops, v ∈ p.sources) :
    ∃ l ⊆ ops, (∀ p ∈ l, b.isEnd ops p = false) ∧
      vs.foldl (emitProducer ops) d = l.foldl Draft.emit d := by
  induction vs generalizing d with
  | nil => exact ⟨[], by simp, by simp, rfl⟩
  | cons v vs ih =>
    obtain ⟨⟨q, hq, hv⟩, hread⟩ := List.forall_mem_cons.1 hread
    rw [List.foldl_cons, emitProducer]
    cases hfind : ops.find? (·.dest = v) with
    | none => exact ih hread
    | some p =>
      obtain ⟨l, hl, hend, heq⟩ := ih (d := d.emit p) hread
      have hp : p.dest = v := by simpa using List.find?_some hfind
      have hnot : b.isEnd ops p = false := by
        rw [← Bool.not_eq_true, isEnd_iff]
        exact fun h => h.2 q hq (hp ▸ hv)
      exact ⟨p :: l, List.cons_subset.2 ⟨List.mem_of_find?_eq_some hfind, hl⟩,
        List.forall_mem_cons.2 ⟨hnot, hend⟩, heq⟩

theorem Accounts.replace (h : Accounts b ops m d kept rewrites) {rest : List Node}
    (hlarge : leastOperations ≤ ops.length) (hop : op ∈ ops) (hend : b.isEnd ops op = true)
    (hleaves : b.leaves ops op = .ok (v :: rest)) (hdone : op ∉ d.done) : ∃ rewrites',
      Accounts b ops m (d.replace op (b.combine d.minter v rest)) kept rewrites' := by
  let w : Rewrite := ⟨op, v, rest, d.minter⟩
  have hw : w.Sound b ops := ⟨hlarge, hop, hend, hleaves⟩
  refine ⟨rewrites ++ [w], ?_, List.nodup_cons.2 ⟨hdone, h.nodup⟩, List.cons_subset.2 ⟨hop, h.sub⟩,
    ?_⟩
  · rw [Draft.replace, List.append_assoc]
    exact h.rebuilding.rewrite List.mem_cons_self hw
  · rw [List.flatMap_append, List.flatMap_singleton]
    exact h.minted.append combine_mints

end Draft

/-- An end that is not done gets rewritten or kept, and no other end gets done with it. -/
theorem rebuildEnd_accounts {d d' : Draft} {kept : List Operation} {rewrites : List Rewrite}
    (h : d.Accounts b ops m kept rewrites) (hlarge : leastOperations ≤ ops.length) (hop : op ∈ ops)
    (hend : b.isEnd ops op = true) (hdone : op ∉ d.done) (hr : b.rebuildEnd ops d op = .ok d') :
    (∃ kept' rewrites', d'.Accounts b ops m kept' rewrites') ∧
      d.done ⊆ d'.done ∧ op ∈ d'.done ∧
      ∀ p ∈ d'.done, p ∈ d.done ∨ p = op ∨ b.isEnd ops p = false := by
  rw [rebuildEnd] at hr
  cases hl : b.leaves ops op with
  | error e =>
    rw [hl] at hr
    cases hr
  | ok vs =>
    rw [hl] at hr
    cases vs with
    | nil =>
      cases hr
      obtain ⟨kept', h'⟩ := h.emit fun _ => stays_of_leaves_nil hop hl
      refine ⟨⟨kept', rewrites, h'⟩, fun p hp => Draft.mem_done_emit.2 (.inl hp),
        Draft.mem_done_emit.2 (.inr rfl), fun p hp => ?_⟩
      exact (Draft.mem_done_emit.1 hp).imp_right .inl
    | cons v rest =>
      cases hr
      have hread : ∀ u ∈ v :: rest, ∃ p ∈ ops, u ∈ p.sources := by
        intro u hu
        obtain ⟨p, hp, -, hu⟩ := exists_read_of_mem_leaves hop (isEnd_iff.1 hend).1 hl hu
        exact ⟨p, (mem_within.1 hp).1, hu⟩
      obtain ⟨l, hsub, hnot, heq⟩ := Draft.foldl_emitProducer (b := b) (d := d) hread
      obtain ⟨kept', h', hiff⟩ :=
        h.emitAll fun p hp _ => stays_of_not_end (hsub hp) (hnot p hp)
      rw [heq]
      have hdone' : op ∉ (l.foldl Draft.emit d).done := by
        rw [hiff]
        rintro (hmem | hmem)
        · exact hdone hmem
        · rw [hnot op hmem] at hend
          cases hend
      obtain ⟨rewrites', h''⟩ := h'.replace hlarge hop hend hl hdone'
      refine ⟨⟨kept', rewrites', h''⟩,
        fun p hp => List.mem_cons_of_mem op ((hiff p).2 (.inl hp)), List.mem_cons_self,
        fun p hp => ?_⟩
      rcases List.mem_cons.1 hp with rfl | hp
      · exact .inr (.inl rfl)
      · exact ((hiff p).1 hp).imp_right fun hmem => .inr (hnot p hmem)

theorem rebuildEnds_accounts {d d' : Draft} {ends kept : List Operation} {rewrites : List Rewrite}
    (h : d.Accounts b ops m kept rewrites) (hlarge : leastOperations ≤ ops.length)
    (hends : ∀ e ∈ ends, e ∈ ops ∧ b.isEnd ops e = true)
    (hnodup : ends.Nodup) (hdone : ∀ e ∈ ends, e ∉ d.done)
    (hr : ends.foldlM (b.rebuildEnd ops) d = .ok d') :
    (∃ kept' rewrites', d'.Accounts b ops m kept' rewrites') ∧ d.done ⊆ d'.done ∧
      ends ⊆ d'.done := by
  induction ends generalizing d kept rewrites with
  | nil =>
    cases hr
    exact ⟨⟨kept, rewrites, h⟩, List.Subset.refl _, List.nil_subset _⟩
  | cons e ends ih =>
    obtain ⟨d₁, he, hrest⟩ := foldlM_cons_eq_ok.1 hr
    obtain ⟨⟨heops, hend⟩, hends⟩ := List.forall_mem_cons.1 hends
    obtain ⟨henew, hnodup⟩ := List.nodup_cons.1 hnodup
    obtain ⟨hedone, hdone⟩ := List.forall_mem_cons.1 hdone
    obtain ⟨⟨kept₁, rewrites₁, h₁⟩, hsub, hmem, hothers⟩ :=
      rebuildEnd_accounts h hlarge heops hend hedone he
    have hdone₁ : ∀ p ∈ ends, p ∉ d₁.done := by
      intro p hp hpdone
      rcases hothers p hpdone with hpdone | rfl | hnot
      · exact hdone p hp hpdone
      · exact henew hp
      · rw [(hends p hp).2] at hnot
        cases hnot
    obtain ⟨h', hsub', hends'⟩ := ih h₁ hends hnodup hdone₁ hrest
    exact ⟨h', List.Subset.trans hsub hsub', List.cons_subset.2 ⟨hsub' hmem, hends'⟩⟩

theorem rebuild_rebuilding {out : List Operation} (hs : SingleAssignment ops)
    (h : b.rebuild m ops = .ok out) : ∃ kept rewrites, Rebuilding b [ops] ops out kept rewrites ∧
      ∃ m', m.Mints (rewrites.flatMap (Rewrite.temporaries b)) m' := by
  rw [rebuild] at h
  split_ifs at h with hsmall
  · cases h
    exact ⟨ops, [], ⟨by simp, by simp, by simp,
      fun op hop => ⟨ops, List.mem_cons_self, stays_of_small hop hsmall⟩⟩, m, .nil m⟩
  · obtain ⟨d, hd, hout⟩ := bind_eq_ok.1 h
    cases hout
    have hstart : Draft.Accounts b ops m { minter := m } [] [] :=
      ⟨⟨.refl _, .refl _, by simp, by simp⟩, List.nodup_nil, by simp, .nil m⟩
    obtain ⟨⟨kept₁, rewrites, h₁⟩, -, hends⟩ := rebuildEnds_accounts hstart (Nat.not_lt.1 hsmall)
      (fun e he => List.mem_filter.1 he) (hs.nodup.filter _) (by simp) hd
    have hrest : ∀ p ∈ ops, p ∉ d.done → b.Stays ops p := by
      intro p hp hpdone
      apply stays_of_not_end hp
      rw [← Bool.not_eq_true]
      exact fun hend => hpdone (hends (List.mem_filter.2 ⟨hp, hend⟩))
    obtain ⟨kept, h₂, hdone⟩ := h₁.emitAll hrest
    have hall : ops.Perm (ops.foldl Draft.emit d).done := by
      rw [List.perm_ext_iff_of_nodup hs.nodup h₂.nodup]
      exact fun p => ⟨fun hp => (hdone p).2 (.inr hp), fun hp => h₂.sub hp⟩
    exact ⟨kept, rewrites, ⟨hall.trans h₂.rebuilding.before, h₂.rebuilding.after,
      h₂.rebuilding.sound, h₂.rebuilding.stays⟩, _, h₂.minted⟩

theorem exists_rebuild (h : Acyclic (b.within ops)) : ∃ out, b.rebuild m ops = .ok out := by
  rw [rebuild]
  split_ifs
  · exact ⟨ops, rfl⟩
  · have hstep (e : Operation) (l : List Operation) (d : Draft)
        (hl : e :: l ⊆ ops.filter (b.isEnd ops)) :
        ∃ d', b.rebuildEnd ops d e = .ok d' ∧ l ⊆ ops.filter (b.isEnd ops) := by
      obtain ⟨he, hl⟩ := List.cons_subset.1 hl
      obtain ⟨hmem, hend⟩ := List.mem_filter.1 he
      obtain ⟨vs, hvs⟩ := exists_leaves hmem (isEnd_iff.1 hend).1 h
      rw [rebuildEnd, hvs]
      cases vs with
      | nil => exact ⟨_, rfl, hl⟩
      | cons v rest => exact ⟨_, rfl, hl⟩
    obtain ⟨d, hd, -⟩ := exists_foldlM_invariant (I := fun l _ => l ⊆ ops.filter (b.isEnd ops))
      hstep (List.Subset.refl _)
    exact ⟨_, bind_eq_ok.2 ⟨d, hd, rfl⟩⟩

/-- Nodes that minters with the given names taken have made, for scopes from `i` on. -/
structure Fresh (m : Minter) (i : Nat) (ts : List Node) : Prop where
  nodup : (ts.map Node.name).Nodup
  scope : ∀ t ∈ ts, ∃ id n : Nat, i ≤ id ∧ t.name = Minter.temporaryName id n
  untaken : ∀ t ∈ ts, t.name ∉ m.taken
  wire : ∀ t ∈ ts, t.kind = .wire
  tag : ∀ t ∈ ts, t.tag = m.tag

theorem Fresh.append {i : Nat} {ts ts' : List Node} {m' : Minter}
    (h : ({ m with scope := i } : Minter).Mints ts m') (h' : Fresh m (i + 1) ts') :
    Fresh m i (ts ++ ts') where
  nodup := by
    rw [List.map_append, List.nodup_append]
    refine ⟨h.nodup_names, h'.nodup, ?_⟩
    rintro name hname _ hname' rfl
    obtain ⟨t, ht, rfl⟩ := List.mem_map.1 hname
    obtain ⟨t', ht', heq⟩ := List.mem_map.1 hname'
    obtain ⟨n, -, hn⟩ := h.name_eq ht
    obtain ⟨id, n', hid, hn'⟩ := h'.scope t' ht'
    have hscope : (i : Int) = id :=
      (Minter.temporaryName_inj (hn.symm.trans (heq.symm.trans hn'))).1
    omega
  scope t ht := by
    rcases List.mem_append.1 ht with ht | ht
    · obtain ⟨n, -, hn⟩ := h.name_eq ht
      exact ⟨i, n, le_rfl, hn⟩
    · obtain ⟨id, n, hid, hn⟩ := h'.scope t ht
      exact ⟨id, n, by omega, hn⟩
  untaken t ht := (List.mem_append.1 ht).elim h.notMem_taken (h'.untaken t)
  wire t ht := (List.mem_append.1 ht).elim h.kind_eq (h'.wire t)
  tag t ht := (List.mem_append.1 ht).elim h.tag_eq (h'.tag t)

theorem rebuildAll_rebuilding {comps : List Component} {rebuilt : List (List Operation)} {i : Nat}
    (hs : ∀ c ∈ comps, SingleAssignment c.operations)
    (h : (comps.zipIdx i).mapM (fun (c, id) => b.rebuild { m with scope := id } c.operations) =
      .ok rebuilt) :
    ∃ kept rewrites, Rebuilding b (comps.map Component.operations)
        (comps.flatMap Component.operations) rebuilt.flatten kept rewrites ∧
      Fresh m i (rewrites.flatMap (Rewrite.temporaries b)) := by
  induction comps generalizing rebuilt i with
  | nil =>
    cases h
    have hfresh : Fresh m i [] := ⟨List.nodup_nil, by simp, by simp, by simp, by simp⟩
    exact ⟨[], [], ⟨.refl _, .refl _, by simp, by simp⟩, hfresh⟩
  | cons c comps ih =>
    obtain ⟨hc, hs⟩ := List.forall_mem_cons.1 hs
    rw [List.zipIdx_cons] at h
    obtain ⟨out, rebuilt', hout, hrest, rfl⟩ := List.forall₂_cons_left_iff.1 (mapM_eq_ok.1 h)
    obtain ⟨kept₁, rewrites₁, hr₁, m', hm⟩ := rebuild_rebuilding hc hout
    obtain ⟨kept₂, rewrites₂, hr₂, hf⟩ := ih hs (mapM_eq_ok.2 hrest)
    refine ⟨kept₁ ++ kept₂, rewrites₁ ++ rewrites₂, ?_, ?_⟩
    · rw [List.flatMap_cons, List.flatten_cons]
      exact hr₁.append hr₂
    · rw [List.flatMap_append]
      exact Fresh.append hm hf

end Netlist.Bitwise
