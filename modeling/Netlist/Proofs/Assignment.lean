import Mathlib.Data.List.Nodup
import Mathlib.Data.List.Pairwise
import Netlist.Audit

/-!
# Single assignment and closed circuits

`SingleAssignment` says of a list of operations what `Graph.singleAssignment` checks: no destination
occurs twice. The producer of a node is then the only operation with that destination. A circuit is
closed if moreover every source is given or has a producer.
-/

namespace Netlist

theorem firstRepeat?_eq_none {α : Type} [DecidableEq α] {seen l : List α} :
    firstRepeat? seen l = none ↔ l.Nodup ∧ ∀ a ∈ l, a ∉ seen := by
  induction l generalizing seen with
  | nil => simp [firstRepeat?]
  | cons a l ih =>
    simp only [firstRepeat?]
    split_ifs with ha
    · simp [ha]
    · simp only [ih, List.nodup_cons, List.mem_cons, forall_eq_or_imp]
      grind

theorem find?_key_eq_some {α β : Type} [DecidableEq β] {f : α → β} {l : List α} {a : α} {b : β}
    (h : (l.map f).Nodup) : l.find? (f · = b) = some a ↔ a ∈ l ∧ f a = b := by
  constructor
  · intro hf
    exact ⟨List.mem_of_find?_eq_some hf, by simpa using List.find?_some hf⟩
  · rintro ⟨ha, rfl⟩
    cases hf : l.find? (f · = f a) with
    | none => simpa using List.find?_eq_none.1 hf a ha
    | some a' =>
      have heq : f a' = f a := by simpa using List.find?_some hf
      rw [List.inj_on_of_nodup_map h (List.mem_of_find?_eq_some hf) ha heq]

theorem eq_of_mem_flatMap {α β : Type} {f : α → List β} {l : List α} {a a' : α} {b : β}
    (h : (l.flatMap f).Nodup) (ha : a ∈ l) (ha' : a' ∈ l) (hb : b ∈ f a) (hb' : b ∈ f a') :
    a = a' := by
  by_contra hne
  have hsymm : Std.Symm (Function.onFun List.Disjoint f) := ⟨fun _ _ hd _ h h' => hd h' h⟩
  exact (List.nodup_flatMap.1 h).2.forall ha ha' hne hb hb'

def SingleAssignment (ops : List Operation) : Prop := (ops.map Operation.dest).Nodup

namespace SingleAssignment

variable {ops ops' : List Operation} {p q : Operation} {v : Node}

theorem nodup (h : SingleAssignment ops) : ops.Nodup := List.Nodup.of_map _ h

theorem eq_of_dest_eq (h : SingleAssignment ops) (hp : p ∈ ops) (hq : q ∈ ops)
    (hd : p.dest = q.dest) : p = q := List.inj_on_of_nodup_map h hp hq hd

theorem sublist (h : SingleAssignment ops) (hs : ops'.Sublist ops) : SingleAssignment ops' :=
  List.Nodup.sublist (hs.map _) h

theorem perm (hp : ops.Perm ops') : SingleAssignment ops ↔ SingleAssignment ops' :=
  (hp.map Operation.dest).nodup_iff

theorem find?_dest_eq_some (h : SingleAssignment ops) :
    ops.find? (·.dest = v) = some p ↔ p ∈ ops ∧ p.dest = v := find?_key_eq_some h

end SingleAssignment

namespace Graph

variable {g : Graph} {v : Node} {op : Operation}

theorem singleAssignment_eq_ok : g.singleAssignment = .ok () ↔ SingleAssignment g.operations := by
  have h : g.redefined? = none ↔ SingleAssignment g.operations := by
    simp [redefined?, firstRepeat?_eq_none, SingleAssignment]
  rw [← h, singleAssignment]
  cases g.redefined? <;> simp

theorem producer?_eq_some (h : SingleAssignment g.operations) :
    g.producer? v = some op ↔ op ∈ g.operations ∧ op.dest = v := h.find?_dest_eq_some

theorem producer?_eq_none : g.producer? v = none ↔ ∀ p ∈ g.operations, p.dest ≠ v := by
  simp [producer?]

theorem dangling?_eq_none : g.dangling? = none ↔ ∀ op ∈ g.operations, ∀ v ∈ op.sources,
    isGiven v = true ∨ ∃ p ∈ g.operations, p.dest = v := by
  have hp (v : Node) : (g.producer? v).isNone = true ↔ ¬∃ p ∈ g.operations, p.dest = v := by
    rw [Option.isNone_iff_eq_none, producer?_eq_none]
    push Not
    rfl
  simp only [dangling?, List.findSome?_eq_none_iff, Option.map_eq_none_iff, List.find?_eq_none,
    Bool.and_eq_true, Bool.not_eq_true', hp]
  grind

theorem closed_eq_ok : g.closed = .ok () ↔ SingleAssignment g.operations ∧
    ∀ op ∈ g.operations, ∀ v ∈ op.sources, isGiven v = true ∨ ∃ p ∈ g.operations, p.dest = v := by
  rw [← singleAssignment_eq_ok, ← dangling?_eq_none, closed]
  cases g.singleAssignment with
  | error e => simp [bind, Except.bind]
  | ok _ => cases g.dangling? <;> simp [bind, Except.bind, pure, Except.pure]

theorem mem_outputs : op ∈ g.outputs ↔ op ∈ g.operations ∧ op.opcode = .output := by
  simp [outputs]

theorem dest_mem_nodes (h : op ∈ g.operations) : op.dest ∈ g.nodes :=
  mem_nodes.2 (.inl ⟨op, h, List.mem_cons_self⟩)

theorem source_mem_nodes (h : op ∈ g.operations) (hv : v ∈ op.sources) : v ∈ g.nodes :=
  mem_nodes.2 (.inl ⟨op, h, List.mem_cons_of_mem _ hv⟩)

end Graph

end Netlist
