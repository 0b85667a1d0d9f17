import Mathlib.Data.List.Perm.Basic
import Mathlib.Order.SymmDiff
import Netlist.Circuit.Graph

/-!
# Values of nodes

Nodes take values in a Boolean algebra. A connective of any number of values is their meet, their
join or their symmetric difference, and of no values the neutral element. `fold` does not depend on
the order of the values; adding a value that is there already changes nothing for the idempotent
connectives, and takes the value away for `xor`.

A `Meaning` says which value of its destination an operation allows, given the values of its
sources; a valuation `Satisfies` a circuit if every operation allows the values of its nodes. A
`Reading` of one connective fixes the meaning of that connective and of `mov` and leaves everything
else open. An `Interpretation` fixes all connectives and `mov`, and gives each other operation a
meaning that depends on its destination, its width and its opcode only.
-/

namespace Netlist

variable {α : Type*}

namespace Bitwise

variable [BooleanAlgebra α] (b : Bitwise)

def join : Bitwise → α → α → α
  | and => (· ⊓ ·)
  | or => (· ⊔ ·)
  | xor => symmDiff

def neutral : Bitwise → α
  | and => ⊤
  | or => ⊥
  | xor => ⊥

def fold (xs : List α) : α := xs.foldr b.join b.neutral

theorem join_comm (x y : α) : b.join x y = b.join y x := by
  cases b with
  | and => exact inf_comm x y
  | or => exact sup_comm x y
  | xor => exact symmDiff_comm x y

theorem join_assoc (x y z : α) : b.join (b.join x y) z = b.join x (b.join y z) := by
  cases b with
  | and => exact inf_assoc x y z
  | or => exact sup_assoc x y z
  | xor => exact symmDiff_assoc x y z

theorem join_neutral (x : α) : b.join x b.neutral = x := by
  cases b with
  | and => exact inf_top_eq x
  | or => exact sup_bot_eq x
  | xor => exact symmDiff_bot x

theorem join_join_self (x y : α) :
    b.join x (b.join x y) = if b.isIdempotent then b.join x y else y := by
  cases b with
  | and => exact inf_left_idem x y
  | or => exact sup_left_idem x y
  | xor => exact symmDiff_symmDiff_cancel_left x y

instance : Std.Commutative (b.join : α → α → α) := ⟨b.join_comm⟩

instance : Std.Associative (b.join : α → α → α) := ⟨b.join_assoc⟩

@[simp] theorem fold_nil : b.fold ([] : List α) = b.neutral := rfl

@[simp] theorem fold_cons (x : α) (xs : List α) : b.fold (x :: xs) = b.join x (b.fold xs) := rfl

theorem fold_singleton (x : α) : b.fold [x] = x := b.join_neutral x

theorem fold_append (xs ys : List α) : b.fold (xs ++ ys) = b.join (b.fold xs) (b.fold ys) := by
  induction xs with
  | nil => rw [List.nil_append, fold_nil, join_comm, join_neutral]
  | cons x xs ih => rw [List.cons_append, fold_cons, fold_cons, ih, join_assoc]

theorem fold_perm {xs ys : List α} (h : xs.Perm ys) : b.fold xs = b.fold ys := h.foldr_op_eq

end Bitwise

/-- Which value of its destination an operation allows, given the values of its sources. -/
abbrev Meaning (α : Type*) := Operation → α → List α → Prop

def Operation.Holds (M : Meaning α) (ρ : Node → α) (op : Operation) : Prop :=
  M op (ρ op.dest) (op.sources.map ρ)

def Graph.Satisfies (M : Meaning α) (g : Graph) (ρ : Node → α) : Prop :=
  ∀ op ∈ g.operations, op.Holds M ρ

theorem Operation.holds_congr {M : Meaning α} {ρ σ : Node → α} {op : Operation}
    (h : ∀ v ∈ op.operands, ρ v = σ v) : op.Holds M ρ ↔ op.Holds M σ := by
  have hd : ρ op.dest = σ op.dest := h _ List.mem_cons_self
  have hs : op.sources.map ρ = op.sources.map σ :=
    List.map_congr_left fun v hv => h v (List.mem_cons_of_mem _ hv)
  rw [Operation.Holds, Operation.Holds, hd, hs]

theorem Graph.satisfies_congr {M : Meaning α} {ρ σ : Node → α} (g : Graph)
    (h : ∀ v ∈ g.nodes, ρ v = σ v) : g.Satisfies M ρ ↔ g.Satisfies M σ :=
  forall₂_congr fun op hop =>
    Operation.holds_congr fun v hv => h v (Graph.mem_nodes.2 (.inl ⟨op, hop, hv⟩))

/-- A meaning of operations under which a connective is its fold and a `mov` of one source copies
it. -/
structure Reading (b : Bitwise) (α : Type*) [BooleanAlgebra α] where
  meaning : Meaning α
  connective : ∀ op x xs, op.opcode = b.opcode → (meaning op x xs ↔ x = b.fold xs)
  copy : ∀ op x y, op.opcode = .mov → (meaning op x [y] ↔ x = y)

/-- What the operations that are neither connectives nor copies allow. -/
abbrev Interpretation (α : Type*) := Node → Width → Opcode → α → List α → Prop

namespace Interpretation

variable [BooleanAlgebra α]

def meaning (I : Interpretation α) : Meaning α := fun op x xs =>
  match Bitwise.ofOpcode? op.opcode, op.opcode, xs with
  | some b, _, xs => x = b.fold xs
  | none, .mov, [y] => x = y
  | none, opcode, xs => I op.dest op.width opcode x xs

/-- The source values determine what every operation other than a connective or a copy yields. -/
def Functional (I : Interpretation α) : Prop :=
  ∀ v w opcode xs x y, I v w opcode x xs → I v w opcode y xs → x = y

theorem meaning_connective (I : Interpretation α) {b : Bitwise} {op : Operation} {x : α}
    {xs : List α} (h : op.opcode = b.opcode) : I.meaning op x xs ↔ x = b.fold xs := by
  simp only [meaning, Bitwise.ofOpcode?_eq_some.2 h]

theorem meaning_copy (I : Interpretation α) {op : Operation} {x y : α} (h : op.opcode = .mov) :
    I.meaning op x [y] ↔ x = y := by
  simp [meaning, h, Bitwise.ofOpcode?]

def reading (I : Interpretation α) (b : Bitwise) : Reading b α where
  meaning := I.meaning
  connective _ _ _ h := I.meaning_connective h
  copy _ _ _ h := I.meaning_copy h

theorem meaning_functional {I : Interpretation α} (hI : I.Functional) {op : Operation} {x y : α}
    {xs : List α} (hx : I.meaning op x xs) (hy : I.meaning op y xs) : x = y := by
  revert hx hy
  unfold meaning
  split
  · intro hx hy
    exact hx.trans hy.symm
  · intro hx hy
    exact hx.trans hy.symm
  · exact hI _ _ _ _ _ _

theorem meaning_sources (I : Interpretation α) (op : Operation) (sources : List Node) (x : α)
    (xs : List α) : I.meaning { op with sources := sources } x xs ↔ I.meaning op x xs := Iff.rfl

end Interpretation

end Netlist
