import Mathlib
import Netlist.Proofs.Balance

/-!
# Balancing loses and duplicates nothing

An operation of the connective is rewritten if its component has at least three operations, none of
them reads it, and it has leaves. Every operation lies in one component only, so it is settled which
operations of a circuit are rewritten and over which leaves.

The rewrites that a balanced circuit was made with are exactly these: rebuilding a component gets
done with all its ends, and no rewrite belongs to an operation that is kept. A tree over `k` leaves
has `k - 1` operations. So the balanced circuit holds the operations that are not rewritten, a copy
for each of the others, the operations of the trees, and nothing else.
-/

namespace Netlist

variable {g r : Graph} {op : Operation} {comps : List Component} {c c' : Component}

theorem Graph.Partition.eq_of_mem {accepts : Edge → Bool} (h : g.Partition accepts comps)
    (hs : SingleAssignment g.operations) (hc : c ∈ comps) (hc' : c' ∈ comps)
    (hop : op ∈ c.operations) (hop' : op ∈ c'.operations) : c = c' :=
  eq_of_mem_flatMap (h.perm.nodup_iff.2 hs.nodup) hc hc' hop hop'

/-- The operation that copies a node to the destination of another operation. -/
def Operation.copyOf (op : Operation) (v : Node) : Operation := ⟨op.dest, op.width, .mov, [v]⟩

namespace Bitwise

variable {b : Bitwise} {m : Minter} {x : Node} {queue vs vs' : List Node} {kept : List Operation}
  {rewrites : List Rewrite} {w : Rewrite}

theorem length_combine : (b.combine m x queue).operations.length = queue.length := by
  fun_induction combine b m x queue with
  | case1 m x => rfl
  | case2 m x y t m' hmint => rfl
  | case3 m x y z rest t m' hmint tree ih =>
    rw [List.length_cons, ih, List.length_append, List.length_singleton, List.length_cons,
      List.length_cons]

/-- Balancing rewrites an operation over some leaves. -/
def Rewritten (b : Bitwise) (comps : List Component) (op : Operation) (vs : List Node) : Prop :=
  ∃ c ∈ comps, op ∈ c.operations ∧ 3 ≤ c.operations.length ∧ op.opcode = b.opcode ∧
    (∀ p ∈ c.operations, op.dest ∉ p.sources) ∧ b.leaves c.operations op = .ok vs ∧ vs ≠ []

theorem Rewrite.Sound.rewritten (hc : c ∈ comps) (hw : w.Sound b c.operations) :
    b.Rewritten comps w.operation w.leaves :=
  ⟨c, hc, hw.mem, hw.large, hw.opcode, fun _ => hw.unread, hw.leaves, List.cons_ne_nil _ _⟩

theorem Rewritten.exists_sound (h : b.Rewritten comps op vs) :
    ∃ c ∈ comps, ∃ w : Rewrite, w.Sound b c.operations ∧ w.operation = op ∧ w.leaves = vs := by
  obtain ⟨c, hc, hop, hlarge, hopcode, hunread, hleaves, hne⟩ := h
  obtain ⟨v, rest, rfl⟩ := List.exists_cons_of_ne_nil hne
  exact ⟨c, hc, ⟨op, v, rest, .ofGraph .empty 0⟩,
    ⟨hlarge, hop, isEnd_iff.2 ⟨hopcode, hunread⟩, hleaves⟩, rfl, rfl⟩

section Components

variable {accepts : Edge → Bool} (hpart : g.Partition accepts comps)
  (hs : SingleAssignment g.operations)

include hpart hs

theorem Rewritten.leaves_eq (h : b.Rewritten comps op vs) (h' : b.Rewritten comps op vs') :
    vs = vs' := by
  obtain ⟨c, hc, hop, -, -, -, hleaves, -⟩ := h
  obtain ⟨c', hc', hop', -, -, -, hleaves', -⟩ := h'
  rw [hpart.eq_of_mem hs hc hc' hop hop', hleaves'] at hleaves
  cases hleaves
  rfl

theorem Stays.not_rewritten (hc : c ∈ comps) (h : b.Stays c.operations op) :
    ¬b.Rewritten comps op vs := by
  intro hrewritten
  obtain ⟨c', hc', w, hw, rfl, -⟩ := hrewritten.exists_sound
  rw [← hpart.eq_of_mem hs hc hc' h.1 hw.mem] at hw
  exact h.2 w hw rfl

end Components

theorem exists_rewrites (h : b.balance g = .ok r) :
    ∃ comps kept rewrites, g.components (·.operation.opcode = b.opcode) = .ok comps ∧
      Balancing b g r kept rewrites ∧ (∀ op ∈ kept, ∀ vs, ¬b.Rewritten comps op vs) ∧
      ∀ op vs, b.Rewritten comps op vs ↔ ∃ w ∈ rewrites, w.operation = op ∧ w.leaves = vs := by
  obtain ⟨comps, kept, rewrites, hcomps, hr, hb⟩ := exists_rebuilding h
  obtain ⟨hs, hpart⟩ := Graph.partition_of_components hcomps
  have hkept : ∀ op ∈ kept, ∀ vs, ¬b.Rewritten comps op vs := by
    intro op hop vs
    obtain ⟨ops, hops, hstays⟩ := hr.stays op hop
    obtain ⟨c, hc, rfl⟩ := List.mem_map.1 hops
    exact hstays.not_rewritten hpart hs hc
  have hsound : ∀ w ∈ rewrites, b.Rewritten comps w.operation w.leaves := by
    intro w hw
    obtain ⟨ops, hops, hsound⟩ := hr.sound w hw
    obtain ⟨c, hc, rfl⟩ := List.mem_map.1 hops
    exact hsound.rewritten hc
  refine ⟨comps, kept, rewrites, hcomps, hb, hkept, fun op vs => ⟨fun hrewritten => ?_, ?_⟩⟩
  · have hop : op ∈ g.operations := by
      obtain ⟨c, hc, hop, -⟩ := hrewritten
      exact hpart.perm.mem_iff.1 (List.mem_flatMap.2 ⟨c, hc, hop⟩)
    rcases hb.mem_operations.1 hop with hop | ⟨w, hw, rfl⟩
    · exact absurd hrewritten (hkept op hop vs)
    · exact ⟨w, hw, rfl, (hsound w hw).leaves_eq hpart hs hrewritten⟩
  · rintro ⟨w, hw, rfl, rfl⟩
    exact hsound w hw

/-- A part of the rewrite that belongs to an operation, if one of some rewrites does. -/
def partOf {α : Type} (rewrites : List Rewrite) (part : Rewrite → α) (otherwise : α)
    (op : Operation) : α :=
  ((rewrites.find? (·.operation = op)).map part).getD otherwise

theorem partOf_operation {α : Type} {part : Rewrite → α} {otherwise : α}
    (hnodup : (rewrites.map Rewrite.operation).Nodup) (hw : w ∈ rewrites) :
    partOf rewrites part otherwise w.operation = part w := by
  rw [partOf, (find?_key_eq_some hnodup).2 ⟨hw, rfl⟩]
  rfl

/-- How a balanced circuit comes from the circuit before: some operations are kept, and for each of
the others, the ends, there is a copy of the root of a tree. -/
structure Replacement (b : Bitwise) (comps : List Component) (g r : Graph)
    (kept ends : List Operation) (root : Operation → Node) (tree : Operation → List Operation) :
    Prop where
  before : g.operations.Perm (kept ++ ends)
  after : r.operations.Perm
    (kept ++ ends.map (fun op => op.copyOf (root op)) ++ ends.flatMap tree)
  stays : ∀ op ∈ kept, ∀ vs, ¬b.Rewritten comps op vs
  once : ∀ op ∈ kept, r.operations.count op = 1
  rewritten : ∀ op ∈ ends, ∃ vs, b.Rewritten comps op vs
  once_copied : ∀ op ∈ ends, r.operations.count (op.copyOf (root op)) = 1
  length_tree : ∀ op ∈ ends, ∀ vs, b.Rewritten comps op vs → (tree op).length + 1 = vs.length
  binary : ∀ p ∈ ends.flatMap tree, p.opcode = b.opcode ∧ p.sources.length = 2
  fresh : ∀ p ∈ ends.flatMap tree, p.dest ∉ g.nodes
  distinct : ((ends.flatMap tree).map Operation.dest).Nodup
  assigned : r.singleAssignment = .ok ()
  memories : ∀ v ∈ g.nodes, v.isMemory = true → v ∈ r.nodes

/-- A balanced circuit holds each operation that is not rewritten, once and unchanged. In the place
of an operation that is rewritten over `k` leaves it has one `mov` with the same destination and
width, and `k - 1` operations of the connective with two sources each. Their destinations differ
from one another and from all nodes of the circuit before. It holds nothing else, it has single
assignment, and it keeps the memories. -/
theorem balance_loses_and_duplicates_nothing (h : b.balance g = .ok r) :
    ∃ comps, g.components (·.operation.opcode = b.opcode) = .ok comps ∧
      ∃ kept ends root tree, Replacement b comps g r kept ends root tree := by
  obtain ⟨comps, kept, rewrites, hcomps, hb, hkept, hrewritten⟩ := exists_rewrites h
  have hnodup : (rewrites.map Rewrite.operation).Nodup :=
    (List.nodup_append.1 (hb.source.nodup_iff.1 hb.assigned.nodup)).2.1
  let root := partOf rewrites (fun w => (w.tree b).root) ⟨[], 0, .wire, 0⟩
  let tree := partOf rewrites (fun w => (w.tree b).operations) []
  have htree (w : Rewrite) (hw : w ∈ rewrites) : tree w.operation = (w.tree b).operations :=
    partOf_operation hnodup hw
  have hcopy (w : Rewrite) (hw : w ∈ rewrites) :
      w.operation.copyOf (root w.operation) = w.copy b :=
    congrArg w.operation.copyOf (partOf_operation hnodup hw)
  have htrees : (rewrites.map Rewrite.operation).flatMap tree = b.trees rewrites := by
    rw [List.flatMap_map]
    exact List.flatMap_congr htree
  have hcopies : (rewrites.map Rewrite.operation).map (fun op => op.copyOf (root op)) =
      rewrites.map (Rewrite.copy b) := by
    rw [List.map_map]
    exact List.map_congr_left hcopy
  have honce (op : Operation) (hop : op ∈ r.operations) : r.operations.count op = 1 :=
    List.count_eq_one_of_mem hb.assigned_result.nodup hop
  refine ⟨comps, hcomps, kept, rewrites.map Rewrite.operation, root, tree, hb.source, ?_, hkept,
    fun op hop => honce op (hb.mem_result.2 (.inl hop)), ?_, ?_, ?_, ?_, ?_, ?_,
    Graph.singleAssignment_eq_ok.2 hb.assigned_result, ?_⟩
  · rw [hcopies, htrees]
    exact hb.result_perm
  · intro op hop
    obtain ⟨w, hw, rfl⟩ := List.mem_map.1 hop
    exact ⟨w.leaves, (hrewritten _ _).2 ⟨w, hw, rfl, rfl⟩⟩
  · intro op hop
    obtain ⟨w, hw, rfl⟩ := List.mem_map.1 hop
    rw [hcopy w hw]
    exact honce _ (hb.mem_result.2 (.inr (.inr ⟨w, hw, rfl⟩)))
  · intro op _ vs hvs
    obtain ⟨w, hw, rfl, rfl⟩ := (hrewritten op vs).1 hvs
    rw [htree w hw, Rewrite.tree, length_combine]
    rfl
  · rw [htrees]
    intro p hp
    obtain ⟨w, -, hp⟩ := List.mem_flatMap.1 hp
    obtain ⟨t, y, z, rfl⟩ := eq_pair_of_mem_combine hp
    exact ⟨rfl, rfl⟩
  · rw [htrees]
    exact fun p hp => hb.notMem_nodes (List.mem_map_of_mem hp)
  · rw [htrees]
    exact hb.nodup_temporaries
  · intro v hv hmemory
    rw [Graph.mem_nodes, hb.declared]
    exact .inr (List.mem_filter.2 ⟨hv, hmemory⟩)

/-- Two sums over one partial sum. In the second of them everything cancels. -/
def twoSums : Graph where
  operations :=
    [⟨⟨"a", 8, .wire, 0⟩, 8, .input, []⟩,
      ⟨⟨"b", 8, .wire, 0⟩, 8, .input, []⟩,
      ⟨⟨"c", 8, .wire, 0⟩, 8, .input, []⟩,
      ⟨⟨"t", 8, .wire, 0⟩, 8, .xor, [⟨"a", 8, .wire, 0⟩, ⟨"b", 8, .wire, 0⟩]⟩,
      ⟨⟨"s", 8, .wire, 0⟩, 8, .xor, [⟨"t", 8, .wire, 0⟩, ⟨"c", 8, .wire, 0⟩]⟩,
      ⟨⟨"z", 8, .wire, 0⟩, 8, .xor, [⟨"t", 8, .wire, 0⟩, ⟨"t", 8, .wire, 0⟩]⟩]
  declared := [⟨"m", 8, .memory 4, 0⟩]

/-- Only the first sum has been rewritten. -/
def twoSumsBalanced : Graph where
  operations :=
    [⟨⟨"a", 8, .wire, 0⟩, 8, .input, []⟩,
      ⟨⟨"b", 8, .wire, 0⟩, 8, .input, []⟩,
      ⟨⟨"c", 8, .wire, 0⟩, 8, .input, []⟩,
      ⟨⟨"OPT0_0", 8, .wire, 1⟩, 8, .xor, [⟨"a", 8, .wire, 0⟩, ⟨"b", 8, .wire, 0⟩]⟩,
      ⟨⟨"OPT0_1", 8, .wire, 1⟩, 8, .xor, [⟨"c", 8, .wire, 0⟩, ⟨"OPT0_0", 8, .wire, 1⟩]⟩,
      ⟨⟨"s", 8, .wire, 0⟩, 8, .mov, [⟨"OPT0_1", 8, .wire, 1⟩]⟩,
      ⟨⟨"z", 8, .wire, 0⟩, 8, .xor, [⟨"t", 8, .wire, 0⟩, ⟨"t", 8, .wire, 0⟩]⟩,
      ⟨⟨"t", 8, .wire, 0⟩, 8, .xor, [⟨"a", 8, .wire, 0⟩, ⟨"b", 8, .wire, 0⟩]⟩]
  declared := [⟨"m", 8, .memory 4, 0⟩]
  generation := 1

theorem twoSums_loses_and_duplicates_nothing :
    xor.balance twoSums = .ok twoSumsBalanced ∧
      ∃ comps, twoSums.components (·.operation.opcode = xor.opcode) = .ok comps ∧
        ∃ kept ends root tree,
          Replacement xor comps twoSums twoSumsBalanced kept ends root tree := by
  have hbalance : xor.balance twoSums = .ok twoSumsBalanced := by cbv
  exact ⟨hbalance, balance_loses_and_duplicates_nothing hbalance⟩

end Bitwise

end Netlist
