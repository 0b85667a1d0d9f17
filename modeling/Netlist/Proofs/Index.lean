import Mathlib
import Netlist.Circuit.Graph

/-!
# The index of a circuit

A circuit is built by calls that add an operation or declare a node, in any order. `FirstOrder l r`
says that `r` has the elements of `l`, each once, in the order in which they first occur, and only
one list does. The nodes of a circuit are such a list: what the calls mention is taken up operation
by operation, and the declared nodes come behind. A name stands for the first node that has it, so
nodes of the same name are told apart everywhere but in a look-up.

`Index` is what a single pass collects in order to answer both questions, a list of the nodes that
have been seen and a table of names. The two grow together, and at each step the table gives the
first node of the list that has a name.
-/

namespace Netlist

section FirstOrder

variable {α : Type} [DecidableEq α] {l r r' : List α}

/-- The elements of a list, each once, in the order in which they first occur. -/
structure FirstOrder (l r : List α) : Prop where
  mem_iff : ∀ a, a ∈ r ↔ a ∈ l
  ordered : r.Pairwise fun a b => l.idxOf a < l.idxOf b

namespace FirstOrder

theorem nil : FirstOrder ([] : List α) [] := ⟨fun _ => Iff.rfl, .nil⟩

theorem nodup (h : FirstOrder l r) : r.Nodup := by
  refine h.ordered.imp ?_
  rintro a _ hlt rfl
  exact Nat.lt_irrefl _ hlt

theorem unique (h : FirstOrder l r) (h' : FirstOrder l r') : r = r' := by
  have hperm : r.Perm r' := by
    rw [List.perm_ext_iff_of_nodup h.nodup h'.nodup]
    intro a
    rw [h.mem_iff, h'.mem_iff]
  exact hperm.eq_of_pairwise (fun a b _ _ hab hba => absurd hba (Nat.lt_asymm hab))
    h.ordered h'.ordered

theorem concat (h : FirstOrder l r) (a : α) :
    FirstOrder (l ++ [a]) (if a ∈ r then r else r ++ [a]) := by
  have hold : r.Pairwise fun b c => (l ++ [a]).idxOf b < (l ++ [a]).idxOf c := by
    refine h.ordered.imp_of_mem fun {b c} hb hc hlt => ?_
    rwa [List.idxOf_append_of_mem ((h.mem_iff b).1 hb),
      List.idxOf_append_of_mem ((h.mem_iff c).1 hc)]
  split_ifs with ha
  · refine ⟨fun b => ?_, hold⟩
    rw [h.mem_iff, List.mem_append, List.mem_singleton, or_iff_left_of_imp]
    rintro rfl
    exact (h.mem_iff b).1 ha
  · refine ⟨fun b => by simp [h.mem_iff], ?_⟩
    refine List.pairwise_append.2 ⟨hold, List.pairwise_singleton _ _, fun b hb c hc => ?_⟩
    obtain rfl := List.mem_singleton.1 hc
    rw [h.mem_iff] at ha hb
    rw [List.idxOf_append_of_mem hb, List.idxOf_append_of_notMem ha]
    exact (List.idxOf_lt_length_of_mem hb).trans_le (Nat.le_add_right _ _)

end FirstOrder

theorem firstOrder_eraseDups (l : List α) : FirstOrder l l.eraseDups := by
  induction l using List.reverseRecOn with
  | nil => exact .nil
  | append_singleton l a ih =>
    have hconcat : (l ++ [a]).eraseDups =
        if a ∈ l.eraseDups then l.eraseDups else l.eraseDups ++ [a] := by
      rw [List.eraseDups_append]
      by_cases ha : a ∈ l <;> simp [List.removeAll, List.eraseDups_cons, ha]
    rw [hconcat]
    exact ih.concat a

end FirstOrder

namespace Graph

variable {g : Graph} {name : Text} {v : Node}

theorem firstOrder_nodes (g : Graph) : FirstOrder g.occurrences g.nodes :=
  firstOrder_eraseDups g.occurrences

theorem lookup?_eq_some : g.lookup? name = some v ↔
    v.name = name ∧ ∃ before after, g.nodes = before ++ v :: after ∧
      ∀ u ∈ before, u.name ≠ name := by
  simp [lookup?, List.find?_eq_some_iff_append]

theorem lookup?_eq_none : g.lookup? name = none ↔ ∀ v ∈ g.nodes, v.name ≠ name := by
  simp [lookup?]

theorem hasName_iff : g.hasName name = true ↔ ∃ v ∈ g.nodes, v.name = name := by
  simp [hasName, lookup?]

end Graph

namespace Index

theorem ofGraph_eq_foldl (g : Graph) : ofGraph g = g.occurrences.foldl note {} := by
  rw [ofGraph, Graph.occurrences, List.foldl_append, List.foldl_flatMap]
  rfl

/-- The pass has gone over some nodes, and the table fits the list. -/
structure Covers (l : List Node) (ix : Index) : Prop where
  nodes : FirstOrder l ix.nodes
  names : ∀ name, ix.lookup? name = ix.nodes.find? (·.name = name)

variable {l : List Node} {ix : Index}

theorem lookup?_note {v : Node} (hv : v ∉ ix.nodes) (name : Text) :
    (ix.note v).lookup? name = (ix.lookup? name).or (if v.name = name then some v else none) := by
  rw [note, if_neg hv]
  by_cases hname : name = v.name
  · subst hname
    cases hl : ix.lookup? v.name with
    | none => simp [lookup?]
    | some u => simpa [lookup?] using hl
  · have hne : v.name ≠ name := fun h => hname h.symm
    cases hl : ix.lookup? v.name with
    | none => simp [lookup?, List.lookup_cons, beq_false_of_ne hname, hne]
    | some u => simp [lookup?, hne]

theorem Covers.note (h : Covers l ix) (v : Node) : Covers (l ++ [v]) (ix.note v) := by
  have hnodes : (ix.note v).nodes = if v ∈ ix.nodes then ix.nodes else ix.nodes ++ [v] := by
    rw [Index.note]
    split_ifs <;> rfl
  refine ⟨hnodes ▸ h.nodes.concat v, fun name => ?_⟩
  by_cases hv : v ∈ ix.nodes
  · rw [Index.note, if_pos hv]
    exact h.names name
  · rw [lookup?_note hv, hnodes, if_neg hv, List.find?_append, h.names]
    by_cases hname : v.name = name <;> simp [hname]

theorem Covers.foldl_note (h : Covers l ix) (vs : List Node) :
    Covers (l ++ vs) (vs.foldl Index.note ix) := by
  induction vs generalizing l ix with
  | nil => simpa using h
  | cons v vs ih =>
    rw [List.foldl_cons, List.append_cons]
    exact ih (h.note v)

theorem covers_ofGraph (g : Graph) : Covers g.occurrences (ofGraph g) := by
  have hstart : Covers [] {} := ⟨.nil, fun _ => rfl⟩
  rw [ofGraph_eq_foldl]
  exact hstart.foldl_note g.occurrences

/-- One pass finds the nodes of a circuit, and its table answers as the circuit does. -/
theorem nodes_ofGraph (g : Graph) : (ofGraph g).nodes = g.nodes :=
  (covers_ofGraph g).nodes.unique g.firstOrder_nodes

theorem lookup?_ofGraph (g : Graph) (name : Text) : (ofGraph g).lookup? name = g.lookup? name := by
  rw [(covers_ofGraph g).names, nodes_ofGraph, Graph.lookup?]

end Index

namespace Graph

/-- A call that lets a circuit grow. -/
inductive Call where
  | add (op : Operation)
  | declare (v : Node)

namespace Call

def apply (g : Graph) : Call → Graph
  | add op => g.add op
  | declare v => g.declare v

def operation? : Call → Option Operation
  | add op => some op
  | declare _ => none

def declared? : Call → Option Node
  | add _ => none
  | declare v => some v

end Call

/-- The circuit that calls make from nothing. -/
def build (calls : List Call) : Graph := calls.foldl Call.apply .empty

theorem foldl_apply (g : Graph) (calls : List Call) : calls.foldl Call.apply g =
    { g with
      operations := g.operations ++ calls.filterMap Call.operation?
      declared := g.declared ++ calls.filterMap Call.declared? } := by
  induction calls generalizing g with
  | nil => simp
  | cons call calls ih =>
    rw [List.foldl_cons, ih]
    cases call with
    | add op => simp [Call.apply, Call.operation?, Call.declared?, add, List.filterMap_cons]
    | declare v => simp [Call.apply, Call.operation?, Call.declared?, declare, List.filterMap_cons]

theorem build_eq (calls : List Call) : build calls =
    { operations := calls.filterMap Call.operation?
      declared := calls.filterMap Call.declared? } := by
  rw [build, foldl_apply]
  rfl

theorem occurrences_build (calls : List Call) : (build calls).occurrences =
    (calls.filterMap Call.operation?).flatMap (fun op => op.dest :: op.sources) ++
      calls.filterMap Call.declared? := by
  rw [build_eq]
  rfl

/-- However calls that add operations and declare nodes are mixed, the circuit has the operations in
the order of the calls. Its nodes are those that the operations mention, destination before sources,
and then the declared ones, each at its first occurrence only; no other list is in that order.
A name is looked up as the first node that has it, whatever other nodes do, and it is there exactly
if some node has it. One pass that grows the list and the table together finds the same. -/
theorem built_circuit_is_indexed (calls : List Call) :
    (build calls).operations = calls.filterMap Call.operation? ∧
    (build calls).nodes.Nodup ∧
    (∀ r, FirstOrder
      ((calls.filterMap Call.operation?).flatMap (fun op => op.dest :: op.sources) ++
        calls.filterMap Call.declared?) r ↔ r = (build calls).nodes) ∧
    (∀ name v, (build calls).lookup? name = some v ↔ v.name = name ∧
      ∃ before after, (build calls).nodes = before ++ v :: after ∧ ∀ u ∈ before, u.name ≠ name) ∧
    (∀ name, (build calls).lookup? name = none ↔ ∀ v ∈ (build calls).nodes, v.name ≠ name) ∧
    (∀ name, (build calls).hasName name = true ↔ ∃ v ∈ (build calls).nodes, v.name = name) ∧
    (Index.ofGraph (build calls)).nodes = (build calls).nodes ∧
    ∀ name, (Index.ofGraph (build calls)).lookup? name = (build calls).lookup? name := by
  have horder := firstOrder_nodes (build calls)
  rw [occurrences_build] at horder
  refine ⟨by rw [build_eq], horder.nodup, fun r => ⟨fun hr => hr.unique horder, ?_⟩,
    fun name v => lookup?_eq_some, fun name => lookup?_eq_none, fun name => hasName_iff,
    Index.nodes_ofGraph _, Index.lookup?_ofGraph _⟩
  rintro rfl
  exact horder

example :
    let a : Node := ⟨"a", 8, .wire, 1⟩
    let b : Node := ⟨"a", 8, .wire, 2⟩
    let m : Node := ⟨"m", 8, .memory 4, 3⟩
    let x : Node := ⟨"x", 8, .wire, 4⟩
    let g := build [.declare m, .add ⟨x, 8, .and, [b, a, b]⟩, .declare a, .add ⟨a, 8, .input, []⟩]
    g.nodes = [x, b, a, m] ∧ g.lookup? "a" = some b ∧ g.hasName "y" = false := by decide

end Graph

end Netlist
