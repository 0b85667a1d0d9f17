import Mathlib.Data.List.Nodup
import Netlist.Circuit.Graph
import Netlist.Format.Print

/-!
# Circuits up to the identity of their nodes

The outline of a circuit lists its nodes without their tags and its operations with the places of
their operands in that list. Two circuits with the same outline differ only in what their nodes are,
not in how they are connected.

Without its tags a circuit keeps its outline and its text, provided that its nodes have different
names and that it declares memories only. The memories are then declared in the order of the nodes,
which does not change that order: the memories that operations mention come first anyway, and the
others keep the order of their declarations.
-/

namespace Netlist

def Node.untagged (v : Node) : Node := { v with tag := 0 }

namespace Operation

def untagged (op : Operation) : Operation :=
  ⟨op.dest.untagged, op.width, op.opcode, op.sources.map Node.untagged⟩

/-- An operation whose operands are places in a list of nodes. -/
structure Shape where
  opcode : Opcode
  width : Width
  dest : Nat
  sources : List Nat
  deriving DecidableEq, Repr

def shape (nodes : List Node) (op : Operation) : Shape :=
  ⟨op.opcode, op.width, nodes.idxOf op.dest, op.sources.map nodes.idxOf⟩

theorem operands_untagged (op : Operation) : op.untagged.operands = op.operands.map Node.untagged :=
  rfl

theorem text_untagged (op : Operation) : op.untagged.text = op.text := by
  have hnames : (op.sources.map Node.untagged).map Node.name = op.sources.map Node.name := by
    rw [List.map_map]
    rfl
  rw [text, text, untagged, hnames]
  rfl

end Operation

section Map

variable {α : Type} [DecidableEq α] {f : α → α} {l : List α} {a : α}

theorem idxOf_map (hinj : ∀ b ∈ l, f b = f a → b = a) : (l.map f).idxOf (f a) = l.idxOf a := by
  induction l with
  | nil => rfl
  | cons b l ih =>
    obtain ⟨hb, hl⟩ := List.forall_mem_cons.1 hinj
    by_cases heq : b = a
    · rw [List.map_cons, heq, List.idxOf_cons_self, List.idxOf_cons_self]
    · rw [List.map_cons, List.idxOf_cons_ne _ fun h => heq (hb h), List.idxOf_cons_ne _ heq, ih hl]

theorem eraseDups_map (f : α → α) (l : List α) (hinj : ∀ a ∈ l, ∀ b ∈ l, f a = f b → a = b) :
    (l.map f).eraseDups = l.eraseDups.map f := by
  match l with
  | [] => rfl
  | a :: l =>
    have hfilter : (l.map f).filter (fun b => !b == f a) = (l.filter fun b => !b == a).map f := by
      rw [List.filter_map]
      refine congrArg (List.map f) (List.filter_congr fun b hb => ?_)
      have hba : f b = f a ↔ b = a :=
        ⟨hinj b (List.mem_cons_of_mem a hb) a List.mem_cons_self, congrArg f⟩
      simp [hba]
    have hmem (b : α) (hb : b ∈ l.filter fun b => !b == a) : b ∈ a :: l :=
      List.mem_cons_of_mem a (List.mem_of_mem_filter hb)
    rw [List.map_cons, List.eraseDups_cons, List.eraseDups_cons, List.map_cons, hfilter,
      eraseDups_map f _ fun b hb c hc => hinj b (hmem b hb) c (hmem c hc)]
termination_by l.length
decreasing_by exact Nat.lt_succ_of_le (List.length_filter_le _ l)

theorem eraseDups_eq_self (h : l.Nodup) : l.eraseDups = l := by
  induction l with
  | nil => rfl
  | cons a l ih =>
    obtain ⟨ha, hl⟩ := List.nodup_cons.1 h
    have hfilter : l.filter (fun b => !b == a) = l := by
      rw [List.filter_eq_self]
      intro b hb
      simpa using fun heq : b = a => ha (heq ▸ hb)
    rw [List.eraseDups_cons, hfilter, ih hl]

end Map

namespace Graph

variable {g : Graph}

structure Outline where
  nodes : List Node
  operations : List Operation.Shape
  deriving DecidableEq, Repr

def outline (g : Graph) : Outline where
  nodes := g.nodes.map Node.untagged
  operations := g.operations.map (Operation.shape g.nodes)

/-- The circuit without tags, with its memories declared in the order of its nodes. -/
def untagged (g : Graph) : Graph where
  operations := g.operations.map Operation.untagged
  declared := g.memories.map Node.untagged

theorem eraseDups_append_memories (hdecl : ∀ v ∈ g.declared, v.isMemory = true) :
    (g.operations.flatMap Operation.operands ++ g.memories).eraseDups = g.nodes := by
  set mentioned := g.operations.flatMap Operation.operands with hmentioned
  set others := (g.declared.removeAll mentioned).eraseDups with hothers
  have hnodes : g.nodes = mentioned.eraseDups ++ others := List.eraseDups_append
  have hmem (v : Node) (hv : v ∈ others) : v.isMemory = true ∧ v ∉ mentioned := by
    rw [hothers, List.mem_eraseDups, List.removeAll, List.mem_filter] at hv
    exact ⟨hdecl v hv.1, by simpa using hv.2⟩
  have hmemories : g.memories = mentioned.eraseDups.filter Node.isMemory ++ others := by
    rw [memories, hnodes, List.filter_append,
      List.filter_eq_self.2 fun v hv => (hmem v hv).1]
  have hremove : g.memories.removeAll mentioned = others := by
    have hfirst : (mentioned.eraseDups.filter Node.isMemory).removeAll mentioned = [] := by
      rw [List.removeAll, List.filter_eq_nil_iff]
      intro v hv
      simpa using List.mem_eraseDups.1 (List.mem_of_mem_filter hv)
    have hlast : others.removeAll mentioned = others := by
      rw [List.removeAll, List.filter_eq_self]
      intro v hv
      simpa using (hmem v hv).2
    rw [hmemories, List.removeAll, List.filter_append, ← List.removeAll, ← List.removeAll, hfirst,
      hlast, List.nil_append]
  rw [List.eraseDups_append, hremove, eraseDups_eq_self (nodup_eraseDups _), hnodes]

section Untagged

variable (hnamed : ∀ u ∈ g.nodes, ∀ v ∈ g.nodes, u.name = v.name → u = v)
  (hdecl : ∀ v ∈ g.declared, v.isMemory = true)

include hnamed

theorem untagged_injOn : ∀ u ∈ g.nodes, ∀ v ∈ g.nodes, u.untagged = v.untagged → u = v := by
  intro u hu v hv h
  have hname : u.untagged.name = v.untagged.name := congrArg Node.name h
  exact hnamed u hu v hv hname

include hdecl

theorem nodes_untagged : g.untagged.nodes = g.nodes.map Node.untagged := by
  have hnodes := eraseDups_append_memories hdecl
  have hoccurrences : g.untagged.occurrences =
      (g.operations.flatMap Operation.operands ++ g.memories).map Node.untagged := by
    rw [occurrences, untagged, List.map_append, List.map_flatMap, List.flatMap_map]
    rfl
  have hinj : ∀ u ∈ g.operations.flatMap Operation.operands ++ g.memories,
      ∀ v ∈ g.operations.flatMap Operation.operands ++ g.memories,
        u.untagged = v.untagged → u = v := by
    intro u hu v hv
    rw [← List.mem_eraseDups, hnodes] at hu hv
    exact untagged_injOn hnamed u hu v hv
  rw [nodes, hoccurrences, eraseDups_map _ _ hinj, hnodes]

theorem outline_untagged : g.untagged.outline = g.outline := by
  have hnodes := nodes_untagged hnamed hdecl
  have hplace (v : Node) (hv : v ∈ g.nodes) :
      (g.nodes.map Node.untagged).idxOf v.untagged = g.nodes.idxOf v :=
    idxOf_map fun u hu => untagged_injOn hnamed u hu v hv
  have hshape (op : Operation) (hop : op ∈ g.operations) :
      op.untagged.shape (g.nodes.map Node.untagged) = op.shape g.nodes := by
    have hoperand (v : Node) (hv : v ∈ op.operands) : v ∈ g.nodes :=
      mem_nodes.2 (.inl ⟨op, hop, hv⟩)
    have hsources : (op.sources.map Node.untagged).map (g.nodes.map Node.untagged).idxOf =
        op.sources.map g.nodes.idxOf := by
      rw [List.map_map]
      exact List.map_congr_left fun v hv => hplace v (hoperand v (List.mem_cons_of_mem _ hv))
    rw [Operation.shape, Operation.untagged, hplace _ (hoperand _ List.mem_cons_self), hsources]
    rfl
  have hops : (g.operations.map Operation.untagged).map
      (Operation.shape (g.nodes.map Node.untagged)) =
        g.operations.map (Operation.shape g.nodes) := by
    rw [List.map_map]
    exact List.map_congr_left hshape
  have htwice : (g.nodes.map Node.untagged).map Node.untagged = g.nodes.map Node.untagged := by
    rw [List.map_map]
    rfl
  rw [outline, outline, hnodes, htwice]
  exact congrArg _ hops

theorem print_untagged : g.untagged.print = g.print := by
  have hmemories : g.untagged.memories = g.memories.map Node.untagged := by
    rw [memories, nodes_untagged hnamed hdecl, List.filter_map]
    rfl
  have hops : g.untagged.operations.flatMap operationLine = g.operations.flatMap operationLine := by
    rw [untagged, List.flatMap_map]
    exact List.flatMap_congr fun op _ => congrArg (· ++ _) op.text_untagged
  rw [print, print, hmemories, hops, List.flatMap_map]
  rfl

end Untagged

end Graph

end Netlist
