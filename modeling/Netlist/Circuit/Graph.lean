import Netlist.Circuit.Operation

/-!
# Circuits

A circuit is a list of operations, together with nodes that are declared and belong to it even where
no operation mentions them. Its nodes are listed in the order in which they first occur: destination
and sources of each operation, then the declared ones. A name stands for the first node that has it.

An `Index` is what a single pass collects to answer both questions, a list of the nodes that have
been seen and a table of names that grow together.

In a circuit with single assignment no two operations have the same destination; then `producer?` is
the operation that defines a node.

A circuit that is made from another one keeps count of the tags that were in use there. A node that
is made for a circuit takes a later tag, so it differs from every node of the circuits before.
-/

namespace Netlist

structure Graph where
  operations : List Operation := []
  declared : List Node := []
  /-- The last tag in use in the circuits that this one was made from. -/
  generation : Nat := 0
  deriving DecidableEq, Repr

/-- The first element of a list that occurs before it, in the list or among those already seen. -/
def firstRepeat? {α : Type} [DecidableEq α] (seen : List α) : List α → Option α
  | [] => none
  | a :: l => if a ∈ seen then some a else firstRepeat? (a :: seen) l

theorem nodup_eraseDups {α : Type} [DecidableEq α] (l : List α) : l.eraseDups.Nodup := by
  match l with
  | [] => simp
  | a :: l =>
    rw [List.eraseDups_cons, List.nodup_cons]
    exact ⟨by simp, nodup_eraseDups _⟩
termination_by l.length
decreasing_by exact Nat.lt_succ_of_le (List.length_filter_le _ l)

namespace Graph

def empty : Graph := {}

def add (g : Graph) (op : Operation) : Graph := { g with operations := g.operations ++ [op] }

def declare (g : Graph) (v : Node) : Graph := { g with declared := g.declared ++ [v] }

def size (g : Graph) : Nat := g.operations.length

/-- The nodes of a circuit at every place where they occur. -/
def occurrences (g : Graph) : List Node := g.operations.flatMap Operation.operands ++ g.declared

def nodes (g : Graph) : List Node := g.occurrences.eraseDups

/-- The last tag in use in a circuit and those that it was made from. -/
def lastTag (g : Graph) : Nat := g.occurrences.foldl (fun n v => max n v.tag) g.generation

def memories (g : Graph) : List Node := g.nodes.filter Node.isMemory

def lookup? (g : Graph) (name : Text) : Option Node := g.nodes.find? (·.name = name)

def hasName (g : Graph) (name : Text) : Bool := (g.lookup? name).isSome

def producer? (g : Graph) (v : Node) : Option Operation := g.operations.find? (·.dest = v)

/-- The first destination that an earlier operation has already defined. -/
def redefined? (g : Graph) : Option Node := firstRepeat? [] (g.operations.map Operation.dest)

/-- Fails at the first operation whose destination is already defined. -/
def singleAssignment (g : Graph) : Except Error Unit :=
  match g.redefined? with
  | some v => .error (.invariant ⟨"graph", v.name, .redefined⟩)
  | none => .ok ()

def text (g : Graph) : Text :=
  "Graph \x7b\n" ++ Text.join "\n" (g.operations.map ("    " ++ ·.text)) ++ "\n\x7d"

theorem mem_nodes {g : Graph} {v : Node} :
    v ∈ g.nodes ↔ (∃ op ∈ g.operations, v ∈ op.operands) ∨ v ∈ g.declared := by
  simp [nodes, occurrences]

theorem nodup_nodes (g : Graph) : g.nodes.Nodup := nodup_eraseDups _

end Graph

/-- What a pass over nodes has collected: those that it has seen and, for each of their names, the
node that the name stands for. -/
structure Index where
  nodes : List Node := []
  names : List (Text × Node) := []

namespace Index

def lookup? (ix : Index) (name : Text) : Option Node := ix.names.lookup name

/-- Passes over a node that has been seen. Another one is put at the end, and its name stands for it
unless it stands for a node already. -/
def note (ix : Index) (v : Node) : Index :=
  if v ∈ ix.nodes then ix
  else
    { nodes := ix.nodes ++ [v]
      names := if (ix.lookup? v.name).isSome then ix.names else (v.name, v) :: ix.names }

def noteOperation (ix : Index) (op : Operation) : Index := op.sources.foldl note (ix.note op.dest)

def ofGraph (g : Graph) : Index :=
  g.declared.foldl note (g.operations.foldl noteOperation {})

end Index

end Netlist
