import Netlist.Circuit.Graph
import Netlist.Search

/-!
# Connected components

Every operation has an edge from each of its sources to its destination. Some of the edges are
accepted, and the nodes of a circuit fall into the components that the accepted edges connect,
whatever their direction. A component is grown breadth-first from the first node that lies in none
before it; its operations are those whose destination it holds.

Whoever decides which edges are accepted is asked once about each edge, in the order of the
operations and of their sources. The answers may have effects: `componentsM` runs them in any monad.
-/

namespace Netlist

structure Edge where
  operation : Operation
  source : Node
  deriving DecidableEq, Repr

namespace Edge

def dest (e : Edge) : Node := e.operation.dest

end Edge

structure Component where
  nodes : List Node
  operations : List Operation
  deriving DecidableEq, Repr

/-- The nodes at the other ends of a node's edges: first the sources of those that lead to it, then
the destinations of those that leave it. -/
def neighbours (edges : List Edge) (v : Node) : List Node :=
  (edges.filter (·.dest = v)).map Edge.source ++ (edges.filter (·.source = v)).map Edge.dest

/-- The component that a node has been placed in. -/
def placement? (placed : List (List Node)) (v : Node) : Option Nat :=
  placed.findIdx? (v ∈ ·)

/-- Grows components from the seeds that lie in none yet. -/
def growAll (nodes : List Node) (edges : List Edge) :
    (placed : List (List Node)) → (seeds : List Node) → Except Error (List (List Node))
  | placed, [] => .ok placed
  | placed, seed :: seeds =>
    if (placement? placed seed).isSome then growAll nodes edges placed seeds
    else
      let grown := explore (neighbours edges) nodes [seed]
      match grown.findSome? fun v => (placement? placed v).map fun id => (v, id) with
      | some (v, id) =>
        .error (.invariant ⟨"components", v.name, .crossing seed.name placed.length id⟩)
      | none => growAll nodes edges (placed ++ [grown]) seeds

/-- The number of the component that holds a node. -/
def componentOf? (components : List Component) (v : Node) : Option Nat :=
  placement? (components.map Component.nodes) v

namespace Graph

def edges (g : Graph) : List Edge := g.operations.flatMap fun op => op.sources.map fun v => ⟨op, v⟩

/-- The components that the given edges connect. -/
def componentsOf (g : Graph) (accepted : List Edge) : Except Error (List Component) := do
  g.singleAssignment
  let placed ← growAll g.nodes accepted [] g.nodes
  match g.operations.find? fun op => (placement? placed op.dest).isNone with
  | some op => .error (.invariant ⟨"components", op.dest.name, .unplaced⟩)
  | none => return placed.map fun nodes => ⟨nodes, g.operations.filter (·.dest ∈ nodes)⟩

def components (g : Graph) (accepts : Edge → Bool) : Except Error (List Component) :=
  g.componentsOf (g.edges.filter accepts)

def componentsM {m : Type → Type} [Monad m] (g : Graph) (accepts : Edge → m Bool) :
    m (Except Error (List Component)) := do
  return g.componentsOf (← g.edges.filterM accepts)

end Graph

end Netlist
