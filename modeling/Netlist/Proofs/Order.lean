import Mathlib.Data.Set.Card
import Mathlib.Logic.Relation
import Netlist.Circuit.Operation

/-!
# Dependence of nodes on one another

A destination depends on the sources of its operation. `Acyclic` says that no node depends on
itself, through however many operations. This holds exactly if the nodes can be ranked so that every
source has a smaller rank than the destination; the rank of a node may be taken to be the number of
nodes that it depends on.
-/

namespace Netlist

open Relation

variable {ops ops' : List Operation} {v u : Node}

def DependsOn (ops : List Operation) (v u : Node) : Prop :=
  ∃ op ∈ ops, op.dest = v ∧ u ∈ op.sources

def Acyclic (ops : List Operation) : Prop := ∀ v, ¬TransGen (DependsOn ops) v v

/-- The nodes are ranked so that each operation leads upwards. -/
def Ranked {β : Type} [Preorder β] (rank : Node → β) (ops : List Operation) : Prop :=
  ∀ op ∈ ops, ∀ v ∈ op.sources, rank v < rank op.dest

theorem Ranked.lt {β : Type} [Preorder β] {rank : Node → β} (h : Ranked rank ops)
    (hvu : TransGen (DependsOn ops) v u) : rank u < rank v := by
  induction hvu with
  | single hd =>
    obtain ⟨op, hop, rfl, hu⟩ := hd
    exact h op hop _ hu
  | tail _ hd ih =>
    obtain ⟨op, hop, rfl, hu⟩ := hd
    exact (h op hop _ hu).trans ih

theorem Ranked.acyclic {β : Type} [Preorder β] {rank : Node → β} (h : Ranked rank ops) :
    Acyclic ops := fun _ hv => lt_irrefl _ (h.lt hv)

namespace Acyclic

theorem of_dependsOn (h : Acyclic ops)
    (hs : ∀ v u, DependsOn ops' v u → TransGen (DependsOn ops) v u) : Acyclic ops' :=
  fun v hv => h v (TransGen.closed hs _ _ hv)

theorem of_subset (h : Acyclic ops) (hs : ops' ⊆ ops) : Acyclic ops' :=
  h.of_dependsOn fun _ _ ⟨op, hop, hd, hu⟩ => .single ⟨op, hs hop, hd, hu⟩

theorem exists_rank (h : Acyclic ops) : ∃ rank : Node → ℕ, Ranked rank ops := by
  have hfin (v : Node) : {u | TransGen (DependsOn ops) v u}.Finite := by
    apply (List.finite_toSet (ops.flatMap Operation.sources)).subset
    intro u hu
    obtain ⟨w, _, op, hop, _, hw⟩ := TransGen.tail'_iff.1 hu
    exact List.mem_flatMap.2 ⟨op, hop, hw⟩
  refine ⟨fun v => {u | TransGen (DependsOn ops) v u}.ncard, ?_⟩
  intro op hop v hv
  have hd : DependsOn ops op.dest v := ⟨op, hop, rfl, hv⟩
  apply Set.ncard_lt_ncard _ (hfin op.dest)
  refine ⟨fun u hu => TransGen.head hd hu, ?_⟩
  intro hsub
  exact h v (hsub (TransGen.single hd))

end Acyclic

end Netlist
