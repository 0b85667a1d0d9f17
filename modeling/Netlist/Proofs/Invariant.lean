import Mathlib
import Netlist.Pipeline.Pass
import Netlist.Proofs.Balance
import Netlist.Proofs.Copies
import Netlist.Proofs.Liveness
import Netlist.Proofs.Stated

/-!
# An invariant of all passes

A circuit is `Wellformed` if it has single assignment, its nodes have different names, its
operations are as wide as what they define, and they define wires only. Circuits that were read are
well-formed, because a name determines its node.

Balancing adds nodes. The names of its temporaries differ from one another and from all names in the
circuit, and a tree and the copy of its root are as wide as their destinations. The other passes add
no nodes. So every pass of the optimizer keeps the invariant, and the passes can be applied in any
order and any number of times.
-/

namespace Netlist

variable {g r d : Graph} {u v : Node}

namespace Graph

structure Wellformed (g : Graph) : Prop where
  assigned : g.singleAssignment = .ok ()
  named : ∀ u ∈ g.nodes, ∀ v ∈ g.nodes, u.name = v.name → u = v
  width_eq : ∀ op ∈ g.operations, op.width = op.dest.width
  produced : ∀ op ∈ g.operations, isGiven op.dest = false

theorem wellformed_of_parse {t : Text} (h : parse t = .ok g) : g.Wellformed := by
  have hparsed := parsed_of_parse h
  obtain ⟨sts, hs⟩ := exists_stated h
  refine ⟨singleAssignment_eq_ok.2 hparsed.assigned, fun u hu v hv => hs.eq_of_name_eq hu hv, ?_,
    hparsed.produced⟩
  intro op hop
  rw [hs.dest op hop]
  rfl

theorem Pruning.wellformed (h : g.Pruning d) (hg : g.Wellformed) : d.Wellformed where
  assigned := singleAssignment_eq_ok.2 h.assigned_result
  named u hu v hv := hg.named u (h.nodes_subset hu) v (h.nodes_subset hv)
  width_eq op hop := hg.width_eq op (h.subset hop)
  produced op hop := hg.produced op (h.subset hop)

theorem Eliding.wellformed (h : g.Eliding r) (hg : g.Wellformed) : r.Wellformed where
  assigned := singleAssignment_eq_ok.2 (h.assigned (singleAssignment_eq_ok.1 hg.assigned))
  named u hu v hv := hg.named u (h.nodes_subset hu) v (h.nodes_subset hv)
  width_eq op hop := by
    obtain ⟨p, hp, -, rfl⟩ := h.mem_result.1 hop
    exact hg.width_eq p hp
  produced op hop := by
    obtain ⟨p, hp, -, rfl⟩ := h.mem_result.1 hop
    exact hg.produced p hp

end Graph

namespace Bitwise.Balancing

variable {b : Bitwise} {kept : List Operation} {rewrites : List Rewrite}
  (h : Balancing b g r kept rewrites)

include h

theorem temporary_name_ne (ht : u ∈ (b.trees rewrites).map Operation.dest) (hv : v ∈ g.nodes) :
    u.name ≠ v.name := by
  intro hname
  rw [map_dest_trees] at ht
  apply h.fresh.untaken u ht
  rw [hname]
  exact List.mem_map_of_mem hv

theorem temporary_eq_of_name_eq (hu : u ∈ (b.trees rewrites).map Operation.dest)
    (hv : v ∈ (b.trees rewrites).map Operation.dest) (hname : u.name = v.name) : u = v := by
  rw [map_dest_trees] at hu hv
  exact List.inj_on_of_nodup_map h.fresh.nodup hu hv hname

theorem wellformed (hg : g.Wellformed) : r.Wellformed where
  assigned := Graph.singleAssignment_eq_ok.2 h.assigned_result
  named u hu v hv hname := by
    rcases h.mem_nodes_or_temporary hu with hu | hu
    · rcases h.mem_nodes_or_temporary hv with hv | hv
      · exact hg.named u hu v hv hname
      · exact absurd hname.symm (h.temporary_name_ne hv hu)
    · rcases h.mem_nodes_or_temporary hv with hv | hv
      · exact absurd hname (h.temporary_name_ne hu hv)
      · exact h.temporary_eq_of_name_eq hu hv hname
  width_eq op hop := by
    rcases h.mem_result.1 hop with hop | hop | ⟨w, hw, rfl⟩
    · exact hg.width_eq op (h.mem_operations.2 (.inl hop))
    · obtain ⟨w, -, hop⟩ := List.mem_flatMap.1 hop
      obtain ⟨t, x, y, rfl⟩ := eq_pair_of_mem_combine hop
      rfl
    · exact hg.width_eq w.operation (mem_within.1 (h.rewritten hw)).1
  produced := h.isGiven_dest hg.produced

end Bitwise.Balancing

namespace Pass

/-- The passes that the optimizer is made of. -/
inductive IsStandard : Pass Id → Prop
  | balance (b : Bitwise) : IsStandard b.pass
  | deadCode : IsStandard .deadCode
  | copies : IsStandard .copies

theorem IsStandard.wellformed {p : Pass Id} (hp : p.IsStandard) (hg : g.Wellformed)
    (h : (p.apply g).run = .ok r) : r.Wellformed := by
  cases hp with
  | balance b =>
    obtain ⟨kept, rewrites, hb⟩ := Bitwise.exists_balancing h
    exact hb.wellformed hg
  | deadCode => exact (Graph.pruning_of_eliminateDeadCode h).wellformed hg
  | copies => exact (Graph.eliding_of_eliminateCopies h).wellformed hg

theorem wellformed_of_foldlM {passes : List (Pass Id)} (hpasses : ∀ p ∈ passes, p.IsStandard)
    (hg : g.Wellformed) (h : passes.foldlM (fun g p => (p.apply g).run) g = .ok r) :
    r.Wellformed := by
  refine (foldlM_invariant (I := fun rest s => (∀ p ∈ rest, p.IsStandard) ∧ s.Wellformed) ?_
    ⟨hpasses, hg⟩ h).2
  rintro p rest s s' ⟨hrest, hs⟩ hs'
  obtain ⟨hp, hrest⟩ := List.forall_mem_cons.1 hrest
  exact ⟨hrest, hp.wellformed hs hs'⟩

/-- Circuits that are read are well-formed, and so is every circuit on the way when passes of the
optimizer are applied to a well-formed circuit, in any order and any number of times. -/
theorem passes_keep_wellformed :
    (∀ (t : Text) (g : Graph), Graph.parse t = .ok g → g.Wellformed) ∧
      ∀ (g : Graph) (passes : List (Pass Id)), g.Wellformed → (∀ p ∈ passes, p.IsStandard) →
        ∀ (n : ℕ) (r : Graph), (passes.take n).foldlM (fun g p => (p.apply g).run) g = .ok r →
          r.Wellformed := by
  refine ⟨fun t g => Graph.wellformed_of_parse, ?_⟩
  intro g passes hg hpasses n r hr
  exact wellformed_of_foldlM (fun p hp => hpasses p (List.mem_of_mem_take hp)) hg hr

end Pass

namespace Graph

/-- A sum with an input that is named like a temporary. -/
def crowdedText : Text :=
  "# sum\nx = out'8 v\r\nm = mem'08 16\né = rd'8 1 m\tOPT1_0\n\nOPT1_0 = in'8\n" ++
    "t = xor'8 OPT1_0 5\n u = xor'8 é  t\nv = xor'8 u 5"

def crowded : Graph where
  operations :=
    [⟨⟨"x", 8, .wire, 0⟩, 8, .output, [⟨"v", 8, .wire, 0⟩]⟩,
      ⟨⟨"é", 8, .wire, 0⟩, 8, .rd,
        [⟨"1", 1, .constant, 0⟩, ⟨"m", 8, .memory 16, 0⟩, ⟨"OPT1_0", 8, .wire, 0⟩]⟩,
      ⟨⟨"OPT1_0", 8, .wire, 0⟩, 8, .input, []⟩,
      ⟨⟨"t", 8, .wire, 0⟩, 8, .xor, [⟨"OPT1_0", 8, .wire, 0⟩, ⟨"5", 3, .constant, 0⟩]⟩,
      ⟨⟨"u", 8, .wire, 0⟩, 8, .xor, [⟨"é", 8, .wire, 0⟩, ⟨"t", 8, .wire, 0⟩]⟩,
      ⟨⟨"v", 8, .wire, 0⟩, 8, .xor, [⟨"u", 8, .wire, 0⟩, ⟨"5", 3, .constant, 0⟩]⟩]
  declared := [⟨"m", 8, .memory 16, 0⟩]

theorem parse_crowdedText : parse crowdedText = .ok crowded := by cbv

end Graph

namespace Pass

/-- The sum after it has been balanced twice. -/
def rebalanced : Graph where
  operations :=
    [⟨⟨"x", 8, .wire, 0⟩, 8, .output, [⟨"OPT1_1", 8, .wire, 1⟩]⟩,
      ⟨⟨"OPT1_1", 8, .wire, 1⟩, 8, .mov, [⟨"OPT1_2", 8, .wire, 2⟩]⟩,
      ⟨⟨"OPT1_2", 8, .wire, 2⟩, 8, .xor, [⟨"é", 8, .wire, 0⟩, ⟨"OPT1_0", 8, .wire, 0⟩]⟩,
      ⟨⟨"é", 8, .wire, 0⟩, 8, .rd,
        [⟨"1", 1, .constant, 0⟩, ⟨"m", 8, .memory 16, 0⟩, ⟨"OPT1_0", 8, .wire, 0⟩]⟩,
      ⟨⟨"OPT1_0", 8, .wire, 0⟩, 8, .input, []⟩]
  declared := [⟨"m", 8, .memory 16, 0⟩]
  generation := 2

theorem crowded_stays_wellformed :
    let passes : List (Pass Id) := [Bitwise.xor.pass, .copies, Bitwise.xor.pass, .deadCode]
    Graph.parse Graph.crowdedText = .ok Graph.crowded ∧ Graph.crowded.Wellformed ∧
      passes.foldlM (fun g p => (p.apply g).run) Graph.crowded = .ok rebalanced ∧
      rebalanced.Wellformed := by
  intro passes
  have hrun : passes.foldlM (fun g p => (p.apply g).run) Graph.crowded = .ok rebalanced := by cbv
  have hpasses : ∀ p ∈ passes, p.IsStandard := by
    simp only [passes, List.forall_mem_cons]
    exact ⟨.balance _, .copies, .balance _, .deadCode, by simp⟩
  obtain ⟨hread, hkeep⟩ := passes_keep_wellformed
  have hg := hread _ _ Graph.parse_crowdedText
  exact ⟨Graph.parse_crowdedText, hg, hrun,
    hkeep Graph.crowded passes hg hpasses 4 rebalanced hrun⟩

end Pass

end Netlist
