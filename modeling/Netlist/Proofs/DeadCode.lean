import Mathlib
import Netlist.Proofs.Live

/-!
# Dead code elimination is exact and idempotent

Provided that operations define wires only, dead code elimination fails in two cases: a node is
defined twice, or a live operation reads a wire that nothing produces. Otherwise it keeps the live
operations and the memories that they read, and nothing else.

The operations are left in the order in which the search meets them. A second elimination starts
from the outputs in this new order. It meets the same nodes in the same order, because an output
that was met on the way from another one has no live node of its own. So it leaves the circuit as it
is.
-/

namespace Netlist.Graph

variable {g d r : Graph} {op : Operation} {v : Node}

/-- A live operation reads a wire that no operation produces. -/
def ReadsUnproduced (g : Graph) : Prop :=
  ∃ op, g.Live op ∧ ∃ v ∈ op.sources, isGiven v = false ∧ ∀ p ∈ g.operations, p.dest ≠ v

theorem exists_eliminateDeadCode_iff_produced
    (hg : ∀ op ∈ g.operations, isGiven op.dest = false) :
    (∃ d, g.eliminateDeadCode = .ok d) ↔
      SingleAssignment g.operations ∧ ¬g.ReadsUnproduced := by
  rw [exists_eliminateDeadCode_iff]
  refine and_congr_right fun hs => ?_
  constructor
  · rintro hproduced ⟨op, hlive, v, hv, hgiven, hno⟩
    have hmem : v ∈ g.liveNodes :=
      (mem_liveNodes_iff hs hg).2 ⟨op, hlive, List.mem_cons_of_mem _ hv⟩
    rcases hproduced v hmem with hyes | ⟨p, hp, hd⟩
    · rw [hgiven] at hyes
      cases hyes
    · exact hno p hp hd
  · intro hno v hv
    obtain ⟨op, hlive, hv⟩ := (mem_liveNodes_iff hs hg).1 hv
    rcases List.mem_cons.1 hv with rfl | hv
    · exact .inr ⟨op, hlive.mem, rfl⟩
    · by_contra hneither
      obtain ⟨hgiven, hproduced⟩ := not_or.1 hneither
      exact hno ⟨op, hlive, v, hv, by simpa using hgiven, fun p hp hd => hproduced ⟨p, hp, hd⟩⟩

theorem mem_memories_of_eliminateDeadCode (hg : ∀ op ∈ g.operations, isGiven op.dest = false)
    (h : g.eliminateDeadCode = .ok d) :
    v ∈ d.memories ↔ v.isMemory = true ∧ ∃ op, g.Live op ∧ v ∈ op.sources := by
  have hp := pruning_of_eliminateDeadCode h
  obtain ⟨hs, -, -, hdeclared, -⟩ := eliminateDeadCode_eq_ok.1 h
  rw [memories, List.mem_filter, and_comm]
  refine and_congr_right fun hmemory => ?_
  have hread (hv : ∃ op, g.Live op ∧ v ∈ op.operands) : ∃ op, g.Live op ∧ v ∈ op.sources := by
    obtain ⟨op, hlive, hv⟩ := hv
    rcases List.mem_cons.1 hv with rfl | hv
    · have hgiven := hg op hlive.mem
      rw [isGiven, hmemory, Bool.or_true] at hgiven
      cases hgiven
    · exact ⟨op, hlive, hv⟩
  constructor
  · intro hv
    apply hread
    rcases mem_nodes.1 hv with ⟨op, hop, hv⟩ | hv
    · exact ⟨op, (hp.mem_iff_live hg).1 hop, hv⟩
    · rw [hdeclared] at hv
      exact (mem_liveNodes_iff hs hg).1 (List.mem_of_mem_filter hv)
  · rintro ⟨op, hlive, hv⟩
    exact source_mem_nodes ((hp.mem_iff_live hg).2 hlive) hv

/-- Dead code elimination fails exactly if a node is defined twice or a live operation reads a wire
that nothing produces. Otherwise it keeps each live operation once, and the memories that these
read, and the circuit that is left is closed. -/
theorem dead_code_elimination_is_exact (hg : ∀ op ∈ g.operations, isGiven op.dest = false) :
    ((∃ e, g.eliminateDeadCode = .error e) ↔
        ¬SingleAssignment g.operations ∨ g.ReadsUnproduced) ∧
      (SingleAssignment g.operations → ¬g.ReadsUnproduced →
        ∃ d, g.eliminateDeadCode = .ok d ∧ d.operations.Nodup ∧
          (∀ op, op ∈ d.operations ↔ g.Live op) ∧
          (∀ v, v ∈ d.memories ↔ v.isMemory = true ∧ ∃ op, g.Live op ∧ v ∈ op.sources) ∧
          d.closed = .ok ()) := by
  have hok := exists_eliminateDeadCode_iff_produced hg
  constructor
  · have hfails : (∃ e, g.eliminateDeadCode = .error e) ↔ ¬∃ d, g.eliminateDeadCode = .ok d := by
      cases g.eliminateDeadCode <;> simp
    rw [hfails, hok, not_and_or, not_not]
  · intro hs hno
    obtain ⟨d, hd⟩ := hok.2 ⟨hs, hno⟩
    have hp := pruning_of_eliminateDeadCode hd
    exact ⟨d, hd, hp.assigned_result.nodup, fun op => hp.mem_iff_live hg,
      fun v => mem_memories_of_eliminateDeadCode hg hd, hp.closed⟩

/-- An output that another one depends on, a register in a loop, an operation and a memory that
nothing depends on. -/
def entwined : Graph where
  operations :=
    [⟨⟨"a", 8, .wire, 0⟩, 8, .input, []⟩,
      ⟨⟨"x", 8, .wire, 0⟩, 8, .output, [⟨"t", 8, .wire, 0⟩]⟩,
      ⟨⟨"w", 8, .wire, 0⟩, 8, .output, [⟨"a", 8, .wire, 0⟩]⟩,
      ⟨⟨"y", 8, .wire, 0⟩, 8, .output, [⟨"s", 8, .wire, 0⟩]⟩,
      ⟨⟨"t", 8, .wire, 0⟩, 8, .and, [⟨"y", 8, .wire, 0⟩, ⟨"r", 8, .wire, 0⟩]⟩,
      ⟨⟨"r", 8, .wire, 0⟩, 8, .reg, [⟨"t", 8, .wire, 0⟩]⟩,
      ⟨⟨"s", 8, .wire, 0⟩, 8, .rd,
        [⟨"1", 1, .constant, 0⟩, ⟨"m", 8, .memory 16, 0⟩, ⟨"a", 8, .wire, 0⟩]⟩,
      ⟨⟨"z", 8, .wire, 0⟩, 8, .not, [⟨"a", 8, .wire, 0⟩]⟩]
  declared := [⟨"m", 8, .memory 16, 0⟩, ⟨"n", 8, .memory 4, 0⟩]

def entwinedKept : Graph where
  operations :=
    [⟨⟨"x", 8, .wire, 0⟩, 8, .output, [⟨"t", 8, .wire, 0⟩]⟩,
      ⟨⟨"t", 8, .wire, 0⟩, 8, .and, [⟨"y", 8, .wire, 0⟩, ⟨"r", 8, .wire, 0⟩]⟩,
      ⟨⟨"y", 8, .wire, 0⟩, 8, .output, [⟨"s", 8, .wire, 0⟩]⟩,
      ⟨⟨"r", 8, .wire, 0⟩, 8, .reg, [⟨"t", 8, .wire, 0⟩]⟩,
      ⟨⟨"s", 8, .wire, 0⟩, 8, .rd,
        [⟨"1", 1, .constant, 0⟩, ⟨"m", 8, .memory 16, 0⟩, ⟨"a", 8, .wire, 0⟩]⟩,
      ⟨⟨"a", 8, .wire, 0⟩, 8, .input, []⟩,
      ⟨⟨"w", 8, .wire, 0⟩, 8, .output, [⟨"a", 8, .wire, 0⟩]⟩]
  declared := [⟨"m", 8, .memory 16, 0⟩]

theorem eliminateDeadCode_entwined : entwined.eliminateDeadCode = .ok entwinedKept := by cbv

/-- The circuit without its input. -/
def unfed : Graph := { entwined with operations := entwined.operations.tail }

theorem entwined_elimination_is_exact :
    (∀ op ∈ entwined.operations, isGiven op.dest = false) ∧
      (∃ d, entwined.eliminateDeadCode = .ok d ∧ d.operations.Nodup ∧
        (∀ op, op ∈ d.operations ↔ entwined.Live op) ∧
        (∀ v, v ∈ d.memories ↔
          v.isMemory = true ∧ ∃ op, entwined.Live op ∧ v ∈ op.sources) ∧
        d.closed = .ok ()) ∧
      (∀ op ∈ unfed.operations, isGiven op.dest = false) ∧
      unfed.eliminateDeadCode = .error (.invariant ⟨deadCodeName, "a", .unproduced⟩) ∧
      unfed.ReadsUnproduced := by
  have hg : ∀ op ∈ entwined.operations, isGiven op.dest = false := by decide
  have hg' : ∀ op ∈ unfed.operations, isGiven op.dest = false := by decide
  obtain ⟨hfails, hkeeps⟩ := dead_code_elimination_is_exact hg
  have hsound := hfails.not.1 (by rw [eliminateDeadCode_entwined]; simp)
  obtain ⟨hs, hread⟩ := not_or.1 hsound
  have herror : unfed.eliminateDeadCode =
      .error (.invariant ⟨deadCodeName, "a", .unproduced⟩) := by cbv
  have hs' : SingleAssignment unfed.operations := by
    unfold SingleAssignment
    decide
  have hunfed := (dead_code_elimination_is_exact hg').1.1 ⟨_, herror⟩
  exact ⟨hg, hkeeps (not_not.1 hs) hread, hg', herror, hunfed.resolve_left (not_not.2 hs')⟩

theorem dependencies_dest (hs : SingleAssignment g.operations) (hop : op ∈ g.operations)
    (hg : isGiven op.dest = false) : g.dependencies op.dest = op.sources := by
  rw [dependencies, ← isGiven, hg, (producer?_eq_some hs).2 ⟨hop, rfl⟩]
  rfl

theorem sealed_nodes (hs : SingleAssignment g.operations) : Sealed g.dependencies g.nodes := by
  intro v hv u hu
  obtain ⟨-, op, hop, rfl, -⟩ := (mem_dependencies hs).1 hu
  exact absurd (dest_mem_nodes hop) hv

theorem map_operands_outputs (hs : SingleAssignment g.operations)
    (hg : ∀ op ∈ g.operations, isGiven op.dest = false) :
    g.outputs.map Operation.operands =
      (g.outputs.map Operation.dest).map (withNext g.dependencies) := by
  rw [List.map_map]
  apply List.map_congr_left
  intro op hop
  have hmem := (mem_outputs.1 hop).1
  rw [Function.comp_apply, withNext, dependencies_dest hs hmem (hg op hmem), Operation.operands]

namespace Pruning

variable (h : g.Pruning d) (hg : ∀ op ∈ g.operations, isGiven op.dest = false)

include h hg

theorem isGiven_dest : ∀ op ∈ d.operations, isGiven op.dest = false :=
  fun op hop => hg op (h.subset hop)

theorem mem_nodes_of_mem_liveNodes (hv : v ∈ g.liveNodes) : v ∈ d.nodes := by
  obtain ⟨op, hlive, hv⟩ := (mem_liveNodes_iff h.assigned hg).1 hv
  exact mem_nodes.2 (.inl ⟨op, (h.mem_iff_live hg).2 hlive, hv⟩)

theorem dependencies_eq (hv : v ∈ g.liveNodes) : g.dependencies v = d.dependencies v := by
  rcases h.produced v hv with hgiven | ⟨op, hop, rfl⟩
  · rw [dependencies, dependencies, ← isGiven, hgiven, if_pos rfl, if_pos rfl]
  · have hop' : op ∈ d.operations := h.mem_result.2 ⟨hop, hg op hop, hv⟩
    rw [dependencies_dest h.assigned hop (hg op hop),
      dependencies_dest h.assigned_result hop' (hg op hop)]

end Pruning

/-- The outputs that are left stand in the order in which the search has met them. -/
theorem dest_outputs_of_eliminateDeadCode (hg : ∀ op ∈ g.operations, isGiven op.dest = false)
    (h : g.eliminateDeadCode = .ok d) :
    d.outputs.map Operation.dest =
      g.liveNodes.filter fun v => decide (v ∈ g.outputs.map Operation.dest) := by
  obtain ⟨hs, hsub, hdest, -⟩ := eliminateDeadCode_eq_ok.1 h
  have hcode (op : Operation) (hop : op ∈ d.operations) : decide (op.opcode = .output) =
      decide (op.dest ∈ g.outputs.map Operation.dest) := by
    rw [decide_eq_decide, List.mem_map]
    constructor
    · exact fun hout => ⟨op, mem_outputs.2 ⟨hsub hop, hout⟩, rfl⟩
    · rintro ⟨p, hp, hd⟩
      obtain ⟨hmem, hout⟩ := mem_outputs.1 hp
      rwa [hs.eq_of_dest_eq (hsub hop) hmem hd.symm]
  have hwire (v : Node) (hv : v ∈ g.outputs.map Operation.dest) : isGiven v = false := by
    obtain ⟨p, hp, rfl⟩ := List.mem_map.1 hv
    exact hg p (mem_outputs.1 hp).1
  calc d.outputs.map Operation.dest
      = (d.operations.filter fun op => decide (op.dest ∈ g.outputs.map Operation.dest)).map
          Operation.dest := by rw [outputs, List.filter_congr hcode]
    _ = (d.operations.map Operation.dest).filter fun v =>
          decide (v ∈ g.outputs.map Operation.dest) := by rw [List.filter_map]; rfl
    _ = g.liveNodes.filter fun v => decide (v ∈ g.outputs.map Operation.dest) := by
        rw [hdest, List.filter_filter]
        apply List.filter_congr
        intro v _
        by_cases hv : v ∈ g.outputs.map Operation.dest
        · simp [hv, hwire v hv]
        · simp [hv]

theorem liveNodes_of_eliminateDeadCode (hg : ∀ op ∈ g.operations, isGiven op.dest = false)
    (h : g.eliminateDeadCode = .ok d) : d.liveNodes = g.liveNodes := by
  have hp := pruning_of_eliminateDeadCode h
  have hs := hp.assigned
  have hclosed (v : Node) (hv : v ∈ g.liveNodes) : ∀ u ∈ g.dependencies v, u ∈ g.liveNodes := by
    intro u hu
    obtain ⟨-, op, hop, -, hsource⟩ := (mem_dependencies hs).1 hu
    exact exploreAll_closed hv hu (source_mem_nodes hop hsource)
  have hstarts : ∀ start ∈ d.outputs.map Operation.operands, ∀ v ∈ start, v ∈ g.liveNodes := by
    intro start hstart v hv
    obtain ⟨op, hop, rfl⟩ := List.mem_map.1 hstart
    exact mem_liveNodes_of_mem_outputs (hp.mem_outputs_iff.1 hop).1 hv
  have hmem (v : Node) (hv : v ∈ g.liveNodes) : v ∈ g.nodes ↔ v ∈ d.nodes :=
    iff_of_true (mem_of_mem_exploreAll hv) (hp.mem_nodes_of_mem_liveNodes hg hv)
  calc d.liveNodes
      = exploreAll g.dependencies g.nodes (d.outputs.map Operation.operands) :=
        (exploreAll_congr hclosed (fun v hv => hp.dependencies_eq hg hv) g.nodup_nodes d.nodup_nodes
          hmem hstarts).symm
    _ = exploreAll g.dependencies g.nodes
          ((g.liveNodes.filter fun v => decide (v ∈ g.outputs.map Operation.dest)).map
            (withNext g.dependencies)) := by
        rw [map_operands_outputs hp.assigned_result (hp.isGiven_dest hg),
          dest_outputs_of_eliminateDeadCode hg h]
        congr 1
        apply List.map_congr_left
        intro v hv
        rw [withNext, withNext, hp.dependencies_eq hg (List.mem_of_mem_filter hv)]
    _ = g.liveNodes := by
        rw [liveNodes, map_operands_outputs hs hg]
        exact exploreAll_again (sealed_nodes hs) fun v hv => decide_eq_true hv

/-- A second elimination of dead code leaves the operations and the nodes as they are, and in their
order. -/
theorem dead_code_elimination_is_idempotent (hg : ∀ op ∈ g.operations, isGiven op.dest = false)
    (h : g.eliminateDeadCode = .ok r) :
    ∃ r', r.eliminateDeadCode = .ok r' ∧ r'.operations = r.operations ∧ r'.nodes = r.nodes := by
  have hp := pruning_of_eliminateDeadCode h
  obtain ⟨-, -, hdest, hdeclared, -⟩ := eliminateDeadCode_eq_ok.1 h
  rw [← liveNodes_of_eliminateDeadCode hg h] at hdest hdeclared
  refine ⟨{ r with generation := r.lastTag }, ?_, rfl, rfl⟩
  exact eliminateDeadCode_eq_ok.2 ⟨hp.assigned_result, List.Subset.refl _, hdest, hdeclared, rfl⟩

theorem entwined_elimination_is_idempotent :
    (∀ op ∈ entwined.operations, isGiven op.dest = false) ∧
      entwined.eliminateDeadCode = .ok entwinedKept ∧
      ∃ r, entwinedKept.eliminateDeadCode = .ok r ∧ r.operations = entwinedKept.operations ∧
        r.nodes = entwinedKept.nodes := by
  have hg : ∀ op ∈ entwined.operations, isGiven op.dest = false := by decide
  exact ⟨hg, eliminateDeadCode_entwined,
    dead_code_elimination_is_idempotent hg eliminateDeadCode_entwined⟩

end Netlist.Graph
