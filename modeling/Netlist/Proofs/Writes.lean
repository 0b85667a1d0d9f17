import Mathlib
import Netlist.Proofs.Live

/-!
# Writes to memories

A `wr` has its effect on a memory, and its destination need not be read by anything. Dead code
elimination follows sources only: from a `rd` it finds the memory but not the writes to it. So a
write is kept exactly if an output depends on its destination in the circuit that dead code is
eliminated from. Balancing makes no operation live that was dead before, so a write that is dead in
the circuit at the start is lost, even if the result reads the memory. `lostWrite` is an example.
-/

namespace Netlist

open Relation

variable {g r g' : Graph} {op p : Operation} {v : Node} {t : Text}

def Run.before? (run : Run) (name : Text) : Option Graph :=
  (run.finished.find? (·.name = name)).map Finished.before

theorem Graph.Live.of_dependsOn (hs : SingleAssignment g.operations) (hop : g.Live op)
    (hdep : TransGen (DependsOn g.operations) op.dest v) (hp : p ∈ g.operations)
    (hd : p.dest = v) : g.Live p := by
  induction hdep generalizing p with
  | single hv =>
    obtain ⟨q, hq, hqd, hv⟩ := hv
    obtain rfl := hs.eq_of_dest_eq hq hop.mem hqd
    exact .producer hop hp (hd ▸ hv)
  | tail _ hv ih =>
    obtain ⟨q, hq, hqd, hv⟩ := hv
    exact .producer (ih hq hqd) hp (hd ▸ hv)

namespace Bitwise

variable {b : Bitwise} {kept : List Operation} {rewrites : List Rewrite} {w w' : Rewrite}

theorem Rewrite.source_cases (hop : op ∈ w.operations b) (hv : v ∈ op.sources) :
    v ∈ w.leaves ∨ v ∈ w.temporaries b := by
  rcases List.mem_append.1 hop with hop | hop
  · exact combine_sources hop hv
  · rw [List.mem_singleton.1 hop] at hv
    rw [List.mem_singleton.1 hv]
    exact combine_root

/-- An operation was live before balancing if it was there, and if it stands in the place of another
one, then that one was live. -/
def WasLive (b : Bitwise) (g : Graph) (kept : List Operation) (rewrites : List Rewrite)
    (op : Operation) : Prop :=
  (op ∈ kept → g.Live op) ∧ ∀ w ∈ rewrites, op ∈ w.operations b → g.Live w.operation

namespace Balancing

variable (h : Balancing b g r kept rewrites)

include h

theorem rewrite_eq_of_temporary (hw : w ∈ rewrites) (hw' : w' ∈ rewrites)
    (hv : v ∈ w.temporaries b) (hv' : v ∈ w'.temporaries b) : w = w' :=
  eq_of_mem_flatMap (h.fresh.nodup.of_map _) hw hw' hv hv'

/-- A producer of a node that the circuit had was live if the former producer was. -/
theorem wasLive_of_mem_nodes (hv : p.dest ∈ g.nodes)
    (hlive : ∀ q ∈ g.operations, q.dest = p.dest → g.Live q) : WasLive b g kept rewrites p := by
  refine ⟨fun hp => hlive p (h.mem_operations.2 (.inl hp)) rfl, fun w hw hp => ?_⟩
  rcases List.mem_append.1 hp with hp | hp
  · exact absurd hv (h.notMem_nodes (temporary_mem hw (List.mem_map_of_mem hp)))
  · rw [List.mem_singleton.1 hp] at hlive
    exact hlive w.operation (mem_within.1 (h.rewritten hw)).1 rfl

theorem wasLive_of_temporary (hw : w ∈ rewrites) (hv : p.dest ∈ w.temporaries b)
    (hlive : g.Live w.operation) : WasLive b g kept rewrites p := by
  have hnew := h.notMem_nodes (temporary_mem hw hv)
  refine ⟨fun hp => ?_, fun w' hw' hp => ?_⟩
  · exact absurd (Graph.dest_mem_nodes (h.mem_operations.2 (.inl hp))) hnew
  · rcases List.mem_append.1 hp with hp | hp
    · rwa [← h.rewrite_eq_of_temporary hw hw' hv (List.mem_map_of_mem hp)]
    · rw [List.mem_singleton.1 hp] at hnew
      exact absurd (h.rewritten_mem_nodes hw') hnew

theorem wasLive (hop : r.Live op) : WasLive b g kept rewrites op := by
  induction hop with
  | @output op hop =>
    refine ⟨fun _ => .output (h.outputs_perm.mem_iff.1 hop), fun w _ hmem => ?_⟩
    have hc := (Graph.mem_outputs.1 hop).2
    rcases List.mem_append.1 hmem with hmem | hmem
    · rw [opcode_of_mem_combine hmem] at hc
      cases b <;> cases hc
    · rw [List.mem_singleton.1 hmem] at hc
      cases hc
  | @producer op p hop hp hd ih =>
    rcases List.mem_append.1 (h.result.mem_iff.1 hop.mem) with hmem | hmem
    · have hop := h.mem_operations.2 (.inl hmem)
      exact h.wasLive_of_mem_nodes (Graph.source_mem_nodes hop hd)
        fun q hq hqd => .producer (ih.1 hmem) hq (hqd ▸ hd)
    · obtain ⟨w, hw, hmem⟩ := List.mem_flatMap.1 hmem
      have hlive := ih.2 w hw hmem
      rcases w.source_cases hmem hd with hleaf | htemporary
      · exact h.wasLive_of_mem_nodes (h.leaf_mem_nodes hw hleaf)
          fun q hq => hlive.of_dependsOn h.assigned (h.leaf_dependsOn hw hleaf) hq
      · exact h.wasLive_of_temporary hw htemporary hlive

/-- Balancing makes no operation live that was not, apart from those that it adds. -/
theorem live_of_live (hop : r.Live op) (hb : op.opcode ≠ b.opcode) (hmov : op.opcode ≠ .mov) :
    g.Live op := by
  refine (h.wasLive hop).1 ?_
  rcases h.mem_result.1 hop.mem with hkept | htree | ⟨w, -, rfl⟩
  · exact hkept
  · exact absurd (opcode_of_mem_trees htree) hb
  · exact absurd rfl hmov

end Balancing

end Bitwise

namespace Graph

section Balanced

variable {bs : List Bitwise} (h : bs.foldlM (fun g b => b.balance g) g = .ok g')

include h

theorem live_of_balanced (hop : g'.Live op) (hb : ∀ b : Bitwise, op.opcode ≠ b.opcode)
    (hmov : op.opcode ≠ .mov) : g.Live op := by
  refine foldlM_invariant (I := fun _ s => s.Live op → g.Live op) ?_ id h hop
  intro b l s s' hs hb' hop
  obtain ⟨kept, rewrites, hbal⟩ := Bitwise.exists_balancing hb'
  exact hs (hbal.live_of_live hop (hb b) hmov)

theorem mem_balanced_iff (hb : ∀ b : Bitwise, op.opcode ≠ b.opcode) (hmov : op.opcode ≠ .mov) :
    op ∈ g'.operations ↔ op ∈ g.operations := by
  refine foldlM_invariant (I := fun _ s => op ∈ s.operations ↔ op ∈ g.operations) ?_ Iff.rfl h
  intro b l s s' hs hb'
  obtain ⟨kept, rewrites, hbal⟩ := Bitwise.exists_balancing hb'
  have hperm := (hbal.filter_perm (hb b) hmov).mem_iff (a := op)
  simp only [List.mem_filter, decide_true, and_true] at hperm
  exact hperm.trans hs

end Balanced

/-- A write of one circuit to a memory that the other circuit reads. -/
def WritesRead (g r : Graph) (op : Operation) : Prop :=
  op ∈ g.operations ∧ op.opcode = .wr ∧ ∃ m ∈ op.sources, m.isMemory = true ∧
    ∃ p ∈ r.operations, p.opcode = .rd ∧ m ∈ p.sources

/-- Whether the destination of an operation is the destination of a write. -/
def Writes (r : Graph) (op : Operation) : Prop :=
  ∃ p ∈ r.operations, p.opcode = .wr ∧ p.dest = op.dest

/-- Whether the writes to all memories that a result reads are left in it. -/
def KeepsWrites (g r : Graph) : Prop := ∀ op, g.WritesRead r op → r.Writes op

theorem writes_iff_live {d : Graph} (hd : g.Pruning d) (hr : d.Eliding r)
    (hg : ∀ op ∈ g.operations, isGiven op.dest = false) (hop : op ∈ g.operations)
    (hc : op.opcode = .wr) : r.Writes op ↔ g.Live op := by
  rw [← hd.mem_iff_live hg]
  constructor
  · rintro ⟨p, hp, -, hdest⟩
    obtain ⟨q, hq, -, rfl⟩ := hr.mem_result.1 hp
    rwa [← hd.assigned.eq_of_dest_eq (hd.subset hq) hop hdest]
  · intro hmem
    exact ⟨_, hr.mem_result.2 ⟨op, hmem, by simp [hc], rfl⟩, hc, rfl⟩

/-- The writes to memories that an optimized circuit reads are left in it exactly if they were live
when dead code was eliminated. Only writes that are live in the circuit at the start can be. -/
theorem writes_are_kept_iff_live (hparse : parse t = .ok g) (h : g.optimize = .ok r) :
    ∃ b, g.optimizeRun.before? deadCodeName = some b ∧
      (g.KeepsWrites r ↔ ∀ op, g.WritesRead r op → b.Live op) ∧
      ∀ op, op.opcode = .wr → b.Live op → g.Live op := by
  obtain ⟨b, d, hbalanced, hd, hr, hfound⟩ := optimizeRun_deadCode h
  have hb := isGiven_dest_of_balanced hbalanced (parsed_of_parse hparse).produced
  have hconnective {op : Operation} (hc : op.opcode = .wr) (c : Bitwise) :
      op.opcode ≠ c.opcode := by
    rw [hc]
    cases c <;> decide
  have hmov {op : Operation} (hc : op.opcode = .wr) : op.opcode ≠ .mov := by
    rw [hc]
    decide
  have hwrites (op : Operation) (hop : g.WritesRead r op) : r.Writes op ↔ b.Live op :=
    writes_iff_live (pruning_of_eliminateDeadCode hd) (eliding_of_eliminateCopies hr) hb
      ((mem_balanced_iff hbalanced (hconnective hop.2.1) (hmov hop.2.1)).2 hop.1) hop.2.1
  refine ⟨b, by rw [Run.before?, hfound]; rfl, ?_, fun op hc hop => ?_⟩
  · exact forall₂_congr hwrites
  · exact live_of_balanced hbalanced hop (hconnective hc) (hmov hc)

/-- An input that is written to a memory. -/
def storedInput : Operation :=
  ⟨⟨"w", 8, .wire, 0⟩, 8, .wr, [⟨"e", 1, .wire, 0⟩, ⟨"m", 8, .memory 16, 0⟩, ⟨"a", 4, .wire, 0⟩,
    ⟨"i", 8, .wire, 0⟩]⟩

def lostWriteText : Text :=
  "m = mem'8 16\ne = in'1\na = in'4\ni = in'8\nw = wr'8 e m a i\nv = rd'8 e m a\nx = out'8 v\n"

/-- An input is written to a memory, and what the memory holds is the output. -/
def lostWrite : Graph where
  operations :=
    [⟨⟨"e", 1, .wire, 0⟩, 1, .input, []⟩,
      ⟨⟨"a", 4, .wire, 0⟩, 4, .input, []⟩,
      ⟨⟨"i", 8, .wire, 0⟩, 8, .input, []⟩,
      storedInput,
      ⟨⟨"v", 8, .wire, 0⟩, 8, .rd, [⟨"e", 1, .wire, 0⟩, ⟨"m", 8, .memory 16, 0⟩,
        ⟨"a", 4, .wire, 0⟩]⟩,
      ⟨⟨"x", 8, .wire, 0⟩, 8, .output, [⟨"v", 8, .wire, 0⟩]⟩]
  declared := [⟨"m", 8, .memory 16, 0⟩]

/-- The memory is still read, but nothing writes to it any more. -/
def lostWriteOptimized : Graph where
  operations :=
    [⟨⟨"x", 8, .wire, 0⟩, 8, .output, [⟨"v", 8, .wire, 0⟩]⟩,
      ⟨⟨"v", 8, .wire, 0⟩, 8, .rd, [⟨"e", 1, .wire, 0⟩, ⟨"m", 8, .memory 16, 0⟩,
        ⟨"a", 4, .wire, 0⟩]⟩,
      ⟨⟨"e", 1, .wire, 0⟩, 1, .input, []⟩,
      ⟨⟨"a", 4, .wire, 0⟩, 4, .input, []⟩]
  declared := [⟨"m", 8, .memory 16, 0⟩]
  generation := 3

/-- The same circuit with the destination of the write as a second output. -/
def keptWrite : Graph :=
  { lostWrite with
    operations := lostWrite.operations ++
      [⟨⟨"y", 8, .wire, 0⟩, 8, .output, [⟨"w", 8, .wire, 0⟩]⟩] }

def keptWriteOptimized : Graph :=
  { lostWriteOptimized with
    operations := lostWriteOptimized.operations ++
      [⟨⟨"y", 8, .wire, 0⟩, 8, .output, [⟨"w", 8, .wire, 0⟩]⟩, storedInput,
        ⟨⟨"i", 8, .wire, 0⟩, 8, .input, []⟩] }

theorem keptWrite_kept_iff_live :
    parse (lostWriteText ++ "y = out'8 w\n") = .ok keptWrite ∧
      keptWrite.optimize = .ok keptWriteOptimized ∧
      keptWrite.WritesRead keptWriteOptimized storedInput ∧
      keptWrite.KeepsWrites keptWriteOptimized ∧
      ∃ b, keptWrite.optimizeRun.before? deadCodeName = some b ∧ b.Live storedInput ∧
        keptWrite.Live storedInput := by
  have hparse : parse (lostWriteText ++ "y = out'8 w\n") = .ok keptWrite := by cbv
  have hoptimize : keptWrite.optimize = .ok keptWriteOptimized := by cbv
  have hread : keptWrite.WritesRead keptWriteOptimized storedInput :=
    ⟨by decide, rfl, ⟨"m", 8, .memory 16, 0⟩, by decide, rfl, by decide⟩
  have honly : ∀ op ∈ keptWrite.operations, op.opcode = .wr → op = storedInput := by decide
  have hkept : keptWrite.KeepsWrites keptWriteOptimized := by
    intro op hop
    rw [honly op hop.1 hop.2.1]
    exact ⟨storedInput, by decide, rfl, rfl⟩
  obtain ⟨b, hb, hiff, hlive⟩ := writes_are_kept_iff_live hparse hoptimize
  have hstored := hiff.1 hkept storedInput hread
  exact ⟨hparse, hoptimize, hread, hkept, b, hb, hstored, hlive storedInput rfl hstored⟩

theorem lostWrite_is_lost :
    parse lostWriteText = .ok lostWrite ∧ lostWrite.optimize = .ok lostWriteOptimized ∧
      ¬lostWrite.KeepsWrites lostWriteOptimized := by
  refine ⟨by cbv, by cbv, fun hkeeps => ?_⟩
  have hread : lostWrite.WritesRead lostWriteOptimized storedInput :=
    ⟨by decide, rfl, ⟨"m", 8, .memory 16, 0⟩, by decide, rfl, by decide⟩
  obtain ⟨p, hp, hc, -⟩ := hkeeps _ hread
  have hno : ∀ p ∈ lostWriteOptimized.operations, p.opcode ≠ .wr := by decide
  exact hno p hp hc

end Graph

end Netlist
