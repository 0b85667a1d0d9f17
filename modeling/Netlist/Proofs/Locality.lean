import Mathlib
import Netlist.Proofs.Connected
import Netlist.Proofs.Unfolding
import Netlist.Proofs.Wellformed

/-!
# Leaves are found inside a component

A connective is balanced component by component, and the search for leaves looks up producers among
the operations of one component only. A producer that it did not see there would count as a leaf.

This cannot happen. An operation of the connective is connected to all of its sources, so they lie
in its component, and an operation lies where its destination does. Whatever node the search comes
upon is such a source; it has the same producer inside the component and in the whole circuit. Two
searches that agree on the producers of all nodes that they come upon take the same steps, and so
they find the same leaves or fail at the same node.
-/

namespace Netlist

variable {g : Graph} {b : Bitwise} {v : Node} {op : Operation}

namespace Bitwise

variable {ops ops' path : List Operation} {depth : ℕ} {w : Walk} {S : Node → Prop}

/-- Nodes that operations of the connective do not lead out of, and which the same operations of it
produce in two lists. -/
structure Agrees (b : Bitwise) (ops ops' : List Operation) (S : Node → Prop) : Prop where
  inner : ∀ v, S v → b.inner? ops v = b.inner? ops' v
  closed : ∀ v p, S v → b.inner? ops v = some p → ∀ u ∈ p.sources, S u

namespace Agrees

/-- One source is taken into a walk in the same way, provided that searches further down agree. -/
theorem descend_eq (h : b.Agrees ops ops' S)
    (hvisit : ∀ p w, (∀ u ∈ p.sources, S u) →
      b.visit ops depth path p w = b.visit ops' depth path p w) (hv : S v) :
    b.descend ops depth path w v = b.descend ops' depth path w v := by
  unfold descend
  rw [← h.inner v hv]
  cases hi : b.inner? ops v with
  | none => rfl
  | some p =>
    dsimp only
    rw [hvisit p w (h.closed v p hv hi)]

theorem visit_eq (h : b.Agrees ops ops' S) (hop : ∀ v ∈ op.sources, S v) :
    b.visit ops depth path op w = b.visit ops' depth path op w := by
  induction depth generalizing path op w with
  | zero => rfl
  | succ depth ih =>
    have hstep (w : Walk) (v : Node) (hv : v ∈ op.sources) :
        b.descend ops depth (op :: path) w v = b.descend ops' depth (op :: path) w v :=
      h.descend_eq (fun _ _ hp => ih hp) (hop v hv)
    rw [visit_succ, visit_succ, foldlM_congr hstep]

end Agrees

end Bitwise

namespace Graph

variable {accepts : Edge → Bool} {comps : List Component} {c : Component}

theorem Partition.find?_dest (h : g.Partition accepts comps) (hc : c ∈ comps)
    (hv : v ∈ c.nodes) :
    c.operations.find? (·.dest = v) = g.operations.find? (·.dest = v) := by
  rw [h.operations c hc, List.find?_filter]
  congr 1
  funext p
  by_cases hp : p.dest = v
  · simp [hp, hv]
  · simp [hp]

end Graph

namespace Bitwise

variable {comps : List Component} {c : Component}

/-- In a component of the connective's edges producers are the same as in the whole circuit. -/
theorem agrees_component (h : g.Partition (·.operation.opcode = b.opcode) comps) (hc : c ∈ comps) :
    b.Agrees c.operations g.operations (· ∈ c.nodes) where
  inner v hv := by
    unfold inner?
    rw [h.find?_dest hc hv]
  closed v p _ hp u hu := by
    obtain ⟨hmem, -, hcode⟩ := inner?_spec hp
    exact h.source_mem hc hmem hu (decide_eq_true hcode)

theorem leaves_component (h : g.Partition (·.operation.opcode = b.opcode) comps) (hc : c ∈ comps)
    (hop : op ∈ c.operations) (hcode : op.opcode = b.opcode) :
    b.leaves c.operations op = b.leaves g.operations op := by
  have hle : c.operations.length ≤ g.operations.length := by
    rw [h.operations c hc]
    exact List.length_filter_le _ _
  -- in the component a search never has to go as deep as it may go in the circuit
  have hdeeper : b.visit c.operations (c.operations.length + 1) [] op {} =
      b.visit c.operations (g.operations.length + 1) [] op {} := by
    apply visit_depth (List.nodup_singleton op) (by simpa using hop)
    · simp
    · rw [List.length_nil]
      omega
  have hsources : ∀ v ∈ op.sources, v ∈ c.nodes := fun v hv =>
    h.source_mem hc hop hv (decide_eq_true hcode)
  unfold leaves
  rw [hdeeper, (agrees_component h hc).visit_eq hsources]

/-- In a circuit with single assignment, take the components that the edges of a connective
connect. An operation of the connective has all of its sources in its component, and the producers
that they have in the circuit too. So its leaves are the same whether producers are looked up in
the component or in the circuit, and so is the error if there is a loop. -/
theorem component_loses_no_leaf (hs : SingleAssignment g.operations) (b : Bitwise) :
    ∃ comps, g.components (·.operation.opcode = b.opcode) = .ok comps ∧
      ∀ c ∈ comps, ∀ op ∈ c.operations, op.opcode = b.opcode →
        (∀ v ∈ op.sources, v ∈ c.nodes ∧
          ∀ p ∈ g.operations, p.dest = v → p ∈ c.operations) ∧
        b.leaves c.operations op = b.leaves g.operations op := by
  obtain ⟨comps, hcomps, h⟩ := Graph.exists_components (·.operation.opcode = b.opcode) hs
  refine ⟨comps, hcomps, fun c hc op hop hcode => ⟨fun v hv => ?_, ?_⟩⟩
  · have hmem : v ∈ c.nodes := h.source_mem hc hop hv (decide_eq_true hcode)
    refine ⟨hmem, fun p hp hd => ?_⟩
    subst hd
    exact (h.mem_operations hc).2 ⟨hp, hmem⟩
  · exact leaves_component h hc hop hcode

/-- The component of the products in the circuit with feedback: all but the copy and the output. -/
def feedbackProducts : Component where
  nodes :=
    [⟨"a", 8, .wire, 0⟩, ⟨"t", 8, .wire, 0⟩, ⟨"s", 8, .wire, 0⟩, ⟨"r", 8, .wire, 0⟩,
      ⟨"u", 8, .wire, 0⟩, ⟨"3'8", 8, .constant, 0⟩]
  operations := Graph.feedback.operations.take 5

def feedbackTop : Operation :=
  ⟨⟨"s", 8, .wire, 0⟩, 8, .and, [⟨"u", 8, .wire, 0⟩, ⟨"a", 8, .wire, 0⟩]⟩

theorem feedback_loses_no_leaf :
    SingleAssignment Graph.feedback.operations ∧ feedbackTop ∈ feedbackProducts.operations ∧
      feedbackTop.opcode = and.opcode ∧
      ∃ comps, Graph.feedback.components (·.operation.opcode = and.opcode) = .ok comps ∧
        feedbackProducts ∈ comps ∧
        and.leaves Graph.feedback.operations feedbackTop =
          .ok [⟨"a", 8, .wire, 0⟩, ⟨"r", 8, .wire, 0⟩, ⟨"3'8", 8, .constant, 0⟩] ∧
        (∀ v ∈ feedbackTop.sources, v ∈ feedbackProducts.nodes ∧
          ∀ p ∈ Graph.feedback.operations, p.dest = v → p ∈ feedbackProducts.operations) ∧
        and.leaves feedbackProducts.operations feedbackTop =
          and.leaves Graph.feedback.operations feedbackTop := by
  have hs : SingleAssignment Graph.feedback.operations := by
    unfold SingleAssignment
    decide
  have htop : feedbackTop ∈ feedbackProducts.operations := by decide
  have hparts : Graph.feedback.components (·.operation.opcode = and.opcode) =
      .ok [feedbackProducts, ⟨[⟨"c", 8, .wire, 0⟩], [Graph.feedback.operations[5]]⟩,
        ⟨[⟨"x", 8, .wire, 0⟩], [Graph.feedback.operations[6]]⟩] := by cbv
  have hleaves : and.leaves Graph.feedback.operations feedbackTop =
      .ok [⟨"a", 8, .wire, 0⟩, ⟨"r", 8, .wire, 0⟩, ⟨"3'8", 8, .constant, 0⟩] := by cbv
  obtain ⟨comps, hcomps, h⟩ := component_loses_no_leaf hs and
  have hmem : feedbackProducts ∈ comps := by
    cases hparts.symm.trans hcomps
    exact List.mem_cons_self
  exact ⟨hs, htop, rfl, comps, hcomps, hmem, hleaves, h _ hmem _ htop rfl⟩

end Bitwise

end Netlist
