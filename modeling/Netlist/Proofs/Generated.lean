import Mathlib
import Netlist.Generator
import Netlist.Proofs.Straight
import Netlist.Proofs.Wellformed

/-!
# Generated circuits

`Draws d P` says that a random choice always succeeds, whatever the state of the source is, and that
its result satisfies `P`. If the answers of the source lie between the bounds, something is drawn
from every list that is not empty, and the pool of nodes is never empty because there is an input.

A circuit is generated in three parts. Each operation reads the constant one or nodes defined before
it, so the operations form a straight line over that constant. Their destinations do not depend on
the source: they are numbered wires, whose names start with a different letter in each part. A
circuit like this is what the optimizer needs.
-/

namespace Netlist

namespace WordSource

variable {σ : Type} (w : WordSource σ)

theorem below_lt {n : ℕ} (hn : 0 < n) (s : σ) : (w.below n s).1 < n := by
  unfold below
  split_ifs
  · have hand : ((w.next s).1 &&& (n - 1)) ≤ n - 1 := Nat.and_le_right
    exact lt_of_le_of_lt hand (by omega)
  · exact Nat.mod_lt _ hn

theorem fair : w.toRandomSource.Fair := by
  intro low high s hle
  simp only [toRandomSource]
  split_ifs with heq
  · omega
  · have hlt := w.below_lt (n := (high - low + 1).toNat) (by omega) s
    dsimp only
    omega

end WordSource

namespace Generator

variable {σ α β : Type} {r : RandomSource σ} {w : Width} {pool dests news : List Node}
  {ops new : List Operation} {numbers : List ℕ}

def Draws (d : Draw σ α) (P : α → Prop) : Prop := ∀ s, ∃ a s', d s = .ok (a, s') ∧ P a

theorem bind_apply {d : Draw σ α} {f : α → Draw σ β} {s s' : σ} {a : α} (h : d s = .ok (a, s')) :
    (d >>= f) s = f a s' := by
  change (d s >>= fun p => f p.1 p.2) = _
  rw [h]
  rfl

namespace Draws

variable {d : Draw σ α} {P Q : α → Prop}

theorem mono (hd : Draws d P) (h : ∀ a, P a → Q a) : Draws d Q := by
  intro s
  obtain ⟨a, s', hs', ha⟩ := hd s
  exact ⟨a, s', hs', h a ha⟩

theorem pure {a : α} (h : P a) : Draws (pure a : Draw σ α) P := fun s => ⟨a, s, rfl, h⟩

theorem bind {f : α → Draw σ β} {Q : β → Prop} (hd : Draws d P) (hf : ∀ a, P a → Draws (f a) Q) :
    Draws (d >>= f) Q := by
  intro s
  obtain ⟨a, s₁, hs₁, ha⟩ := hd s
  obtain ⟨b, s₂, hs₂, hb⟩ := hf a ha s₁
  exact ⟨b, s₂, (bind_apply hs₁).trans hs₂, hb⟩

/-- The results have the keys expected of them one by one, and a property in common. -/
theorem mapM {γ : Type} {f : α → Draw σ β} {key : β → γ} {k : α → γ} {Q : β → Prop} {l : List α}
    (h : ∀ a ∈ l, Draws (f a) fun b => key b = k a ∧ Q b) :
    Draws (l.mapM f) fun bs => bs.map key = l.map k ∧ ∀ b ∈ bs, Q b := by
  induction l with
  | nil => exact Draws.pure ⟨rfl, by simp⟩
  | cons a l ih =>
    rw [List.mapM_cons]
    refine (h a List.mem_cons_self).bind fun b hb => ?_
    refine (ih fun a' ha' => h a' (List.mem_cons_of_mem a ha')).bind fun bs hbs => ?_
    refine Draws.pure ⟨?_, List.forall_mem_cons.2 ⟨hb.2, hbs.2⟩⟩
    rw [List.map_cons, List.map_cons, hb.1, hbs.1]

end Draws

section

variable (hr : r.Fair)

include hr

theorem draws_between {low high : ℤ} (h : low ≤ high) :
    Draws (between r low high) fun i => low ≤ i ∧ i ≤ high :=
  fun s => ⟨_, _, rfl, hr low high s h⟩

theorem draws_choose {l : List α} (h : l ≠ []) : Draws (choose r l) (· ∈ l) := by
  have hlength : 0 < l.length := List.length_pos_iff.2 h
  refine (draws_between hr (by omega)).bind fun i hi => ?_
  have hlt : i.toNat < l.length := by omega
  rw [List.getElem?_eq_getElem hlt]
  dsimp only
  rw [if_pos hi.1]
  exact Draws.pure (List.getElem_mem hlt)

theorem draws_orBetween (given : ℤ) {low high : ℤ} (hlow : 0 < low) (h : low ≤ high) :
    Draws (orBetween r given low high) fun n => 0 < n ∧ n ≤ max given high := by
  unfold orBetween
  split_ifs with hgiven
  · exact (draws_between hr h).mono fun n hn => by omega
  · exact Draws.pure (by omega)

theorem draws_pick (h : pool ≠ []) : Draws (pick r pool) fun v => v = one ∨ v ∈ pool := by
  refine (draws_between hr (by omega)).bind fun i _ => ?_
  split_ifs
  · exact Draws.pure (.inl rfl)
  · exact (draws_choose hr h).mono fun v => .inr

theorem draws_innerOperation {opcodes : List Opcode} (hopcodes : opcodes ≠ []) (h : pool ≠ [])
    (i : ℕ) : Draws (innerOperation r w opcodes pool i) fun op => op.dest = wire "n" i w ∧
      op.sources.length = arity op.opcode ∧ ∀ v ∈ op.sources, v = one ∨ v ∈ pool := by
  refine (draws_choose hr hopcodes).bind fun opcode _ => ?_
  have hpick (u : Unit) : Draws (pick r pool) fun v => () = u ∧ (v = one ∨ v ∈ pool) := by
    simpa using draws_pick hr h
  refine (Draws.mapM fun u _ => hpick u).bind fun sources hsources => ?_
  refine Draws.pure ⟨rfl, ?_, hsources.2⟩
  simpa using congrArg List.length hsources.1

theorem draws_outputOperation (h : pool ≠ []) (i : ℕ) : Draws (outputOperation r w pool i)
    fun op => op.dest = wire "out" i w ∧ op.opcode = .output ∧ ∀ v ∈ op.sources, v ∈ pool := by
  refine (draws_choose hr h).bind fun v hv => ?_
  exact Draws.pure ⟨rfl, rfl, by simpa using hv⟩

end

/-- Operations that define some nodes, one after the other. -/
structure Grown (dests : List Node) (ops : List Operation) : Prop where
  dests_eq : ops.map Operation.dest = dests
  straight : Straight (· = one) ops
  copies : ∀ op ∈ ops, op.opcode = .mov → op.sources.length = 1

namespace Grown

theorem nil : Grown [] [] := ⟨rfl, trivial, by simp⟩

theorem append (h : Grown dests ops) (hnodup : (one :: (dests ++ news)).Nodup)
    (hnews : new.map Operation.dest = news)
    (hsources : ∀ op ∈ new, ∀ v ∈ op.sources, v = one ∨ v ∈ dests)
    (hcopies : ∀ op ∈ new, op.opcode = .mov → op.sources.length = 1) :
    Grown (dests ++ news) (ops ++ new) := by
  obtain ⟨hone, hnodup⟩ := List.nodup_cons.1 hnodup
  obtain ⟨-, hnodup, hdisjoint⟩ := List.nodup_append.1 hnodup
  have hnew (op : Operation) (hop : op ∈ new) : op.dest ∈ news := hnews ▸ List.mem_map_of_mem hop
  refine ⟨by rw [List.map_append, h.dests_eq, hnews], ?_, ?_⟩
  · refine Straight.append_iff.2 ⟨h.straight, .of_known (hnews ▸ hnodup) ?_ ?_⟩
    · rw [h.dests_eq]
      rintro op hop (heq | hmem)
      · exact hone (List.mem_append_right _ (heq ▸ hnew op hop))
      · exact hdisjoint _ hmem _ (hnew op hop) rfl
    · rw [h.dests_eq]
      exact hsources
  · intro op hop
    rcases List.mem_append.1 hop with hop | hop
    · exact h.copies op hop
    · exact hcopies op hop

end Grown

theorem draws_extend (hr : r.Fair) {opcodes : List Opcode} (hopcodes : opcodes ≠ [])
    (hdests : dests ≠ []) (hnodup : (one :: (dests ++ numbers.map (wire "n" · w))).Nodup)
    (h : Grown dests ops) :
    Draws (extend r w opcodes numbers ops) (Grown (dests ++ numbers.map (wire "n" · w))) := by
  induction numbers generalizing dests ops with
  | nil => simpa [extend] using Draws.pure h
  | cons i numbers ih =>
    rw [List.map_cons, List.append_cons] at hnodup ⊢
    refine (draws_innerOperation hr hopcodes (h.dests_eq ▸ hdests) i).bind fun op hop => ?_
    obtain ⟨hdest, hlength, hsources⟩ := hop
    rw [h.dests_eq] at hsources
    refine ih (by simp) hnodup (h.append ?_ (by rw [← hdest]; rfl) (by simpa using hsources) ?_)
    · exact hnodup.sublist (List.Sublist.cons_cons _ (List.sublist_append_left _ _))
    · intro p hp hmov
      rw [List.mem_singleton.1 hp] at hmov ⊢
      rw [hlength, hmov]
      rfl

theorem nodup_countdown (n : ℤ) : (countdown n).Nodup :=
  List.nodup_reverse.2 (List.nodup_range.map fun _ _ => Nat.succ.inj)

theorem length_countdown (n : ℤ) : (countdown n).length = n.toNat := by simp [countdown]

theorem head?_name_wire {base : String} {b : UInt8} {t : Text} (h : Text.ofString base = b :: t)
    (i : ℕ) : (wire base i w).name.head? = some b := by
  rw [wire, h]
  rfl

theorem nodup_names_wires (base : String) (w : Width) (h : numbers.Nodup) :
    ((numbers.map (wire base · w)).map Node.name).Nodup := by
  rw [List.map_map]
  exact h.map fun i j hij => Text.decimal_injective (List.append_cancel_left hij)

/-- Nodes whose names start with different bytes have different names. -/
theorem nodup_names_append (hdests : (dests.map Node.name).Nodup)
    (hnews : (news.map Node.name).Nodup)
    (h : ∀ u ∈ dests, ∀ v ∈ news, u.name.head? ≠ v.name.head?) :
    ((dests ++ news).map Node.name).Nodup := by
  rw [List.map_append]
  refine List.nodup_append.2 ⟨hdests, hnews, ?_⟩
  intro s hs t ht heq
  obtain ⟨u, hu, rfl⟩ := List.mem_map.1 hs
  obtain ⟨v, hv, rfl⟩ := List.mem_map.1 ht
  exact h u hu v hv (by rw [heq])

def destinations (w : Width) (inputs operations outputs : ℤ) : List Node :=
  (countdown inputs).map (wire "in" · w) ++ (List.range operations.toNat).map (wire "n" · w) ++
    (countdown outputs).map (wire "out" · w)

theorem nodup_names_destinations (inputs operations outputs : ℤ) :
    ((one :: destinations w inputs operations outputs).map Node.name).Nodup := by
  have hone : ([one].map Node.name).Nodup := List.nodup_singleton _
  have hin := nodup_names_wires "in" w (nodup_countdown inputs)
  have hn := nodup_names_wires "n" w (List.nodup_range (n := operations.toNat))
  have hout := nodup_names_wires "out" w (nodup_countdown outputs)
  have hfirst (i : ℕ) : (wire "in" i w).name.head? = some 105 := head?_name_wire rfl i
  have hsecond (i : ℕ) : (wire "n" i w).name.head? = some 110 := head?_name_wire rfl i
  have hthird (i : ℕ) : (wire "out" i w).name.head? = some 111 := head?_name_wire rfl i
  have hdigit : one.name.head? = some 49 := rfl
  refine nodup_names_append hone (nodup_names_append (nodup_names_append hin hn ?_) hout ?_) ?_
  · simp [hfirst, hsecond]
  · simp [hfirst, hsecond, hthird, or_imp, forall_and]
  · simp [hfirst, hsecond, hthird, hdigit, or_imp, forall_and]

theorem mem_destinations {inputs operations outputs : ℤ} {v : Node}
    (hv : v ∈ destinations w inputs operations outputs) : ∃ base i, v = wire base i w := by
  simp only [destinations, List.mem_append, List.mem_map] at hv
  rcases hv with (⟨i, -, rfl⟩ | ⟨i, -, rfl⟩) | ⟨i, -, rfl⟩
  · exact ⟨_, i, rfl⟩
  · exact ⟨_, i, rfl⟩
  · exact ⟨_, i, rfl⟩

theorem draws_circuit (hr : r.Fair) {opcodes : List Opcode} (hopcodes : opcodes ≠ [])
    {inputs : ℤ} (hinputs : 0 < inputs) (operations outputs : ℤ) :
    Draws (do
      let ops ← extend r w opcodes (List.range operations.toNat)
        ((countdown inputs).map (inputOperation w))
      let outs ← (countdown outputs).mapM (outputOperation r w (ops.map Operation.dest))
      return ({ operations := ops ++ outs } : Graph))
      fun g => g.declared = [] ∧ Grown (destinations w inputs operations outputs) g.operations := by
  have hnodup := (nodup_names_destinations (w := w) inputs operations outputs).of_map
  have hinner := hnodup.sublist (.cons_cons one (List.sublist_append_left _ _))
  have hfirst := hinner.sublist (.cons_cons one (List.sublist_append_left _ _))
  have hpool : (countdown inputs).map (wire "in" · w) ≠ [] := by
    rw [← List.length_pos_iff, List.length_map, length_countdown]
    omega
  have hgrown : Grown ((countdown inputs).map (wire "in" · w))
      ((countdown inputs).map (inputOperation w)) :=
    Grown.nil.append hfirst (by simp [inputOperation]) (by simp [inputOperation])
      (by simp [inputOperation])
  refine (draws_extend hr hopcodes hpool hinner hgrown).bind fun ops hops => ?_
  have hne : ops.map Operation.dest ≠ [] := by
    rw [hops.dests_eq]
    exact List.append_ne_nil_of_left_ne_nil hpool _
  refine (Draws.mapM fun i _ => draws_outputOperation hr hne i).bind fun outs houts => ?_
  refine Draws.pure ⟨rfl, hops.append hnodup houts.1 ?_ ?_⟩
  · intro op hop v hv
    rw [← hops.dests_eq]
    exact .inr ((houts.2 op hop).2 v hv)
  · intro op hop hmov
    rw [(houts.2 op hop).1] at hmov
    cases hmov

namespace Grown

variable {g : Graph} (h : Grown dests g.operations)

include h

theorem operand_cases {op : Operation} (hop : op ∈ g.operations) {v : Node}
    (hv : v ∈ op.operands) : v = one ∨ v ∈ dests := by
  rcases List.mem_cons.1 hv with rfl | hv
  · exact .inr (h.dests_eq ▸ List.mem_map_of_mem hop)
  · exact h.dests_eq ▸ h.straight.known_of_mem hop hv

theorem mem_nodes_cases (hdeclared : g.declared = []) {v : Node} (hv : v ∈ g.nodes) :
    v = one ∨ v ∈ dests := by
  rcases Graph.mem_nodes.1 hv with ⟨op, hop, hv⟩ | hv
  · exact h.operand_cases hop hv
  · rw [hdeclared] at hv
    cases hv

theorem ready (hdeclared : g.declared = []) (hnodup : dests.Nodup)
    (hwires : ∀ v ∈ dests, 0 ≤ v.width ∧ v.kind = .wire) : g.Ready Graph.balancingOrder := by
  have hgiven (v : Node) (hv : v ∈ dests) : Graph.isGiven v = false := by
    simp [Graph.isGiven, Node.isConstant, Node.isMemory, (hwires v hv).2]
  refine ⟨by decide, Graph.closed_eq_ok.2 ⟨?_, ?_⟩, ?_, ?_, ⟨?_, ?_⟩, ?_⟩
  · rw [SingleAssignment, h.dests_eq]
    exact hnodup
  · intro op hop v hv
    rcases h.straight.known_of_mem hop hv with rfl | hmem
    · exact .inl rfl
    · exact .inr (List.mem_map.1 hmem)
  · intro op hop
    exact hgiven op.dest (h.dests_eq ▸ List.mem_map_of_mem hop)
  · intro op hop hmov
    exact List.length_eq_one_iff.1 (h.copies op hop hmov)
  · intro op hop v hv
    rcases h.operand_cases hop hv with rfl | hmem
    · rfl
    · exact decide_eq_true (hwires v hmem).1
  · intro v hv hmemory
    rcases h.mem_nodes_cases hdeclared hv with rfl | hmem
    · cases hmemory
    · simp [Node.isMemory, (hwires v hmem).2] at hmemory
  · intro b _
    exact h.straight.acyclic.of_subset (List.filter_subset_self _)

end Grown

theorem Grown.ready_destinations {g : Graph} {inputs operations outputs : ℤ}
    (h : Grown (destinations w inputs operations outputs) g.operations)
    (hdeclared : g.declared = []) (hw : 0 ≤ w) : g.Ready Graph.balancingOrder := by
  have hnames := nodup_names_destinations (w := w) inputs operations outputs
  refine h.ready hdeclared (List.nodup_cons.1 hnames.of_map).2 ?_
  intro v hv
  obtain ⟨base, i, rfl⟩ := mem_destinations hv
  exact ⟨hw, rfl⟩

end Generator

open Generator

/-- A circuit of `n` operations as the optimizer expects it. Its operations can be computed one
after the other from the constant one, and its nodes have different names. -/
structure Graph.ValidInput (n : ℤ) (g : Graph) : Prop where
  reads : ∀ before op after, g.operations = before ++ op :: after →
    ∀ v ∈ op.sources, v = one ∨ v ∈ before.map Operation.dest
  assigned : SingleAssignment g.operations
  named : (g.nodes.map Node.name).Nodup
  writable : g.writable = .ok ()
  closed : g.closed = .ok ()
  size : (g.size : ℤ) = n

theorem Generator.Grown.validInput {g : Graph} {w : Width} {inputs operations outputs : ℤ}
    (h : Grown (destinations w inputs operations outputs) g.operations)
    (hdeclared : g.declared = []) (hw : 0 ≤ w) (hinputs : 0 ≤ inputs) (hoperations : 0 ≤ operations)
    (houtputs : 0 ≤ outputs) : g.ValidInput (inputs + operations + outputs) := by
  have hready := h.ready_destinations hdeclared hw
  refine ⟨?_, (Graph.closed_eq_ok.1 hready.closed).1, ?_, Graph.writable_eq_ok.2 hready.sized,
    hready.closed, ?_⟩
  · intro before op after heq
    have hstraight := h.straight
    rw [heq, Straight.append_iff] at hstraight
    exact hstraight.2.2.1
  · refine g.nodup_nodes.map_on ?_
    intro u hu v hv heq
    have hnames := nodup_names_destinations (w := w) inputs operations outputs
    exact List.inj_on_of_nodup_map hnames (List.mem_cons.2 (h.mem_nodes_cases hdeclared hu))
      (List.mem_cons.2 (h.mem_nodes_cases hdeclared hv)) heq
  · have hlength := congrArg List.length h.dests_eq
    simp only [destinations, List.length_map, List.length_append, length_countdown,
      List.length_range] at hlength
    unfold Graph.size
    omega

/-- A source whose answers lie between the bounds never makes the generator fail. The circuit has as
many operations as the configuration says, where the numbers of inputs and outputs may be left to
the source; it is what the optimizer expects, and is optimized into a circuit that passes the audit
and has the same outputs. -/
theorem generated_circuit_is_valid {σ : Type} (r : RandomSource σ) (hr : r.Fair) (c : Config)
    (hoperations : 0 ≤ c.operations) (hoperations_lt : c.operations < 2 ^ 31)
    (hinputs_lt : c.inputs < 2 ^ 31) (s : σ) :
    ∃ inputs s₁ outputs s₂ g s', orBetween r c.inputs 2 5 s = .ok (inputs, s₁) ∧
      orBetween r c.outputs 1 3 s₁ = .ok (outputs, s₂) ∧ Graph.generate r c s = .ok (g, s') ∧
      g.ValidInput (inputs + c.operations + outputs) ∧
      ∃ optimal, g.optimize = .ok optimal ∧ g.audit optimal = .ok () ∧
        g.outputNames = optimal.outputNames := by
  obtain ⟨inputs, s₁, hs₁, hinputs, hinputs_le⟩ :=
    draws_orBetween hr c.inputs (by decide : (0 : ℤ) < 2) (by decide : (2 : ℤ) ≤ 5) s
  obtain ⟨outputs, s₂, hs₂, houtputs, -⟩ :=
    draws_orBetween hr c.outputs (by decide : (0 : ℤ) < 1) (by decide : (1 : ℤ) ≤ 3) s₁
  have hopcodes : (if c.opcodes.isEmpty then defaultOpcodes else c.opcodes) ≠ [] := by
    split_ifs with hempty
    · simp [defaultOpcodes]
    · simpa using hempty
  have hwidth : (0 : Width) ≤ if c.width ≤ 0 then 8 else c.width := by
    split_ifs with hzero
    · decide
    · exact (not_le.1 hzero).le
  have hcapacity : wrap (inputs + c.operations) = inputs + c.operations :=
    Int.bmod_eq_of_le (by simp; omega) (by simp; omega)
  obtain ⟨g, s', hs', hdeclared, hgrown⟩ :=
    draws_circuit hr (w := if c.width ≤ 0 then 8 else c.width) hopcodes hinputs c.operations outputs
      s₂
  obtain ⟨optimal, hoptimal, haudit, hnames, -⟩ :=
    (hgrown.ready_destinations hdeclared hwidth).exists_optimize
  refine ⟨inputs, s₁, outputs, s₂, g, s', hs₁, hs₂, ?_,
    hgrown.validInput hdeclared hwidth hinputs.le hoperations houtputs.le, optimal, hoptimal,
    haudit, hnames⟩
  unfold Graph.generate
  rw [bind_apply hs₁, bind_apply hs₂]
  dsimp only
  rw [hcapacity, if_neg (by simp [poolLimit]; omega)]
  exact hs'

namespace Generator

/-- Sums and copies of as many inputs as the source says. -/
def sampleConfig : Config where
  operations := 3
  outputs := 1
  opcodes := [.xor, .mov]

def sampleSource : RandomSource ℕ :=
  (WordSource.cycle [0, 2, 3, 1, 10, 3, 7, 20, 2, 9, 3, 8, 0, 4]).toRandomSource

def sample : Graph where
  operations :=
    [⟨⟨"in2", 8, .wire, 0⟩, 8, .input, []⟩,
      ⟨⟨"in1", 8, .wire, 0⟩, 8, .input, []⟩,
      ⟨⟨"n0", 8, .wire, 0⟩, 8, .xor, [⟨"in1", 8, .wire, 0⟩, ⟨"1", 1, .constant, 0⟩]⟩,
      ⟨⟨"n1", 8, .wire, 0⟩, 8, .mov, [⟨"n0", 8, .wire, 0⟩]⟩,
      ⟨⟨"n2", 8, .wire, 0⟩, 8, .xor, [⟨"n1", 8, .wire, 0⟩, ⟨"in2", 8, .wire, 0⟩]⟩,
      ⟨⟨"out1", 8, .wire, 0⟩, 8, .output, [⟨"n2", 8, .wire, 0⟩]⟩]

theorem sample_is_valid :
    sampleSource.Fair ∧ Graph.generate sampleSource sampleConfig 0 = .ok (sample, 14) ∧
      sample.ValidInput 6 ∧ ∃ optimal, sample.optimize = .ok optimal ∧
      sample.audit optimal = .ok () ∧ sample.outputNames = optimal.outputNames := by
  have hr : sampleSource.Fair := WordSource.fair _
  have hinputs : orBetween sampleSource sampleConfig.inputs 2 5 0 = .ok (2, 1) := by cbv
  have houtputs : orBetween sampleSource sampleConfig.outputs 1 3 1 = .ok (1, 1) := by cbv
  have hsample : Graph.generate sampleSource sampleConfig 0 = .ok (sample, 14) := by cbv
  obtain ⟨inputs, s₁, outputs, s₂, g, s', hs₁, hs₂, hg, hvalid⟩ :=
    generated_circuit_is_valid sampleSource hr sampleConfig (by decide) (by decide) (by decide) 0
  cases hinputs.symm.trans hs₁
  cases houtputs.symm.trans hs₂
  cases hsample.symm.trans hg
  exact ⟨hr, hsample, hvalid⟩

end Generator

end Netlist
