import Mathlib
import Netlist.Proofs.Stated
import Netlist.Proofs.Wellformed
import Netlist.Proofs.Words

/-!
# What an audit sees of the outputs

An audit compares the sorted names of outputs as two texts, in which the names stand with commas
between them. A name may hold commas itself, so the texts do not tell where a name ends. They tell
the pieces that the names fall into when each is cut at its commas: an audit passes if the same
pieces come in the same order, whatever names they make up.

The outputs have the same names exactly if each name falls into the same pieces. So the audit never
refuses outputs that were kept, and if no name holds a comma it accepts no others. Otherwise it may
accept outputs that were joined or split.
-/

namespace Netlist

variable {names names' : List Text} {x y : Text}

def comma : UInt8 := 44

/-- What a name falls into when it is cut at its commas. -/
def pieces (name : Text) : List Text := name.splitOn comma

theorem intercalate_pieces (x : Text) : [comma].intercalate (pieces x) = x :=
  List.intercalate_splitOn comma

theorem pieces_injective : Function.Injective pieces :=
  Function.LeftInverse.injective intercalate_pieces

theorem pieces_append_comma (x y : Text) : pieces (x ++ comma :: y) = pieces x ++ pieces y := by
  unfold pieces
  rw [List.splitOn_eq_splitOnP]
  exact List.splitOnP_append_cons x y (beq_self_eq_true comma)

theorem pieces_of_notMem (h : comma ∉ x) : pieces x = [x] := by
  have hsplit : pieces ([comma].intercalate [x]) = [x] :=
    List.splitOn_intercalate comma (by simpa using h) (List.cons_ne_nil x [])
  rwa [List.intercalate_singleton] at hsplit

theorem pieces_join (h : names ≠ []) :
    pieces (Text.join "," names) = (names.map pieces).flatten := by
  have hcomma : ("," : Text) = [comma] := by decide
  induction names with
  | nil => exact absurd rfl h
  | cons x names ih =>
    cases names with
    | nil => simp [Text.join, List.intercalate_singleton]
    | cons y names =>
      have hjoin : Text.join "," (x :: y :: names) = x ++ comma :: Text.join "," (y :: names) := by
        rw [hcomma, Text.join_byte]
      rw [hjoin, pieces_append_comma, ih (List.cons_ne_nil y names)]
      rfl

theorem flatten_pieces_eq_nil : (names.map pieces).flatten = [] ↔ names = [] := by
  cases names with
  | nil => exact iff_of_true rfl rfl
  | cons x names =>
    refine iff_of_false (fun h => ?_) (List.cons_ne_nil x names)
    rw [List.map_cons, List.flatten_cons, List.append_eq_nil_iff] at h
    exact List.splitOn_ne_nil comma x h.1

theorem join_eq_nil (hne : ∀ x ∈ names, x ≠ []) : Text.join "," names = [] ↔ names = [] := by
  cases names with
  | nil => exact iff_of_true rfl rfl
  | cons x names =>
    refine iff_of_false ?_ (List.cons_ne_nil x names)
    exact Text.join_ne_nil (hne x List.mem_cons_self)

/-- The texts of two lists of names are equal if the names fall into the same pieces. -/
theorem join_eq_join_iff (hne : ∀ x ∈ names, x ≠ []) (hne' : ∀ x ∈ names', x ≠ []) :
    Text.join "," names = Text.join "," names' ↔
      (names.map pieces).flatten = (names'.map pieces).flatten := by
  by_cases hnames : names = []
  · have hnil : Text.join "," [] = [] := rfl
    rw [hnames, hnil, eq_comm, join_eq_nil hne', List.map_nil, List.flatten_nil, eq_comm (a := []),
      flatten_pieces_eq_nil]
  · by_cases hnames' : names' = []
    · have hnil : Text.join "," [] = [] := rfl
      rw [hnames', hnil, join_eq_nil hne, List.map_nil, List.flatten_nil, flatten_pieces_eq_nil]
    · rw [← pieces_join hnames, ← pieces_join hnames']
      exact pieces_injective.eq_iff.symm

namespace Graph

variable {g r : Graph} {t t' : Text}

theorem mem_outputNames : x ∈ g.outputNames ↔ ∃ op ∈ g.outputs, op.dest.name = x := by
  rw [g.outputNames_perm.mem_iff, List.mem_map]

theorem outputNames_eq_iff : g.outputNames = r.outputNames ↔
    (g.outputs.map (·.dest.name)).Perm (r.outputs.map (·.dest.name)) := by
  constructor
  · intro h
    exact g.outputNames_perm.symm.trans (h ▸ r.outputNames_perm)
  · exact outputNames_eq

theorem outputNames_ne_nil (h : parse t = .ok g) : ∀ x ∈ g.outputNames, x ≠ [] := by
  obtain ⟨sts, hstated⟩ := exists_stated h
  intro x hx
  obtain ⟨op, hop, rfl⟩ := mem_outputNames.1 hx
  exact (hstated.isName_of_mem (hstated.dest_mem (mem_outputs.1 hop).1)).word.1

/-- What the names of the outputs, in their order, fall into. -/
def outputPieces (g : Graph) : List (List Text) := g.outputNames.map pieces

theorem outputPieces_eq_iff : g.outputPieces = r.outputPieces ↔
    (g.outputs.map (·.dest.name)).Perm (r.outputs.map (·.dest.name)) := by
  rw [outputPieces, outputPieces, pieces_injective.list_map.eq_iff, outputNames_eq_iff]

theorem flatten_outputPieces (h : ∀ op ∈ g.outputs, comma ∉ op.dest.name) :
    g.outputPieces.flatten = g.outputNames := by
  have hsingle : ∀ x ∈ g.outputNames, pieces x = [x] := by
    intro x hx
    obtain ⟨op, hop, rfl⟩ := mem_outputNames.1 hx
    exact pieces_of_notMem (h op hop)
  rw [outputPieces, List.map_congr_left hsingle, ← List.flatMap_def, List.flatMap_singleton']

/-- Of two circuits that were read, the second passes the audit against the first if and only if
the sorted names of their outputs fall into the same pieces, one after the other, and the second has
no `mov`, has single assignment and can be written. The outputs of the two have the same names,
counted as often as they occur, if and only if moreover each name falls into the same pieces. So if
no name of an output holds a comma, the audit compares the names. -/
theorem audit_compares_pieces (h : parse t = .ok g) (h' : parse t' = .ok r) :
    (g.audit r = .ok () ↔ g.outputPieces.flatten = r.outputPieces.flatten ∧
      (∀ op ∈ r.operations, op.opcode ≠ .mov) ∧ SingleAssignment r.operations ∧
        r.writable = .ok ()) ∧
    (g.outputPieces = r.outputPieces ↔
      (g.outputs.map (·.dest.name)).Perm (r.outputs.map (·.dest.name))) ∧
    ((∀ op ∈ g.outputs ++ r.outputs, comma ∉ op.dest.name) → (g.audit r = .ok () ↔
      (g.outputs.map (·.dest.name)).Perm (r.outputs.map (·.dest.name)) ∧
        (∀ op ∈ r.operations, op.opcode ≠ .mov) ∧ SingleAssignment r.operations ∧
          r.writable = .ok ())) := by
  have hpieces : Text.join "," g.outputNames = Text.join "," r.outputNames ↔
      g.outputPieces.flatten = r.outputPieces.flatten :=
    join_eq_join_iff (outputNames_ne_nil h) (outputNames_ne_nil h')
  refine ⟨?_, outputPieces_eq_iff, fun hcomma => ?_⟩
  · rw [audit_eq_ok, hpieces]
  · obtain ⟨hg, hr⟩ := List.forall_mem_append.1 hcomma
    rw [audit_eq_ok, hpieces, flatten_outputPieces hg, flatten_outputPieces hr, outputNames_eq_iff]

/-- Lines that put out a constant under some names. -/
def constantsText (names : List Text) : Text := names.flatMap (· ++ " = out'1 1\n")

def constants (names : List Text) : Graph where
  operations := names.map fun x => ⟨⟨x, 1, .wire, 0⟩, 1, .output, [⟨"1", 1, .constant, 0⟩]⟩

theorem swapped_outputs_audit :
    parse (constantsText ["b", "a"]) = .ok (constants ["b", "a"]) ∧
      parse (constantsText ["a", "b"]) = .ok (constants ["a", "b"]) ∧
      (∀ op ∈ (constants ["b", "a"]).outputs ++ (constants ["a", "b"]).outputs,
        comma ∉ op.dest.name) ∧
      (constants ["b", "a"]).outputPieces = (constants ["a", "b"]).outputPieces ∧
      (constants ["b", "a"]).audit (constants ["a", "b"]) = .ok () := by
  have hswapped : parse (constantsText ["b", "a"]) = .ok (constants ["b", "a"]) := by cbv
  have hsorted : parse (constantsText ["a", "b"]) = .ok (constants ["a", "b"]) := by cbv
  have hcomma : ∀ op ∈ (constants ["b", "a"]).outputs ++ (constants ["a", "b"]).outputs,
      comma ∉ op.dest.name := by decide
  have hperm : ((constants ["b", "a"]).outputs.map (·.dest.name)).Perm
      ((constants ["a", "b"]).outputs.map (·.dest.name)) := by decide
  obtain ⟨-, hpieces, haudit⟩ := audit_compares_pieces hswapped hsorted
  refine ⟨hswapped, hsorted, hcomma, hpieces.2 hperm, (haudit hcomma).2 ⟨hperm, ?_⟩⟩
  refine ⟨by decide, ?_, by decide⟩
  unfold SingleAssignment
  decide

/-- Two outputs are replaced by one whose name is theirs with a comma in between. -/
theorem joined_outputs_pass :
    parse (constantsText ["a", "b"]) = .ok (constants ["a", "b"]) ∧
      parse (constantsText ["a,b"]) = .ok (constants ["a,b"]) ∧
      (constants ["a", "b"]).audit (constants ["a,b"]) = .ok () ∧
      ¬((constants ["a", "b"]).outputs.map (·.dest.name)).Perm
        ((constants ["a,b"]).outputs.map (·.dest.name)) := by
  refine ⟨by cbv, by cbv, by cbv, ?_⟩
  decide

end Graph

end Netlist
