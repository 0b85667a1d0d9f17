import Mathlib
import Netlist.Proofs.Invariant
import Netlist.Proofs.Outline
import Netlist.Proofs.Wellformed

/-!
# Circuits that can be written and read

A node is legible if its name is a word that is read as that node and its width and depth do not
pass the limit. A circuit that was read and can be written has legible nodes only. For a constant
without a width of its own this holds because a line is short: a numeral is at most four times as
wide as it is long.

A temporary is as wide as some node that was there before, and its name is a word that neither looks
like a constant nor opens a comment. So all passes keep circuits legible.
-/

namespace Netlist

variable {g r d : Graph} {v : Node} {word t : Text} {sts : List Statement}

theorem Node.isConstant_of_isMemory (h : v.isMemory = true) : v.isConstant = false := by
  cases hkind : v.kind <;> simp [isConstant, isMemory, hkind] at h ⊢

structure Node.Legible (v : Node) : Prop where
  fits : v.width.Fits
  depth : v.isMemory = true → v.depth.Fits
  named : v.isConstant = false → IsName v.name
  constant : v.isConstant = true →
    Text.IsWord v.name ∧ isLiteral v.name = true ∧ literal v.name = .ok v.untagged

theorem Node.Legible.isWord (h : v.Legible) : Text.IsWord v.name := by
  cases hc : v.isConstant with
  | false => exact (h.named hc).word
  | true => exact (h.constant hc).1

theorem literal_fits (h : literal word = .ok v) (hlen : word.length < lineLimit) :
    v.width.Fits := by
  obtain ⟨value, width, n, hsplit, hn, rfl⟩ := literal_eq_ok h
  obtain ⟨hwidth, hword⟩ := splitWidth_eq_ok hsplit
  rcases hwidth with rfl | hwidth
  · have hbits := magnitude?_width hn
    have hlimit : 4 * lineLimit ≤ widthLimit := by decide
    rw [List.length_append] at hword
    change Width.Fits (if n = 0 then 1 else Numeral.bitLength n)
    split_ifs
    · exact ⟨by decide, by decide⟩
    · exact ⟨Int.natCast_nonneg _, Int.ofNat_le.2 (by omega)⟩
  · simpa [hwidth.isKnown] using hwidth

theorem isName_temporaryName (scope n : ℕ) : IsName (Minter.temporaryName scope n) := by
  have hopt : ("OPT" : Text) = [79, 80, 84] := by decide
  have hbar : Text.Graphic "_" := by decide
  have hgraphic : (Minter.temporaryName scope n).Graphic :=
    (((show Text.Graphic "OPT" by decide).append (Text.graphic_decimal scope)).append hbar).append
      (Text.graphic_decimal n)
  have hhead : ∃ rest, Minter.temporaryName scope n = 79 :: rest := by
    rw [Minter.temporaryName, hopt]
    exact ⟨_, rfl⟩
  obtain ⟨rest, hrest⟩ := hhead
  exact ⟨hgraphic.isWord (by simp [hrest]), by rw [hrest]; rfl, by simp [hrest]⟩

namespace Graph

/-- What has to hold of a circuit so that its lines say what it is. -/
structure Legible (g : Graph) : Prop where
  wellformed : g.Wellformed
  nodes : ∀ v ∈ g.nodes, v.Legible
  opcodes : ∀ op ∈ g.operations, op.opcode ∈ Opcode.assigned

theorem Sized.isKnown_of_mem (hs : g.Sized) (hdecl : ∀ v ∈ g.declared, v.isMemory = true)
    (hv : v ∈ g.nodes) : v.width.isKnown = true := by
  rcases mem_nodes.1 hv with ⟨op, hop, hv⟩ | hmem
  · exact hs.operands op hop v hv
  · exact (hs.memories v hv (hdecl v hmem)).1

namespace Stated

variable (h : g.Stated sts)

include h

theorem isMemory_of_mem_declared (hv : v ∈ g.declared) : v.isMemory = true := by
  rw [h.declared] at hv
  exact (List.mem_filter.1 hv).2

theorem source_name {op : Operation} (hop : op ∈ g.operations) (hv : v ∈ op.sources) :
    Text.IsWord v.name ∧ v.name.length < lineLimit := by
  have hmem := h.operation op hop
  have harg : v.name ∈ op.sources.map Node.name := List.mem_map_of_mem hv
  have hword : v.name ∈ op.statement.words := by simp [Operation.statement, Statement.words, harg]
  exact ⟨(h.legible _ hmem).words _ hword, (Text.length_le_join hword).trans_lt (h.short _ hmem)⟩

theorem constant_read (hv : v ∈ g.nodes) (hc : v.isConstant = true) :
    ∃ op ∈ g.operations, v ∈ op.sources := by
  rcases mem_nodes.1 hv with ⟨op, hop, hv⟩ | hv
  · rcases List.mem_cons.1 hv with rfl | hv
    · rw [h.dest op hop] at hc
      cases hc
    · exact ⟨op, hop, hv⟩
  · rw [Node.isConstant_of_isMemory (h.isMemory_of_mem_declared hv)] at hc
    cases hc

theorem node_legible (hs : g.Sized) (hv : v ∈ g.nodes) : v.Legible := by
  have hknown := hs.isKnown_of_mem (fun _ => h.isMemory_of_mem_declared) hv
  rcases argument_spec (h.argument_eq hv) with ⟨hdef, -⟩ | ⟨hliteral, hconst, -⟩ | ⟨-, hwire⟩
  · have hname := h.isName_of_mem hdef
    obtain ⟨s, hmem, rfl⟩ := List.mem_map.1 hdef
    have hlegible := h.legible s hmem
    cases s with
    | memory dest width depth =>
      have hfits := Width.fits_of_isKnown hlegible.2.1 hknown
      exact ⟨hfits, fun _ => hlegible.2.2, fun _ => hname, nofun⟩
    | operation dest opcode width args =>
      have hfits := Width.fits_of_isKnown hlegible.2.2.1 hknown
      exact ⟨hfits, nofun, fun _ => hname, nofun⟩
  · obtain ⟨value, width, n, -, -, hnode⟩ := literal_eq_ok hconst
    have hc : v.isConstant = true := literal_isConstant hconst
    obtain ⟨op, hop, hread⟩ := h.constant_read hv hc
    obtain ⟨hword, hlen⟩ := h.source_name hop hread
    have huntagged : v.untagged = v := by
      rw [hnode]
      rfl
    refine ⟨literal_fits hconst hlen, fun hm => ?_, fun hn => ?_, fun _ => ⟨hword, hliteral, ?_⟩⟩
    · rw [hnode] at hm
      cases hm
    · rw [hc] at hn
      cases hn
    · rwa [huntagged]
  · rw [hwire] at hknown
    cases hknown

end Stated

theorem legible_of_parse (h : parse t = .ok g) (hs : g.Sized) : g.Legible := by
  obtain ⟨sts, hst⟩ := exists_stated h
  refine ⟨wellformed_of_parse h, fun v hv => hst.node_legible hs hv, fun op hop => ?_⟩
  exact (hst.legible _ (hst.operation op hop)).2.1

theorem Pruning.legible (h : g.Pruning d) (hg : g.Legible) : d.Legible where
  wellformed := h.wellformed hg.wellformed
  nodes v hv := hg.nodes v (h.nodes_subset hv)
  opcodes op hop := hg.opcodes op (h.subset hop)

theorem Eliding.legible (h : g.Eliding r) (hg : g.Legible) : r.Legible where
  wellformed := h.wellformed hg.wellformed
  nodes v hv := hg.nodes v (h.nodes_subset hv)
  opcodes op hop := by
    obtain ⟨p, hp, -, rfl⟩ := h.mem_result.1 hop
    exact hg.opcodes p hp

end Graph

namespace Bitwise.Balancing

variable {b : Bitwise} {kept : List Operation} {rewrites : List Rewrite}
  (h : Balancing b g r kept rewrites)

include h

theorem temporary_legible (hg : g.Legible) (hv : v ∈ (b.trees rewrites).map Operation.dest) :
    v.Legible := by
  obtain ⟨p, hp, u, hu, hwidth⟩ := h.temporary_width hv
  have hfits := (hg.nodes u (Graph.source_mem_nodes hp hu)).fits
  have hgiven := h.temporary_isGiven hv
  rw [map_dest_trees] at hv
  obtain ⟨scope, n, -, hname⟩ := h.fresh.scope v hv
  simp only [Graph.isGiven, Bool.or_eq_false_iff] at hgiven
  refine ⟨hwidth ▸ hfits, fun hm => ?_, fun _ => ?_, fun hc => ?_⟩
  · rw [hgiven.2] at hm
    cases hm
  · rw [hname]
    exact isName_temporaryName scope n
  · rw [hgiven.1] at hc
    cases hc

theorem legible (hg : g.Legible) : r.Legible where
  wellformed := h.wellformed hg.wellformed
  nodes v hv := (h.mem_nodes_or_temporary hv).elim (hg.nodes v) (h.temporary_legible hg)
  opcodes op hop := by
    rcases h.opcode_cases hop with hmov | ⟨p, hp, hcode⟩
    · rw [hmov]
      decide
    · exact hcode ▸ hg.opcodes p hp

end Bitwise.Balancing

theorem Graph.legible_of_optimize (h : g.optimize = .ok r) (hg : g.Legible) : r.Legible := by
  obtain ⟨g', d, hbalanced, hd, hr⟩ := Graph.optimize_eq_ok.1 h
  have hg' : g'.Legible := by
    refine foldlM_invariant (I := fun _ s => s.Legible) ?_ hg hbalanced
    intro b rest s s' hs hb
    obtain ⟨kept, rewrites, hb⟩ := Bitwise.exists_balancing hb
    exact hb.legible hs
  exact (Graph.eliding_of_eliminateCopies hr).legible
    ((Graph.pruning_of_eliminateDeadCode hd).legible hg')

end Netlist
