import Mathlib
import Netlist.Proofs.Legible

/-!
# Writing and reading circuits

The text of a circuit lists a statement for each memory and each operation. If the circuit is
legible and closed, these statements are read as the circuit without its tags: every source is a
memory or a destination, which its name finds among the statements, or a constant, whose name is
read as that constant.

A circuit that was read and can be written is legible and closed, and its lines are no longer than
those it was read from. So reading its text gives a circuit with the same outline, which has the
same text. An optimized circuit is legible too. If it is closed and its lines are short, its text
stands for it in the same sense.
-/

namespace Netlist.Graph

variable {g r : Graph} {v : Node} {op : Operation} {read : List Located} {src : Text}

/-- The statements of a circuit's text. -/
def listing (g : Graph) : List Statement :=
  g.memories.map Node.declaration ++ g.operations.map Operation.statement

theorem declarationLine_eq (h : v.width.isKnown = true) :
    declarationLine v = v.declaration.line ++ [Text.lineFeed] := by
  have hmark : (" = mem'" : Text) =
      32 :: (("=" : Text) ++ 32 :: (("mem" : Text) ++ [quoteMark])) := by decide
  have hspace : (" " : Text) = [32] := by decide
  have hfeed : ("\n" : Text) = [Text.lineFeed] := by decide
  rw [declarationLine, Node.declaration, Statement.line, Statement.words, Text.join_cons_cons,
    Text.join_cons_cons, Text.join_cons_cons, Text.join_singleton, Width.suffix_of_isKnown h, hmark,
    hspace, hfeed]
  simp

theorem print_eq_listing (h : ∀ v ∈ g.memories, v.width.isKnown = true) :
    g.print = (g.listing.map Statement.line).flatMap (· ++ [Text.lineFeed]) := by
  have hmemories : g.memories.flatMap declarationLine =
      g.memories.flatMap fun v => v.declaration.line ++ [Text.lineFeed] :=
    List.flatMap_congr fun v hv => declarationLine_eq (h v hv)
  have hops : g.operations.flatMap operationLine =
      g.operations.flatMap fun op => op.statement.line ++ [Text.lineFeed] := by
    have hfeed : ("\n" : Text) = [Text.lineFeed] := by decide
    refine List.flatMap_congr fun op _ => ?_
    rw [operationLine, hfeed]
    rfl
  rw [print, hmemories, hops, listing]
  simp [List.flatMap_map]

theorem isGiven_eq_false : isGiven v = false ↔ v.kind = .wire := by
  cases hkind : v.kind <;> simp [isGiven, Node.isConstant, Node.isMemory, hkind]

namespace Legible

variable (h : g.Legible)

include h

theorem mem_nodes_of_mem_defined (hv : v ∈ g.memories ++ g.operations.map Operation.dest) :
    v ∈ g.nodes ∧ v.isConstant = false := by
  rcases List.mem_append.1 hv with hv | hv
  · obtain ⟨hv, hm⟩ := List.mem_filter.1 hv
    exact ⟨hv, Node.isConstant_of_isMemory hm⟩
  · obtain ⟨op, hop, rfl⟩ := List.mem_map.1 hv
    have hkind := isGiven_eq_false.1 (h.wellformed.produced op hop)
    exact ⟨dest_mem_nodes hop, by simp [Node.isConstant, hkind]⟩

theorem isName_of_mem_defined (hv : v ∈ g.memories ++ g.operations.map Operation.dest) :
    IsName v.name := by
  obtain ⟨hv, hc⟩ := h.mem_nodes_of_mem_defined hv
  exact (h.nodes v hv).named hc

theorem listing_legible : ∀ s ∈ g.listing, s.Legible := by
  intro s hs
  rcases List.mem_append.1 hs with hs | hs
  · obtain ⟨v, hv, rfl⟩ := List.mem_map.1 hs
    have hname := h.isName_of_mem_defined (List.mem_append_left _ hv)
    obtain ⟨hv, hm⟩ := List.mem_filter.1 hv
    have hlegible := h.nodes v hv
    exact ⟨hname, .inr hlegible.fits, hlegible.depth hm⟩
  · obtain ⟨op, hop, rfl⟩ := List.mem_map.1 hs
    have hname := h.isName_of_mem_defined (List.mem_append_right _ (List.mem_map_of_mem hop))
    refine ⟨hname, h.opcodes op hop, .inr ?_, ?_⟩
    · rw [h.wellformed.width_eq op hop]
      exact (h.nodes _ (dest_mem_nodes hop)).fits
    · exact List.forall_mem_map.2 fun v hv => (h.nodes v (source_mem_nodes hop hv)).isWord

theorem node_statement (hop : op ∈ g.operations) : op.statement.node = op.dest.untagged := by
  have hkind := isGiven_eq_false.1 (h.wellformed.produced op hop)
  rw [Operation.statement, Statement.node, h.wellformed.width_eq op hop, Node.untagged, hkind]

theorem map_node_listing : g.listing.map Statement.node =
    (g.memories ++ g.operations.map Operation.dest).map Node.untagged := by
  have hmemory : ∀ v ∈ g.memories, v.declaration.node = v.untagged := by
    rintro ⟨name, width, kind, tag⟩ hv
    have hm := (List.mem_filter.1 hv).2
    cases kind with
    | wire => cases hm
    | constant => cases hm
    | memory depth => rfl
  rw [listing, List.map_append, List.map_append, List.map_map, List.map_map, List.map_map]
  exact congrArg₂ _ (List.map_congr_left hmemory) (List.map_congr_left fun op => h.node_statement)

theorem nodup_names_listing : ((g.listing.map Statement.node).map Node.name).Nodup := by
  have hnodup : (g.memories ++ g.operations.map Operation.dest).Nodup := by
    refine List.nodup_append.2 ⟨g.nodup_nodes.filter _,
      singleAssignment_eq_ok.1 h.wellformed.assigned, ?_⟩
    rintro v hv _ hd rfl
    obtain ⟨op, hop, rfl⟩ := List.mem_map.1 hd
    have hgiven := h.wellformed.produced op hop
    rw [isGiven, (List.mem_filter.1 hv).2, Bool.or_true] at hgiven
    cases hgiven
  rw [h.map_node_listing, List.map_map]
  refine List.Nodup.map_on (fun u hu v hv hname => ?_) hnodup
  exact h.wellformed.named u (h.mem_nodes_of_mem_defined hu).1 v (h.mem_nodes_of_mem_defined hv).1
    hname

theorem nodup_listing : (g.listing.map Statement.dest).Nodup := by
  have hnames := h.nodup_names_listing
  rwa [List.map_map, Function.comp_def, funext Statement.name_node] at hnames

theorem argument_listing (hclosed : g.closed = .ok ()) (hop : op ∈ g.operations)
    (hv : v ∈ op.sources) :
    argument (g.listing.map Statement.node) v.name = .ok v.untagged := by
  have hnode : v ∈ g.nodes := source_mem_nodes hop hv
  have hdefined (hd : v ∈ g.memories ++ g.operations.map Operation.dest) :
      argument (g.listing.map Statement.node) v.name = .ok v.untagged := by
    refine argument_of_mem (v := v.untagged) h.nodup_names_listing ?_
    rw [h.map_node_listing]
    exact List.mem_map_of_mem hd
  rcases (closed_eq_ok.1 hclosed).2 op hop v hv with hgiven | ⟨p, hp, hd⟩
  · rcases Bool.or_eq_true_iff.1 hgiven with hc | hm
    · obtain ⟨-, hliteral, hread⟩ := (h.nodes v hnode).constant hc
      rw [argument_of_isLiteral (fun u hu => ?_) hliteral, hread]
      rw [h.map_node_listing] at hu
      obtain ⟨p, hp, rfl⟩ := List.mem_map.1 hu
      exact (h.isName_of_mem_defined hp).notLiteral
    · exact hdefined (List.mem_append_left _ (List.mem_filter.2 ⟨hnode, hm⟩))
  · exact hdefined (List.mem_append_right _ (List.mem_map.2 ⟨p, hp, hd⟩))

theorem operation?_statement (hclosed : g.closed = .ok ()) (hop : op ∈ g.operations) {s : Located}
    (hs : s.statement = op.statement) :
    operation? (g.listing.map Statement.node) s = .ok (some op.untagged) := by
  have hargs : (op.sources.map Node.name).mapM (argument (g.listing.map Statement.node)) =
      .ok (op.sources.map Node.untagged) := by
    rw [mapM_eq_ok, List.forall₂_map_left_iff, List.forall₂_map_right_iff, List.forall₂_same]
    exact fun v hv => h.argument_listing hclosed hop hv
  have hnode := h.node_statement hop
  rw [operation?, hs]
  simp only [Operation.statement] at hnode ⊢
  simp only [hargs, hnode, Operation.untagged]

theorem ofStatements_eq (hclosed : g.closed = .ok ())
    (hread : read.map Located.statement = g.listing) : ofStatements read = .ok g.untagged := by
  have hdefined : read.map (·.statement.node) = g.listing.map Statement.node := by
    rw [← hread, List.map_map]
    rfl
  let outcomes : List (Option Operation) :=
    g.memories.map (fun _ => none) ++ g.operations.map (fun op => some op.untagged)
  have hlisting : g.listing.Forall₂ (fun st o => ∀ s : Located, s.statement = st →
      operation? (g.listing.map Statement.node) s = .ok o) outcomes := by
    refine List.rel_append ?_ ?_
    · rw [List.forall₂_map_left_iff, List.forall₂_map_right_iff, List.forall₂_same]
      intro v _ s hs
      rw [operation?, hs]
      rfl
    · rw [List.forall₂_map_left_iff, List.forall₂_map_right_iff, List.forall₂_same]
      exact fun op hop s hs => h.operation?_statement hclosed hop hs
  have houtcomes : read.mapM (operation? (g.listing.map Statement.node)) = .ok outcomes := by
    rw [← hread, List.forall₂_map_left_iff] at hlisting
    rw [mapM_eq_ok, ← hread]
    exact hlisting.imp fun s o hso => hso s rfl
  have hops : outcomes.filterMap id = g.operations.map Operation.untagged := by
    simp [outcomes, List.filterMap_append, List.filterMap_map]
  have hmemories : (g.listing.map Statement.node).filter Node.isMemory =
      g.memories.map Node.untagged := by
    have hfirst : g.memories.filter (Node.isMemory ∘ Node.untagged) = g.memories :=
      List.filter_eq_self.2 fun v hv => (List.mem_filter.1 hv).2
    have hlast : (g.operations.map Operation.dest).filter (Node.isMemory ∘ Node.untagged) = [] := by
      rw [List.filter_eq_nil_iff]
      rintro _ hd hm
      obtain ⟨op, hop, rfl⟩ := List.mem_map.1 hd
      have hgiven := h.wellformed.produced op hop
      rw [isGiven, show op.dest.isMemory = true from hm, Bool.or_true] at hgiven
      cases hgiven
    rw [h.map_node_listing, List.filter_map, List.filter_append, hfirst, hlast, List.append_nil]
  rw [ofStatements, hdefined]
  refine bind_eq_ok.2 ⟨outcomes, houtcomes, ?_⟩
  rw [hops, hmemories]
  rfl

theorem lines_print : Text.lines g.print = g.listing.map Statement.line := by
  rw [print_eq_listing fun v hv => (h.nodes v (List.mem_of_mem_filter hv)).fits.isKnown]
  refine Text.lines_flatMap (List.forall_mem_map.2 fun s hs => ?_)
  exact Text.lineFeed_notMem_join (h.listing_legible s hs).words

theorem parse_print (hclosed : g.closed = .ok ())
    (hshort : ∀ line ∈ Text.lines g.print, line.length < lineLimit) :
    parse g.print = .ok g.untagged := by
  rw [h.lines_print, List.forall_mem_map] at hshort
  obtain ⟨read, hread, hsts⟩ :=
    exists_readLines 0 [] h.listing_legible hshort (by simp) h.nodup_listing
  refine bind_eq_ok.2 ⟨read, ?_, h.ofStatements_eq hclosed (by simpa using hsts)⟩
  rw [statements, h.lines_print, hread]

end Legible

theorem Legible.sized (h : g.Legible) : g.Sized where
  operands op hop v hv := (h.nodes v (mem_nodes.2 (.inl ⟨op, hop, hv⟩))).fits.isKnown
  memories v hv hm := ⟨(h.nodes v hv).fits.isKnown, ((h.nodes v hv).depth hm).isKnown⟩

theorem Sized.untagged (hs : g.Sized)
    (hnamed : ∀ u ∈ g.nodes, ∀ v ∈ g.nodes, u.name = v.name → u = v)
    (hdecl : ∀ v ∈ g.declared, v.isMemory = true) : g.untagged.Sized where
  operands op hop v hv := by
    obtain ⟨p, hp, rfl⟩ := List.mem_map.1 hop
    rw [Operation.operands_untagged] at hv
    obtain ⟨u, hu, rfl⟩ := List.mem_map.1 hv
    exact hs.operands p hp u hu
  memories v hv hm := by
    rw [nodes_untagged hnamed hdecl] at hv
    obtain ⟨u, hu, rfl⟩ := List.mem_map.1 hv
    exact hs.memories u hu hm

theorem write_eq_ok (hs : g.Sized) : g.write = .ok g.print :=
  bind_eq_ok.2 ⟨(), writable_eq_ok.2 hs, rfl⟩

/-- The text of a legible circuit stands for the circuit. -/
theorem Legible.exists_parse (h : g.Legible) (hclosed : g.closed = .ok ())
    (hdecl : ∀ v ∈ g.declared, v.isMemory = true)
    (hshort : ∀ line ∈ Text.lines g.print, line.length < lineLimit) :
    ∃ out r, g.write = .ok out ∧ parse out = .ok r ∧ r.outline = g.outline ∧ r.write = .ok out := by
  have hnamed := h.wellformed.named
  refine ⟨g.print, g.untagged, write_eq_ok h.sized, h.parse_print hclosed hshort,
    outline_untagged hnamed hdecl, ?_⟩
  rw [← print_untagged hnamed hdecl]
  exact write_eq_ok (h.sized.untagged hnamed hdecl)

theorem Stated.listing_subset {sts : List Statement} (h : g.Stated sts) : g.listing ⊆ sts := by
  intro s hs
  rcases List.mem_append.1 hs with hs | hs
  · obtain ⟨v, hv, rfl⟩ := List.mem_map.1 hs
    obtain ⟨hv, hm⟩ := List.mem_filter.1 hv
    rcases argument_spec (h.argument_eq hv) with ⟨hdef, -⟩ | ⟨-, hconst, -⟩ | ⟨-, hwire⟩
    · obtain ⟨s, hs, rfl⟩ := List.mem_map.1 hdef
      rwa [Statement.declaration_node hm]
    · obtain ⟨value, width, n, -, -, hnode⟩ := literal_eq_ok hconst
      rw [hnode] at hm
      cases hm
    · rw [hwire] at hm
      cases hm
  · obtain ⟨op, hop, rfl⟩ := List.mem_map.1 hs
    exact h.operation op hop

/-- A circuit that was read and can be written is read back from its text, and what is read back has
the same text. -/
theorem read_circuit_is_read_back (hparse : parse src = .ok g) (hcheck : g.writable = .ok ()) :
    ∃ out r, g.write = .ok out ∧ parse out = .ok r ∧ r.outline = g.outline ∧ r.write = .ok out := by
  have hsized := writable_eq_ok.1 hcheck
  have hlegible := legible_of_parse hparse hsized
  obtain ⟨sts, hst⟩ := exists_stated hparse
  refine hlegible.exists_parse ((parsed_of_parse hparse).closed hsized)
    (fun _ => hst.isMemory_of_mem_declared) ?_
  rw [hlegible.lines_print, List.forall_mem_map]
  exact fun s hs => hst.short s (hst.listing_subset hs)

theorem crowded_is_read_back :
    parse crowdedText = .ok crowded ∧ crowded.writable = .ok () ∧
      ∃ out r, crowded.write = .ok out ∧ parse out = .ok r ∧ r.outline = crowded.outline ∧
        r.write = .ok out := by
  have hcheck : crowded.writable = .ok () := by decide
  exact ⟨parse_crowdedText, hcheck, read_circuit_is_read_back parse_crowdedText hcheck⟩

/-- The text of an optimized circuit stands for that circuit, if the circuit is closed and its lines
are short enough to be read. -/
theorem optimized_circuit_is_read_back (hparse : parse src = .ok g) (hcheck : g.writable = .ok ())
    (hr : g.optimize = .ok r) (hclosed : r.closed = .ok ())
    (hshort : ∀ line ∈ Text.lines r.print, line.length < lineLimit) :
    ∃ out r', r.write = .ok out ∧ parse out = .ok r' ∧ r'.outline = r.outline := by
  have hlegible := legible_of_optimize hr (legible_of_parse hparse (writable_eq_ok.1 hcheck))
  have hdecl : ∀ v ∈ r.declared, v.isMemory = true := by
    obtain ⟨g', d, -, -, hr⟩ := optimize_eq_ok.1 hr
    rw [(eliding_of_eliminateCopies hr).declared]
    exact fun v hv => (List.mem_filter.1 hv).2
  obtain ⟨out, r', hwrite, hread, houtline, -⟩ := hlegible.exists_parse hclosed hdecl hshort
  exact ⟨out, r', hwrite, hread, houtline⟩

/-- The sum with an input named like a temporary, after its constants have cancelled. -/
def crowdedOptimized : Graph where
  operations :=
    [⟨⟨"x", 8, .wire, 0⟩, 8, .output, [⟨"OPT1_1", 8, .wire, 3⟩]⟩,
      ⟨⟨"OPT1_1", 8, .wire, 3⟩, 8, .xor, [⟨"é", 8, .wire, 0⟩, ⟨"OPT1_0", 8, .wire, 0⟩]⟩,
      ⟨⟨"é", 8, .wire, 0⟩, 8, .rd,
        [⟨"1", 1, .constant, 0⟩, ⟨"m", 8, .memory 16, 0⟩, ⟨"OPT1_0", 8, .wire, 0⟩]⟩,
      ⟨⟨"OPT1_0", 8, .wire, 0⟩, 8, .input, []⟩]
  declared := [⟨"m", 8, .memory 16, 0⟩]
  generation := 3

theorem crowdedOptimized_is_read_back :
    parse crowdedText = .ok crowded ∧ crowded.writable = .ok () ∧
      crowded.optimize = .ok crowdedOptimized ∧ crowdedOptimized.closed = .ok () ∧
      (∀ line ∈ Text.lines crowdedOptimized.print, line.length < lineLimit) ∧
      ∃ out r', crowdedOptimized.write = .ok out ∧ parse out = .ok r' ∧
        r'.outline = crowdedOptimized.outline := by
  have hcheck : crowded.writable = .ok () := by decide
  have hr : crowded.optimize = .ok crowdedOptimized := by cbv
  have hclosed : crowdedOptimized.closed = .ok () := by decide
  have hlines : Text.lines crowdedOptimized.print = ["m = mem'8 16", "x = out'8 OPT1_1",
      "OPT1_1 = xor'8 é OPT1_0", "é = rd'8 1 m OPT1_0", "OPT1_0 = in'8"] := by cbv
  have hshort : ∀ line ∈ Text.lines crowdedOptimized.print, line.length < lineLimit := by
    rw [hlines]
    decide
  exact ⟨parse_crowdedText, hcheck, hr, hclosed, hshort,
    optimized_circuit_is_read_back parse_crowdedText hcheck hr hclosed hshort⟩

end Netlist.Graph
