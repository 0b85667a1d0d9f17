import Mathlib
import Netlist.Proofs.Numeral
import Netlist.Proofs.Outcome
import Netlist.Proofs.Pipeline

/-!
# What the statistics describe

A run that follows its passes to the end has finished each of them on what the one before has made,
so the counts of its record lead from the size of the input to the size of the result. What the
passes remove adds up to the difference of the two, and the foot of the table that is printed shows
that difference as well. A run that breaks off has finished the passes before the one that fails; it
dumps what they have made, prints no table and leaves the record alone.

The record that a host keeps changes only with a run that succeeds. After any history of runs, on
any registries, it is therefore the record of the last run that succeeded, as a whole.
-/

namespace Netlist

variable {σ : Type} {times : ℕ → ℤ} {k : ℕ} {r : Registry (StateM σ)} {g h : Graph} {e : Error}
  {passes : List (Registration (StateM σ))} {s t : σ} {run : Run} {a z : ℤ}
  {records : List PassRecord} {w : Host} {layout : Layout}

namespace Registry

/-- A registry that has come about by registering and running. -/
inductive Made : Registry (StateM σ) → Prop
  | new : Made {}
  | register {r : Registry (StateM σ)} (p : Pass (StateM σ)) (s : Stage) : Made r →
      Made (r.register p s).2
  | run {r : Registry (StateM σ)} (layout : Layout) (dump diagnostics : Bool) (g : Graph) (w : Host)
      (s : σ) : Made r → Made (r.outcome layout dump diagnostics g w s).registry

theorem Made.stage_mem (h : r.Made) : ∀ a ∈ r.registrations, a.stage ∈ Stage.all := by
  induction h with
  | new => simp
  | register p s _ ih =>
    unfold Registry.register
    split_ifs with hstarted hstage
    · exact ih
    · exact List.forall_mem_append.2 ⟨ih, List.forall_mem_singleton.2 hstage⟩
    · exact ih
  | run layout dump diagnostics g w s _ ih =>
    rw [registry_outcome]
    exact ih

theorem made_of_ofTable (h : ofTable passes = .ok r) : r.Made := by
  refine foldlM_invariant (I := fun _ r => r.Made) (fun a _ r r' hr hstep => ?_) .new h
  have hmade := hr.register a.pass a.stage
  dsimp only at hstep
  cases hanswer : (r.register a.pass a.stage).1 with
  | error e =>
    rw [hanswer] at hstep
    cases hstep
  | ok =>
    rw [hanswer] at hstep
    cases hstep
    exact hmade

end Registry

namespace PassRecord

/-- The counts of each pass go on from those of the one before. -/
def Leads (a : ℤ) : List PassRecord → ℤ → Prop
  | [], z => a = z
  | r :: rs, z => r.before = a ∧ Leads r.after rs z

namespace Leads

theorem before_first (hl : Leads a records z) {r : PassRecord} (hr : records.head? = some r) :
    r.before = a := by
  cases records with
  | nil => cases hr
  | cons r' rs =>
    cases hr
    exact hl.1

theorem isChain (hl : Leads a records z) : records.IsChain fun r s => r.after = s.before := by
  induction records generalizing a with
  | nil => exact .nil
  | cons r rs ih =>
    refine List.isChain_cons.2 ⟨fun s hs => ?_, ih hl.2⟩
    exact (hl.2.before_first hs).symm

theorem after_last (hl : Leads a records z) {r : PassRecord} (hr : records.getLast? = some r) :
    r.after = z := by
  induction records generalizing a with
  | nil => cases hr
  | cons s rs ih =>
    cases rs with
    | nil =>
      cases hr
      exact hl.2
    | cons s' rs =>
      rw [List.getLast?_cons_cons] at hr
      exact ih hl.2 hr

theorem sum_removed (hl : Leads a records z) :
    ((records.map summary).map PassSummary.removed).sum = a - z := by
  induction records generalizing a with
  | nil =>
    have haz : a = z := hl
    simp [haz]
  | cons r rs ih =>
    obtain ⟨hr, hrs⟩ := hl
    rw [List.map_cons, List.map_cons, List.sum_cons, ih hrs, PassSummary.removed, summary, hr]
    dsimp only
    omega

theorem totalRow (hl : Leads a records z) (hne : records ≠ []) : totalRow? records =
    some [.text [], .text [], .text "total", .count a, .count z, .count (wrap (z - a)),
      .time (totalTime records)] := by
  cases records with
  | nil => exact absurd rfl hne
  | cons r rs =>
    obtain ⟨s, hs⟩ : ∃ s, (r :: rs).getLast? = some s :=
      ⟨_, List.getLast?_eq_some_getLast (List.cons_ne_nil r rs)⟩
    rw [totalRow?, hs, ← after_last hl hs, ← before_first hl rfl]
    rfl

end Leads

end PassRecord

/-- Printing a record is writing a sheet, whatever the layout and the effect of writing are. -/
def Prints (records : List PassRecord) (sheet : Sheet) : Prop :=
  ∀ (m : Type → Type) (layout : Layout) (write : Text → m Unit),
    renderRecords layout write records = write (layout.table sheet)

/-- The record of a host has one entry for each of some passes, in order. Its counts lead from the
size of one circuit to that of another, and so does the sum of what is removed. The table that is
printed shows the change by each pass in its row, and the change over all passes at its foot. -/
structure Describes (w : Host) (passes : List (Registration (StateM σ))) (g h : Graph) : Prop where
  entries : w.record.map (fun r => (r.stage, r.name)) = passes.map fun p => (p.stage, p.pass.name)
  summaries : w.summaries =
    w.record.map fun r => ⟨r.stage.name, r.name, r.before, r.after, r.elapsed⟩
  first : ∀ r, w.record.head? = some r → r.before = g.size
  next : w.record.IsChain fun r s => r.after = s.before
  last : ∀ r, w.record.getLast? = some r → r.after = h.size
  removed : (w.summaries.map PassSummary.removed).sum = (g.size : ℤ) - h.size
  table : ∃ sheet, Prints w.record sheet ∧ sheet.head[5]? = some (.text "Delta") ∧
    sheet.rows.map (·[5]?) = w.summaries.map (fun s => some (.count (wrap (-s.removed)))) ∧
    (w.record ≠ [] → ∃ x y title delta time,
      sheet.foot = some [x, y, title, .count g.size, .count h.size, .count (wrap delta), time] ∧
      -delta = (g.size : ℤ) - h.size ∧ (g.size < 2 ^ 63 → h.size < 2 ^ 63 → wrap delta = delta))

theorem deltas_recordSheet (records : List PassRecord) : (recordSheet records).rows.map (·[5]?) =
    (records.map PassRecord.summary).map fun s => some (.count (wrap (-s.removed))) := by
  have hrow (r : PassRecord) : some (Item.count (wrap (r.after - r.before))) =
      some (.count (wrap (-r.summary.removed))) := by
    rw [PassSummary.removed, neg_sub, PassRecord.summary]
  calc (recordSheet records).rows.map (·[5]?)
      = (records.zipIdx.map Prod.fst).map fun r => some (.count (wrap (r.after - r.before))) := by
        rw [recordSheet, List.map_map, List.map_map]
        rfl
    _ = (records.map PassRecord.summary).map fun s => some (.count (wrap (-s.removed))) := by
        rw [List.zipIdx_map_fst, List.map_map]
        exact List.map_congr_left fun r _ => hrow r

namespace Follows

theorem leads (hrun : Follows times k passes g s run t) (hok : run.result = .ok h) :
    PassRecord.Leads g.size run.records h.size := by
  induction hrun with
  | done =>
    cases hok
    rfl
  | failed => cases hok
  | passed _ _ ih => exact ⟨rfl, ih hok⟩

theorem entries (hrun : Follows times k passes g s run t) (hok : run.result = .ok h) :
    run.records.map (fun r => (r.stage, r.name)) = passes.map fun p => (p.stage, p.pass.name) := by
  induction hrun with
  | done => rfl
  | failed => cases hok
  | passed _ _ ih => exact congrArg (List.cons _) (ih hok)

theorem describes (hrun : Follows times k passes g s run t) (hok : run.result = .ok h)
    (hw : w.record = run.records) : Describes w passes g h := by
  have hleads := hrun.leads hok
  rw [← hw] at hleads
  refine ⟨hw ▸ hrun.entries hok, rfl, fun r => hleads.before_first, hleads.isChain,
    fun r => hleads.after_last, hleads.sum_removed, recordSheet w.record, fun _ _ _ => rfl, rfl,
    deltas_recordSheet w.record, fun hne => ?_⟩
  exact ⟨_, _, _, h.size - g.size, _, hleads.totalRow hne, by omega,
    fun _ _ => wrap_eq_self (by omega) (by omega)⟩

end Follows

/-- A run that is asked for, with a dump or a table if they are wanted. -/
structure Call (σ : Type) where
  registry : Registry (StateM σ)
  graph : Graph
  dump : Bool
  diagnostics : Bool

/-- A call with the host and the state of the passes that it finds. -/
structure Episode (σ : Type) extends Call σ where
  host : Host
  state : σ

namespace Episode

def outcome (c : Episode σ) (layout : Layout) : Outcome σ :=
  c.registry.outcome layout c.dump c.diagnostics c.graph c.host c.state

def order (c : Episode σ) : List (Registration (StateM σ)) :=
  c.registry.registrations.mergeSort Registration.notAfter

def Fails (c : Episode σ) (layout : Layout) : Prop := ∃ e, (c.outcome layout).result = .error e

/-- What the passes have made is dumped, if it is wanted. -/
def Dumps (c : Episode σ) (layout : Layout) (fs : List Finished) : Prop :=
  (c.outcome layout).host.dump =
    c.host.dump ++ if c.dump then fs.flatMap fun f => f.title ++ layout.graph f.after else []

/-- The call leaves the record alone, prints nothing and dumps what the passes before the one that
fails have made. -/
structure BreaksOff (c : Episode σ) (layout : Layout) (e : Error) : Prop where
  record : (c.outcome layout).host.record = c.host.record
  diagnostics : (c.outcome layout).host.diagnostics = c.host.diagnostics
  dump : ∃ done p rest fs last t e', c.order = done ++ p :: rest ∧
    Follows c.host.times c.host.readings done c.graph c.state ⟨fs, .ok last⟩ t ∧
    (p.pass.apply last).run t = (.error e', (c.outcome layout).state) ∧
    e = .within p.pass.name e' ∧ c.Dumps layout fs

/-- The call leaves a record of all passes, prints it if that is wanted, and dumps what they have
made. -/
structure Completes (c : Episode σ) (layout : Layout) (h : Graph) : Prop where
  describes : Describes (c.outcome layout).host c.order c.graph h
  diagnostics : ∃ sheet, Prints (c.outcome layout).host.record sheet ∧
    (c.outcome layout).host.diagnostics =
      c.host.diagnostics ++ if c.diagnostics then layout.table sheet else []
  dump : ∃ fs, (c.outcome layout).host.record = fs.map Finished.record ∧
    Follows c.host.times c.host.readings c.order c.graph c.state ⟨fs, .ok h⟩
      (c.outcome layout).state ∧ c.Dumps layout fs

variable {c : Episode σ}

theorem exists_follows (layout : Layout) (hc : c.registry.Made) : ∃ run n,
    Follows c.host.times c.host.readings c.order c.graph c.state run (c.outcome layout).state ∧
      (c.outcome layout).result = run.result ∧ (c.outcome layout).host =
        { c.host.after layout c.dump c.diagnostics run with readings := n } := by
  obtain ⟨run, t, n, hrun, houtcome⟩ :=
    c.registry.exists_follows layout c.dump c.diagnostics c.graph c.host c.state
  rw [Registry.schedule_eq_mergeSort hc.stage_mem] at hrun
  rw [outcome, houtcome]
  exact ⟨run, n, hrun, rfl, rfl⟩

theorem breaksOff (hc : c.registry.Made) (he : (c.outcome layout).result = .error e) :
    c.BreaksOff layout e := by
  obtain ⟨run, n, hrun, hresult, hhost⟩ := c.exists_follows layout hc
  have hfail : run.result = .error e := hresult.symm.trans he
  rw [Host.after_of_error _ _ _ _ hfail] at hhost
  refine ⟨by rw [hhost]; rfl, by rw [hhost]; rfl, ?_⟩
  obtain ⟨done, p, rest, last, u, e', horder, hdone, hp, herror⟩ := hrun.split_of_error hfail
  exact ⟨done, p, rest, _, last, u, e', horder, hdone, hp, herror, by rw [Dumps, hhost]; rfl⟩

theorem completes (hc : c.registry.Made) (hok : (c.outcome layout).result = .ok h) :
    c.Completes layout h := by
  obtain ⟨run, n, hrun, hresult, hhost⟩ := c.exists_follows layout hc
  have hdone : run.result = .ok h := hresult.symm.trans hok
  rw [Host.after_of_ok _ _ _ _ hdone] at hhost
  have hrecord : (c.outcome layout).host.record = run.records := by
    rw [hhost]
    rfl
  refine ⟨hrun.describes hdone hrecord, ⟨recordSheet run.records, ?_, by rw [hhost]; rfl⟩,
    run.finished, hrecord, ?_, by rw [Dumps, hhost]; rfl⟩
  · rw [hrecord]
    exact fun _ _ _ => rfl
  · rwa [← hdone]

end Episode

/-- The calls that are made one after another, each with what the one before it has left. -/
def history (layout : Layout) : List (Call σ) → Host → σ → List (Episode σ)
  | [], _, _ => []
  | c :: calls, w, s =>
    let c : Episode σ := ⟨c, w, s⟩
    c :: history layout calls (c.outcome layout).host (c.outcome layout).state

def hostAfter (layout : Layout) : List (Call σ) → Host → σ → Host
  | [], w, _ => w
  | c :: calls, w, s =>
    let c : Episode σ := ⟨c, w, s⟩
    hostAfter layout calls (c.outcome layout).host (c.outcome layout).state

/-- The record of a host is that of the last call that succeeded, and describes it as a whole; it is
empty if there was none. -/
def IsLatest (layout : Layout) (calls : List (Episode σ)) (w : Host) : Prop :=
  ((∀ c ∈ calls, c.Fails layout) ∧ w.record = [] ∧ w.summaries = []) ∨
    ∃ before c after h, calls = before ++ c :: after ∧ (∀ c' ∈ after, c'.Fails layout) ∧
      (c.outcome layout).result = .ok h ∧ w.record = (c.outcome layout).host.record ∧
      Describes w c.order c.graph h

theorem registry_made_of_mem_history (layout : Layout) (w : Host) (s : σ)
    {calls : List (Call σ)} (hmade : ∀ c ∈ calls, c.registry.Made) :
    ∀ c ∈ history layout calls w s, c.registry.Made := by
  induction calls generalizing w s with
  | nil => simp [history]
  | cons c calls ih =>
    obtain ⟨hc, hcalls⟩ := List.forall_mem_cons.1 hmade
    exact List.forall_mem_cons.2 ⟨hc, ih _ _ hcalls⟩

/-- The record stays as it is until a call succeeds, and is then that of the last such call. -/
theorem record_hostAfter (layout : Layout) (w : Host) (s : σ) {calls : List (Call σ)}
    (hmade : ∀ c ∈ calls, c.registry.Made) :
    ((∀ c ∈ history layout calls w s, c.Fails layout) ∧
      (hostAfter layout calls w s).record = w.record) ∨
    ∃ before c after h, history layout calls w s = before ++ c :: after ∧
      (∀ c' ∈ after, c'.Fails layout) ∧ (c.outcome layout).result = .ok h ∧
      (hostAfter layout calls w s).record = (c.outcome layout).host.record := by
  induction calls generalizing w s with
  | nil => exact .inl ⟨by simp [history], rfl⟩
  | cons c calls ih =>
    obtain ⟨hc, hcalls⟩ := List.forall_mem_cons.1 hmade
    let first : Episode σ := ⟨c, w, s⟩
    rcases ih (first.outcome layout).host (first.outcome layout).state hcalls with
      ⟨hfails, hrecord⟩ | ⟨before, c', after, h, hsplit, hrest⟩
    · cases hresult : (first.outcome layout).result with
      | error e =>
        exact .inl ⟨List.forall_mem_cons.2 ⟨⟨e, hresult⟩, hfails⟩,
          hrecord.trans (first.breaksOff hc hresult).record⟩
      | ok h => exact .inr ⟨[], first, _, h, rfl, hfails, hresult, hrecord⟩
    · exact .inr ⟨first :: before, c', after, h, congrArg (first :: ·) hsplit, hrest⟩

/-- After any history of runs the statistics are those of the last run that succeeded: one entry for
each registered pass in the order of the stages, with counts that lead from the input of that run to
its result. A run that fails prints no table and dumps the circuits before the failure. -/
theorem statistics_describe_last_success (layout : Layout) (times : ℕ → ℤ) (calls : List (Call σ))
    (s : σ) (hmade : ∀ c ∈ calls, c.registry.Made) :
    IsLatest layout (history layout calls { times := times } s)
        (hostAfter layout calls { times := times } s) ∧
      ∀ c ∈ history layout calls { times := times } s,
        (∀ e, (c.outcome layout).result = .error e → c.BreaksOff layout e) ∧
        ∀ h, (c.outcome layout).result = .ok h → c.Completes layout h := by
  have hhistory := registry_made_of_mem_history layout { times := times } s hmade
  refine ⟨?_, fun c hc =>
    ⟨fun e => c.breaksOff (hhistory c hc), fun h => c.completes (hhistory c hc)⟩⟩
  rcases record_hostAfter layout { times := times } s hmade with
    ⟨hfails, hrecord⟩ | ⟨before, c, after, h, hsplit, hfails, hok, hrecord⟩
  · exact .inl ⟨hfails, hrecord, by rw [Host.summaries, hrecord]; rfl⟩
  · have hc : c.registry.Made := hhistory c (hsplit ▸ List.mem_append_right _ List.mem_cons_self)
    obtain ⟨fs, hfs, hrun, -⟩ := (c.completes hc hok).dump
    exact .inr ⟨before, c, after, h, hsplit, hfails, hok, hrecord,
      hrun.describes rfl (hrecord.trans hfs)⟩

/-- An output that is a copy of an input, beside a sum that nobody reads. -/
def copiedInput : Graph where
  operations :=
    [⟨⟨"a", 8, .wire, 0⟩, 8, .input, []⟩,
      ⟨⟨"b", 8, .wire, 0⟩, 8, .input, []⟩,
      ⟨⟨"m", 8, .wire, 0⟩, 8, .mov, [⟨"a", 8, .wire, 0⟩]⟩,
      ⟨⟨"x", 8, .wire, 0⟩, 8, .output, [⟨"m", 8, .wire, 0⟩]⟩,
      ⟨⟨"s", 8, .wire, 0⟩, 8, .add, [⟨"a", 8, .wire, 0⟩, ⟨"b", 8, .wire, 0⟩]⟩]

/-- A layout that shows the change at the foot of a table and the size of a circuit. -/
def terse : Layout where
  line _ := []
  table sheet := match sheet.foot with
    | some [_, _, _, _, _, .count delta, _] => "change " ++ Text.ofInt delta ++ "\n"
    | _ => []
  graph g := Text.ofInt g.size ++ "\n"

/-- The optimizer between two runs that fail. -/
def interruptedCalls : List (Call (List Text)) :=
  [⟨{ registrations := Registry.mixedTable }, copiedInput, false, true⟩,
    ⟨.standard, copiedInput, false, true⟩,
    ⟨{ registrations := Registry.mixedTable }, copiedInput, true, true⟩]

/-- A host with a clock that shows the squares. -/
def squares : Host where
  times i := i * i

theorem interruptedCalls_statistics :
    (∀ c ∈ interruptedCalls, c.registry.Made) ∧
      (hostAfter terse interruptedCalls squares []).record =
        [⟨.rebalance, "balance_bitwise_op: and", 5, 5, ⟨11⟩⟩,
          ⟨.rebalance, "balance_bitwise_op: or", 5, 5, ⟨15⟩⟩,
          ⟨.rebalance, "balance_bitwise_op: xor", 5, 5, ⟨19⟩⟩,
          ⟨.lateElimination, "dead_code_elimination", 5, 3, ⟨23⟩⟩,
          ⟨.lateElimination, "mov_elision", 3, 2, ⟨27⟩⟩] ∧
      (hostAfter terse interruptedCalls squares []).diagnostics = "change -3\n" ∧
      (hostAfter terse interruptedCalls squares []).dump = "--- after mov_elision (prepare)\n4\n" ++
        "--- after balance_bitwise_op: xor (rebalance)\n4\n" ∧
      IsLatest terse (history terse interruptedCalls squares [])
        (hostAfter terse interruptedCalls squares []) ∧
      ∀ c ∈ history terse interruptedCalls squares [],
        (∀ e, (c.outcome terse).result = .error e → c.BreaksOff terse e) ∧
        ∀ h, (c.outcome terse).result = .ok h → c.Completes terse h := by
  have hmixed : Registry.Made { registrations := Registry.mixedTable } :=
    Registry.made_of_ofTable (Registry.ofTable_eq_ok (by decide))
  have hstandard : (Registry.standard (n := StateM (List Text))).Made :=
    Registry.made_of_ofTable (Registry.ofTable_eq_ok (by decide))
  have hmade : ∀ c ∈ interruptedCalls, c.registry.Made := by
    simp only [interruptedCalls, List.forall_mem_cons]
    exact ⟨hmixed, hstandard, hmixed, by simp⟩
  exact ⟨hmade, by cbv, by cbv, by cbv,
    statistics_describe_last_success terse _ interruptedCalls [] hmade⟩

end Netlist
