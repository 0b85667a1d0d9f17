import Mathlib
import Netlist.Pipeline.Host

/-!
# The effects of a run

`Follows` says what it means to follow a list of passes. The first passes finish, each on what the
one before it has made, and either these are all or the next one fails; its error, put within the
name of that pass, is then the result. The passes behind it have no part: the state that is left is
the one that the failing pass has left.

The run of a registry follows its schedule. What it does to its host can be read off the passes that
have finished and the result.
-/

namespace Netlist

variable {σ : Type} {α β : Type} {times : ℕ → ℤ} {k : ℕ} {p : Registration (StateM σ)}
  {passes : List (Registration (StateM σ))} {g h : Graph} {s t u : σ} {e : Error} {run run' : Run}

/-- A run that starts with a circuit and applies passes one after another. The clock is read before
and behind each of them. -/
inductive Follows (times : ℕ → ℤ) :
    ℕ → List (Registration (StateM σ)) → Graph → σ → Run → σ → Prop
  | done (k : ℕ) (g : Graph) (s : σ) : Follows times k [] g s ⟨[], .ok g⟩ s
  | failed {k : ℕ} {p : Registration (StateM σ)} {passes : List (Registration (StateM σ))}
      {g : Graph} {s t : σ} {e : Error} : (p.pass.apply g).run s = (.error e, t) →
      Follows times k (p :: passes) g s ⟨[], .error (.within p.pass.name e)⟩ t
  | passed {k : ℕ} {p : Registration (StateM σ)} {passes : List (Registration (StateM σ))}
      {g h : Graph} {s t u : σ} {run : Run} : (p.pass.apply g).run s = (.ok h, t) →
      Follows times (k + 2) passes h t run u →
      Follows times k (p :: passes) g s
        ⟨⟨p.stage, p.pass.name, g, h, ⟨times (k + 1) - times k⟩⟩ :: run.finished, run.result⟩ u

namespace Follows

theorem unique (hrun : Follows times k passes g s run t)
    (hrun' : Follows times k passes g s run' u) : run' = run ∧ u = t := by
  induction hrun generalizing run' u with
  | done =>
    cases hrun'
    exact ⟨rfl, rfl⟩
  | failed hp =>
    cases hrun' with
    | failed hp' =>
      cases hp.symm.trans hp'
      exact ⟨rfl, rfl⟩
    | passed hp' _ => cases hp.symm.trans hp'
  | passed hp _ ih =>
    cases hrun' with
    | failed hp' => cases hp.symm.trans hp'
    | passed hp' hrest =>
      cases hp.symm.trans hp'
      obtain ⟨rfl, rfl⟩ := ih hrest
      exact ⟨rfl, rfl⟩

/-- Behind a pass that fails, the passes may be any others. -/
theorem append_of_error (hrun : Follows times k passes g s run t) (he : run.result = .error e)
    (other : List (Registration (StateM σ))) :
    Follows times k (passes.take (run.finished.length + 1) ++ other) g s run t := by
  induction hrun with
  | done => cases he
  | failed hp => exact .failed hp
  | passed hp _ ih => exact .passed hp (ih he)

theorem split_of_error (hrun : Follows times k passes g s run t) (he : run.result = .error e) :
    ∃ done p rest last u e', passes = done ++ p :: rest ∧
      Follows times k done g s ⟨run.finished, .ok last⟩ u ∧
      (p.pass.apply last).run u = (.error e', t) ∧ e = .within p.pass.name e' := by
  induction hrun with
  | done => cases he
  | @failed k p passes g s t e' hp =>
    cases he
    exact ⟨[], p, passes, g, s, e', rfl, .done k g s, hp, rfl⟩
  | @passed k p _ _ _ _ _ _ _ hp _ ih =>
    obtain ⟨done, q, rest, last, u, e', rfl, hdone, hq, rfl⟩ := ih he
    exact ⟨p :: done, q, rest, last, u, e', rfl, .passed hp hdone, hq, rfl⟩

end Follows

/-- What a program does to a host and to the state of the passes. -/
def perform (x : StateT Host (StateM σ) α) (w : Host) (s : σ) : (α × Host) × σ :=
  Id.run (StateT.run (StateT.run x w) s)

theorem perform_pure (a : α) (w : Host) (s : σ) : perform (pure a) w s = ((a, w), s) := rfl

theorem perform_bind (x : StateT Host (StateM σ) α) (f : α → StateT Host (StateM σ) β) (w : Host)
    (s : σ) : perform (x >>= f) w s =
      perform (f (perform x w s).1.1) (perform x w s).1.2 (perform x w s).2 := rfl

theorem perform_lift (x : StateM σ α) (w : Host) (s : σ) :
    perform (monadLift x) w s = (((x.run s).1, w), (x.run s).2) := rfl

namespace Host

variable (w : Host) (layout : Layout) (dump diagnostics : Bool)

def reported (fs : List Finished) : Host :=
  { w with
    log := w.log ++ fs.map fun f => f.record.logMessage
    dump := w.dump ++ if dump then fs.flatMap fun f => f.title ++ layout.graph f.after else [] }

def concluded (records : List PassRecord) : Host :=
  { w with
    record := records
    diagnostics := w.diagnostics ++ if diagnostics then layout.table (recordSheet records) else [] }

def after (run : Run) : Host :=
  match run.result with
  | .error _ => w.reported layout dump run.finished
  | .ok _ => (w.reported layout dump run.finished).concluded layout diagnostics run.records

theorem after_of_error {run : Run} {e : Error} (h : run.result = .error e) :
    w.after layout dump diagnostics run = w.reported layout dump run.finished := by
  rw [after, h]

theorem after_of_ok {run : Run} {g : Graph} (h : run.result = .ok g) :
    w.after layout dump diagnostics run =
      (w.reported layout dump run.finished).concluded layout diagnostics run.records := by
  rw [after, h]

theorem reported_cons (f : Finished) (fs : List Finished) :
    (w.reported layout dump [f]).reported layout dump fs = w.reported layout dump (f :: fs) := by
  cases dump <;> simp [reported]

theorem log_after (run : Run) : (w.after layout dump diagnostics run).log =
    w.log ++ run.records.map PassRecord.logMessage := by
  unfold after
  cases run.result <;> simp [reported, concluded, Run.records]

theorem perform_now (s : σ) :
    perform (context layout dump diagnostics).now w s =
      ((w.times w.readings, { w with readings := w.readings + 1 }), s) := rfl

theorem perform_report (f : Finished) (s : σ) :
    perform ((context layout dump diagnostics).report f) w s =
      (((), w.reported layout dump [f]), s) := by
  cases dump <;> simp [Context.report, context, reported, perform]

theorem perform_conclude (records : List PassRecord) (s : σ) :
    perform ((context layout dump diagnostics).conclude records) w s =
      (((), w.concluded layout diagnostics records), s) := by
  cases diagnostics <;> simp [Context.conclude, renderRecords, context, concluded, perform]

end Host

open Host

theorem perform_runPasses_error {layout : Layout} {dump diagnostics : Bool}
    (hp : (p.pass.apply g).run s = (.error e, t)) (finished : List Finished) (w : Host) :
    perform (runPasses (context layout dump diagnostics) finished g (p :: passes)) w s =
      ((⟨finished, .error (.within p.pass.name e)⟩, { w with readings := w.readings + 1 }), t) := by
  rw [runPasses, perform_bind, perform_now, perform_bind, perform_lift, hp]
  rfl

theorem perform_runPasses_ok {layout : Layout} {dump diagnostics : Bool}
    (hp : (p.pass.apply g).run s = (.ok h, t)) (finished : List Finished) (w : Host) :
    let f : Finished :=
      ⟨p.stage, p.pass.name, g, h, ⟨w.times (w.readings + 1) - w.times w.readings⟩⟩
    perform (runPasses (context layout dump diagnostics) finished g (p :: passes)) w s =
      perform (runPasses (context layout dump diagnostics) (finished ++ [f]) h passes)
        { w.reported layout dump [f] with readings := w.readings + 2 } t := by
  intro f
  rw [runPasses, perform_bind, perform_now, perform_bind, perform_lift, hp]
  dsimp only
  rw [perform_bind, perform_now, perform_bind, perform_report]
  rfl

theorem exists_perform_runPasses (layout : Layout) (dump diagnostics : Bool)
    (finished : List Finished) (g : Graph) (passes : List (Registration (StateM σ))) (w : Host)
    (s : σ) : ∃ run t n, Follows w.times w.readings passes g s run t ∧
      perform (runPasses (context layout dump diagnostics) finished g passes) w s =
        ((⟨finished ++ run.finished, run.result⟩,
          { w.reported layout dump run.finished with readings := n }), t) := by
  induction passes generalizing finished g w s with
  | nil =>
    refine ⟨⟨[], .ok g⟩, s, w.readings, .done _ g s, ?_⟩
    simp [runPasses, reported, perform_pure]
  | cons p passes ih =>
    rcases hp : (p.pass.apply g).run s with ⟨answer, t⟩
    cases answer with
    | error e =>
      refine ⟨⟨[], .error (.within p.pass.name e)⟩, t, w.readings + 1, .failed hp, ?_⟩
      simp [perform_runPasses_error hp, reported]
    | ok h =>
      let f : Finished :=
        ⟨p.stage, p.pass.name, g, h, ⟨w.times (w.readings + 1) - w.times w.readings⟩⟩
      obtain ⟨run, u, n, hrun, heq⟩ := ih (finished ++ [f]) h
        { w.reported layout dump [f] with readings := w.readings + 2 } t
      refine ⟨⟨f :: run.finished, run.result⟩, u, n, .passed hp hrun, ?_⟩
      rw [perform_runPasses_ok hp, heq, List.append_assoc]
      dsimp only
      rw [← reported_cons w layout dump f run.finished]
      rfl

namespace Registry

/-- A run follows the schedule and does to its host what the passes and the result call for. -/
theorem exists_follows (layout : Layout) (dump diagnostics : Bool) (r : Registry (StateM σ))
    (g : Graph) (w : Host) (s : σ) : ∃ run t n, Follows w.times w.readings r.schedule g s run t ∧
      r.outcome layout dump diagnostics g w s =
        ⟨run.result, r.close, { w.after layout dump diagnostics run with readings := n }, t⟩ := by
  obtain ⟨run, t, n, hrun, hperform⟩ :=
    exists_perform_runPasses layout dump diagnostics [] g r.schedule w s
  refine ⟨run, t, n, hrun, ?_⟩
  have hbind : perform (r.run (context layout dump diagnostics) g) w s =
      perform (match run.result with
        | .error e => pure (.error e, r.close)
        | .ok h => do
          (context layout dump diagnostics).conclude run.records
          return (.ok h, r.close))
        { w.reported layout dump run.finished with readings := n } t := by
    rw [Registry.run, perform_bind]
    change perform (runPasses _ [] g r.close.schedule) w s = _ at hperform
    rw [hperform]
    rfl
  have houtcome : r.outcome layout dump diagnostics g w s =
      let x := perform (r.run (context layout dump diagnostics) g) w s
      ⟨x.1.1.1, x.1.1.2, x.1.2, x.2⟩ := rfl
  rw [houtcome, hbind, after]
  cases run.result with
  | error e => rfl
  | ok h =>
    dsimp only
    rw [perform_bind, perform_conclude]
    rfl

end Registry

end Netlist
