import Mathlib
import Netlist.Proofs.Effects

/-!
# The order of a pipeline

The passes of a registry run in the order of a stable sort of the registrations by their stages: the
schedule lists the registrations of each stage as they were made, and a stable sort does not change
their order within a stage either. Running closes a registry for good and changes nothing else in
it, so it is the same order in every run.
-/

namespace Netlist

namespace Stage

/-- The byte that a stage is stored in. -/
def code : Stage → ℕ
  | prepare => 0
  | rebalance => 1
  | lateElimination => 2
  | unassigned n => 3 + n

theorem code_ofCode (c : UInt8) : (ofCode c).code = c.toNat := by
  unfold ofCode
  split_ifs with h₀ h₁ h₂
  · exact h₀.symm
  · exact h₁.symm
  · exact h₂.symm
  · simp only [code]
    omega

theorem code_injective : Function.Injective code := by
  intro s s' h
  cases s <;> cases s' <;> simp only [code] at h <;> grind

theorem pairwise_all : all.Pairwise (·.code < ·.code) := by decide

end Stage

/-- Whether the stage of a registration is not after that of another one. -/
def Registration.notAfter {n : Type → Type} (a b : Registration n) : Bool :=
  a.stage.code ≤ b.stage.code

variable {n : Type → Type} {l table : List (Registration n)} {stages : List Stage} {s : Stage}

theorem filter_append_of_pairwise (hl : l.Pairwise (·.notAfter ·))
    (hs : ∀ a ∈ l, s.code ≤ a.stage.code) :
    l.filter (·.stage = s) ++ l.filter (·.stage ≠ s) = l := by
  induction l with
  | nil => rfl
  | cons a l ih =>
    obtain ⟨ha, hl⟩ := List.pairwise_cons.1 hl
    obtain ⟨hsa, hs⟩ := List.forall_mem_cons.1 hs
    by_cases heq : a.stage = s
    · simpa [heq] using ih hl hs
    · have hlt : s.code < a.stage.code :=
        lt_of_le_of_ne hsa fun h => heq (Stage.code_injective h.symm)
      have hnone : ∀ x ∈ l, x.stage ≠ s := by
        rintro x hx rfl
        exact absurd (of_decide_eq_true (ha x hx)) (not_le.2 hlt)
      have hfilter : l.filter (·.stage = s) = [] := by simpa using hnone
      simpa [heq, hfilter] using hnone

/-- A list that is sorted by stage consists of its parts, stage by stage. -/
theorem flatMap_filter_of_pairwise (hl : l.Pairwise (·.notAfter ·))
    (hstages : stages.Pairwise (·.code < ·.code)) (hmem : ∀ a ∈ l, a.stage ∈ stages) :
    (stages.flatMap fun s => l.filter (·.stage = s)) = l := by
  induction stages generalizing l with
  | nil => simpa [List.eq_nil_iff_forall_not_mem] using hmem
  | cons s stages ih =>
    obtain ⟨hs, hstages⟩ := List.pairwise_cons.1 hstages
    have hfront : ∀ a ∈ l, s.code ≤ a.stage.code := by
      intro a ha
      rcases List.mem_cons.1 (hmem a ha) with heq | hlater
      · rw [heq]
      · exact (hs _ hlater).le
    have hrest : (stages.flatMap fun s' => l.filter (·.stage = s')) =
        stages.flatMap fun s' => (l.filter (·.stage ≠ s)).filter (·.stage = s') := by
      refine List.flatMap_congr fun s' hs' => ?_
      have hne : s' ≠ s := fun heq => lt_irrefl _ (heq ▸ hs s' hs')
      rw [List.filter_filter]
      refine List.filter_congr fun a _ => ?_
      by_cases heq : a.stage = s' <;> simp [heq, hne]
    have hlater : ∀ a ∈ l.filter (·.stage ≠ s), a.stage ∈ stages := by
      intro a ha
      obtain ⟨ha, hne⟩ := List.mem_filter.1 ha
      exact (List.mem_cons.1 (hmem a ha)).resolve_left (by simpa using hne)
    rw [List.flatMap_cons, hrest, ih (hl.filter _) hstages hlater]
    exact filter_append_of_pairwise hl hfront

theorem notAfter_trans (a b c : Registration n) (hab : a.notAfter b = true)
    (hbc : b.notAfter c = true) : a.notAfter c = true :=
  decide_eq_true ((of_decide_eq_true hab).trans (of_decide_eq_true hbc))

theorem notAfter_total (a b : Registration n) : (a.notAfter b || b.notAfter a) = true := by
  simpa [Registration.notAfter] using le_total a.stage.code b.stage.code

theorem filter_mergeSort (l : List (Registration n)) (s : Stage) :
    (l.mergeSort Registration.notAfter).filter (·.stage = s) = l.filter (·.stage = s) := by
  have hpairwise : (l.filter (·.stage = s)).Pairwise (·.notAfter ·) := by
    refine List.pairwise_of_forall_mem_list fun a ha b hb => ?_
    simp only [List.mem_filter, decide_eq_true_eq] at ha hb
    simp [Registration.notAfter, ha.2, hb.2]
  have hsub := List.sublist_mergeSort notAfter_trans notAfter_total hpairwise List.filter_sublist
  have hfilter := hsub.filter (·.stage = s)
  simp only [List.filter_filter, Bool.and_self] at hfilter
  refine (hfilter.eq_of_length ?_).symm
  exact ((List.mergeSort_perm l _).filter _).length_eq.symm

namespace Registry

theorem schedule_eq_mergeSort {r : Registry n} (h : ∀ a ∈ r.registrations, a.stage ∈ Stage.all) :
    r.schedule = r.registrations.mergeSort Registration.notAfter := by
  have hsorted := List.pairwise_mergeSort notAfter_trans notAfter_total r.registrations
  rw [schedule, ← flatMap_filter_of_pairwise hsorted Stage.pairwise_all
    fun a ha => h a (List.mem_mergeSort.1 ha)]
  exact List.flatMap_congr fun s _ => (filter_mergeSort _ s).symm

theorem ofTable_eq_ok (h : ∀ a ∈ table, a.stage ∈ Stage.all) :
    ofTable table = .ok { registrations := table } := by
  have hfold (r : Registry n) (hr : r.started = false) :
      table.foldlM (fun r a => (r.register a.pass a.stage).1.map
        fun _ => (r.register a.pass a.stage).2) r =
        .ok { r with registrations := r.registrations ++ table } := by
    induction table generalizing r with
    | nil => simp [pure, Except.pure]
    | cons a table ih =>
      obtain ⟨ha, htable⟩ := List.forall_mem_cons.1 h
      have hstep : r.register a.pass a.stage =
          (.ok (), { r with registrations := r.registrations ++ [a] }) := by
        simp [register, hr, ha]
      have hrest := ih htable { r with registrations := r.registrations ++ [a] } hr
      rw [List.append_assoc] at hrest
      rw [List.foldlM_cons, hstep]
      exact hrest
  exact hfold {} rfl

variable {σ : Type} {r r' : Registry (StateM σ)}

/-- A registry after it has run on some circuits, one after another. -/
inductive Ran (r : Registry (StateM σ)) : Registry (StateM σ) → Prop
  | never : Ran r r
  | again {r' : Registry (StateM σ)} (layout : Layout) (dump diagnostics : Bool) (g : Graph)
      (w : Host) (s : σ) : Ran r r' → Ran r (r'.outcome layout dump diagnostics g w s).registry

theorem registry_outcome (layout : Layout) (dump diagnostics : Bool) (r : Registry (StateM σ))
    (g : Graph) (w : Host) (s : σ) :
    (r.outcome layout dump diagnostics g w s).registry = r.close := by
  obtain ⟨run, t, k, -, houtcome⟩ := r.exists_follows layout dump diagnostics g w s
  rw [houtcome]

theorem Ran.registrations (h : Ran r r') : r'.registrations = r.registrations := by
  induction h with
  | never => rfl
  | again layout dump diagnostics g w s _ ih =>
    rw [registry_outcome]
    exact ih

/-- A registry of passes with assigned stages runs them in the order of a stable sort by stage,
however often it has run before. A pass that fails ends the run, whatever comes behind it. From the
first run on the registry takes no registrations, and its passes stay the same. -/
theorem registry_runs_stable_order (table : List (Registration (StateM σ)))
    (hstages : ∀ a ∈ table, a.stage ∈ Stage.all) :
    ∃ r, ofTable table = .ok r ∧ ∀ r', Ran r r' → ∀ layout dump diagnostics g w s,
      let order := table.mergeSort Registration.notAfter
      let o := r'.outcome layout dump diagnostics g w s
      (∃ run, run.result = o.result ∧
        (∀ run' t, Follows w.times w.readings order g s run' t ↔ run' = run ∧ t = o.state) ∧
        (∀ e, o.result = .error e → ∀ other, Follows w.times w.readings
          (order.take (run.finished.length + 1) ++ other) g s run o.state) ∧
        o.host.log = w.log ++ run.records.map PassRecord.logMessage) ∧
      (∀ p st, o.registry.register p st = (.error (.lateRegistration p.name), o.registry)) ∧
      ∀ st, o.registry.passesFor st = r.passesFor st := by
  refine ⟨{ registrations := table }, ofTable_eq_ok hstages, ?_⟩
  intro r' hran layout dump diagnostics g w s
  have htable : r'.registrations = table := hran.registrations
  have horder : r'.schedule = table.mergeSort Registration.notAfter := by
    rw [schedule_eq_mergeSort (by rwa [htable]), htable]
  obtain ⟨run, t, k, hrun, houtcome⟩ := r'.exists_follows layout dump diagnostics g w s
  rw [horder] at hrun
  rw [houtcome]
  refine ⟨⟨run, rfl, fun run' t' => ⟨hrun.unique, ?_⟩, fun e he => hrun.append_of_error he, ?_⟩,
    fun p st => rfl, fun st => ?_⟩
  · rintro ⟨rfl, rfl⟩
    exact hrun
  · rw [Host.log_after]
  · rw [passesFor, close, htable]
    rfl

/-- A pass that signs with its name whenever it is applied. -/
def signing (p : Pass (StateM (List Text))) : Pass (StateM (List Text)) :=
  ⟨p.name, fun g => do
    modify fun names => names ++ [p.name]
    p.apply g⟩

/-- A table that is not sorted by stage and has a pass that fails. -/
def mixedTable : List (Registration (StateM (List Text))) :=
  [⟨signing .deadCode, .lateElimination⟩, ⟨signing Bitwise.xor.pass, .rebalance⟩,
    ⟨signing (.constant "stop" (.error (.failure "stopped"))), .rebalance⟩,
    ⟨signing .copies, .prepare⟩, ⟨signing Bitwise.and.pass, .rebalance⟩]

theorem mixedTable_runs_stable_order :
    (∀ a ∈ mixedTable, a.stage ∈ Stage.all) ∧ ∃ r, ofTable mixedTable = .ok r ∧
      let layout : Layout := ⟨fun _ => [], fun _ => [], fun _ => []⟩
      let first := r.outcome layout false false .empty ⟨fun i => i, 0, [], [], [], []⟩ []
      let o := first.registry.outcome layout false false .empty first.host first.state
      first.state = ["mov_elision", "balance_bitwise_op: xor", "stop"] ∧
      o.state = ["mov_elision", "balance_bitwise_op: xor", "stop", "mov_elision",
        "balance_bitwise_op: xor", "stop"] ∧
      (∃ run, run.result = o.result ∧ ∀ run' t, Follows first.host.times first.host.readings
        (mixedTable.mergeSort Registration.notAfter) .empty first.state run' t ↔
          run' = run ∧ t = o.state) ∧
      o.registry.register .copies .prepare =
        (.error (.lateRegistration "mov_elision"), o.registry) ∧
      (o.registry.passesFor .rebalance).length = 3 := by
  have hstages : ∀ a ∈ mixedTable, a.stage ∈ Stage.all := by decide
  obtain ⟨r, hr, hruns⟩ := registry_runs_stable_order mixedTable hstages
  cases hr.symm.trans (ofTable_eq_ok hstages)
  refine ⟨hstages, _, hr, ?_⟩
  intro layout first o
  obtain ⟨⟨run, hresult, hunique, -⟩, hregister, hpasses⟩ :=
    hruns _ (.again layout false false .empty ⟨fun i => i, 0, [], [], [], []⟩ [] .never)
      layout false false .empty first.host first.state
  refine ⟨by cbv, by cbv, ⟨run, hresult, hunique⟩, hregister .copies .prepare, ?_⟩
  rw [hpasses]
  rfl

end Registry

end Netlist
