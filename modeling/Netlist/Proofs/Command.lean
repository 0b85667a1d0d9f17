import Mathlib
import Netlist.Proofs.Optimize
import Netlist.Proofs.Outcome
import Netlist.Tool.Optimizer

/-!
# The command and its files

A write to a file puts one entry into the file system. Paths lead to the same places as before,
because they go through directories only and no directory is replaced; so the file can be read back
and everything else is as it was.

The command does all that can fail before it writes: it reads the arguments, the circuit and the
file, optimizes the circuit and makes the new text. Running the passes may take time and say things,
but it touches no file. The command therefore ends in one of three ways. It answers a request for
its usage or version; or it gives the output file the text of the optimized circuit, even if that is
the file the circuit came from; or it fails. Only in the second case is a file changed, and only
that one.
-/

namespace Netlist

namespace FileSystem

variable {fs : FileSystem} {p q : Place} {names : List Text} {e : Entry} {path content : Text}

@[simp] theorem working_put : (fs.put p e).working = fs.working := rfl

theorem lookup_put_of_ne (h : q ≠ p) : (fs.put p e).entries.lookup q = fs.entries.lookup q := by
  have hfirst : (q == p) = false := by simpa using h
  rw [put, List.lookup_cons, hfirst]
  dsimp only
  induction fs.entries with
  | nil => rfl
  | cons a l ih =>
    obtain ⟨p', e'⟩ := a
    by_cases hp : p' = p
    · have hq : (q == p') = false := by rw [hp]; exact hfirst
      rw [List.filter_cons_of_neg (by simpa using hp), List.lookup_cons, hq, ih]
    · rw [List.filter_cons_of_pos (by simpa using hp), List.lookup_cons, List.lookup_cons, ih]

theorem entry?_put_of_ne (h : q ≠ p) : entry? (fs.put p e) q = fs.entry? q := by
  unfold entry?
  rw [working_put, lookup_put_of_ne h]

theorem entry?_put (h : fs.entry? p ≠ some .directory) : entry? (fs.put p e) p = some e := by
  have hworking : ¬p.isPrefixOf fs.working = true := fun hp => h (if_pos hp)
  unfold entry?
  rw [working_put, if_neg hworking]
  simp [put]

/-- A path leads to the same place when something is put where no directory stands. -/
theorem follow_put {p' : Place} (hq : fs.entry? q ≠ some .directory)
    (h : fs.follow p names = .ok p') : (fs.put q e).follow p names = .ok p' := by
  induction names generalizing p with
  | nil => exact h
  | cons name names ih =>
    unfold follow at h ⊢
    cases hp : fs.entry? p with
    | none => simp [hp] at h
    | some entry =>
      cases entry with
      | file content => simp [hp] at h
      | directory =>
        have hne : p ≠ q := by
          rintro rfl
          exact hq hp
        rw [hp] at h
        rw [entry?_put_of_ne hne, hp]
        dsimp only at h ⊢
        split_ifs at h ⊢
        · exact ih h
        · exact ih h
        · exact ih h

theorem target_eq_ok (h : fs.target path = .ok p) : checkPath path = .ok () ∧
    fs.follow (fs.start path) (Path.names path) = .ok p ∧ fs.entry? p ≠ some .directory := by
  unfold target at h
  obtain ⟨_, hcheck, h⟩ := bind_eq_ok.1 h
  dsimp only at h
  split_ifs at h with hbare
  · obtain ⟨q, hq, h⟩ := bind_eq_ok.1 h
    split_ifs at h with hdirectory
    cases h
    rw [hbare] at hq
    exact ⟨hcheck, hq, hdirectory⟩
  · obtain ⟨_, -, h⟩ := bind_eq_ok.1 h
    cases h

/-- A file system after the file at a path has got a content, and nothing else has happened. -/
structure Replaces (fs after : FileSystem) (path content : Text) : Prop where
  working : after.working = fs.working
  read : after.readFile path = .ok content
  only : ∃ p, fs.resolve path = .ok p ∧ after.entry? p = some (.file content) ∧
    ∀ q, q ≠ p → after.entry? q = fs.entry? q

theorem replaces_put (h : fs.target path = .ok p) :
    fs.Replaces (fs.put p (.file content)) path content := by
  obtain ⟨hcheck, hfollow, hdirectory⟩ := target_eq_ok h
  have hresolve : (fs.put p (.file content)).resolve path = .ok p :=
    bind_eq_ok.2 ⟨(), hcheck, follow_put hdirectory hfollow⟩
  refine ⟨rfl, ?_, p, bind_eq_ok.2 ⟨(), hcheck, hfollow⟩, entry?_put hdirectory,
    fun q => entry?_put_of_ne⟩
  rw [readFile, hresolve]
  dsimp only
  rw [entry?_put hdirectory]

end FileSystem

namespace OptimizerTool

variable {fs : FileSystem} {args : List Text} {input output out : Text}

/-- The usage or the version is asked for. -/
def Informs (args : List Text) : Prop :=
  parseFlags flags [] args = .error .help ∨ ∃ a, parseFlags flags [] args = .ok a ∧
    (a.switch "help" false = true ∨ a.switch "version" false = true)

/-- The arguments behind the flags are two files, and no information is asked for. -/
def Names (args : List Text) (input output : Text) : Prop :=
  ∃ a, parseFlags flags [] args = .ok a ∧ a.switch "help" false = false ∧
    a.switch "version" false = false ∧ a.rest = [input, output]

theorem Names.not_informs (h : Names args input output) : ¬Informs args := by
  obtain ⟨a, ha, hhelp, hversion, -⟩ := h
  rintro (hi | ⟨a', ha', hi⟩)
  · cases ha.symm.trans hi
  · cases ha.symm.trans ha'
    simp [hhelp, hversion] at hi

theorem Names.unique {input' output' : Text} (h : Names args input output)
    (h' : Names args input' output') : input = input' ∧ output = output' := by
  obtain ⟨a, ha, -, -, hrest⟩ := h
  obtain ⟨a', ha', -, -, hrest'⟩ := h'
  cases ha.symm.trans ha'
  simpa using hrest.symm.trans hrest'

/-- A file holds a circuit whose optimized form is written as some text. -/
def Yields (fs : FileSystem) (input out : Text) : Prop :=
  ∃ content g r, fs.readFile input = .ok content ∧ Graph.parse content = .ok g ∧
    g.optimize = .ok r ∧ r.write = .ok out

/-- A console, files, and a clock with a state. -/
abbrev Desk (τ : Type) : Type → Type := StateT Console (StateT FileSystem (StateM τ))

variable {τ α β : Type}

def enact (x : Desk τ α) (c : Console) (fs : FileSystem) (t : τ) :
    ((α × Console) × FileSystem) × τ :=
  Id.run (StateT.run (StateT.run (StateT.run x c) fs) t)

theorem enact_bind (x : Desk τ α) (f : α → Desk τ β) (c : Console) (fs : FileSystem) (t : τ) :
    enact (x >>= f) c fs t =
      enact (f (enact x c fs t).1.1.1) (enact x c fs t).1.1.2 (enact x c fs t).1.2
        (enact x c fs t).2 := rfl

/-- A program gives an answer with a property and leaves the files alone. -/
def Ensures (x : Desk τ α) (P : α → Prop) : Prop :=
  ∀ c fs t, P (enact x c fs t).1.1.1 ∧ (enact x c fs t).1.2 = fs

namespace Ensures

variable {x : Desk τ α} {f : α → Desk τ β} {P : α → Prop} {Q : β → Prop} {a : α}

theorem pure (h : P a) : Ensures (pure a : Desk τ α) P := fun _ _ _ => ⟨h, rfl⟩

theorem lift (x : Id α) : Ensures (monadLift x : Desk τ α) (· = x.run) := fun _ _ _ => ⟨rfl, rfl⟩

theorem modify (f : Console → Console) : Ensures (modify f : Desk τ Unit) fun _ => True :=
  fun _ _ _ => ⟨trivial, rfl⟩

theorem bind (hx : Ensures x P) (hf : ∀ a, P a → Ensures (f a) Q) : Ensures (x >>= f) Q := by
  intro c fs t
  obtain ⟨ha, hfs⟩ := hx c fs t
  obtain ⟨hb, hfs'⟩ := hf _ ha (enact x c fs t).1.1.2 (enact x c fs t).1.2 (enact x c fs t).2
  exact ⟨hb, hfs'.trans hfs⟩

end Ensures

/-- A context that leaves the files alone. -/
structure Tame (c : Context (Desk τ)) : Prop where
  now : Ensures c.now fun _ => True
  keep : ∀ records, Ensures (c.keep records) fun _ => True
  log : ∀ message, Ensures (c.log message) fun _ => True
  dump : ∀ write, c.dump = some write → ∀ text, Ensures (write text) fun _ => True
  diagnostics : ∀ write, c.diagnostics = some write → ∀ text, Ensures (write text) fun _ => True

namespace Tame

variable {c : Context (Desk τ)}

theorem ensures_report (hc : Tame c) (f : Finished) : Ensures (c.report f) fun _ => True := by
  unfold Context.report
  refine (hc.log _).bind fun _ _ => ?_
  cases hdump : c.dump with
  | none => exact .pure trivial
  | some write => exact (hc.dump write hdump _).bind fun _ _ => hc.dump write hdump _

theorem ensures_conclude (hc : Tame c) (records : List PassRecord) :
    Ensures (c.conclude records) fun _ => True := by
  unfold Context.conclude
  refine (hc.keep _).bind fun _ _ => ?_
  cases hdiagnostics : c.diagnostics with
  | none => exact .pure trivial
  | some write => exact hc.diagnostics write hdiagnostics _

theorem ensures_runPasses (hc : Tame c) (finished finished' : List Finished) (g : Graph)
    (passes : List (Registration Id)) : Ensures (runPasses c finished g passes)
      fun run => run.result = (Id.run (runPasses .quiet finished' g passes)).result := by
  induction passes generalizing finished finished' g with
  | nil => exact .pure rfl
  | cons p passes ih =>
    rw [runPasses]
    refine hc.now.bind fun _ _ => (Ensures.lift _).bind fun answer hanswer => ?_
    subst hanswer
    cases hp : (p.pass.apply g).run with
    | error e => exact .pure (by rw [runPasses_quiet_error hp])
    | ok h =>
      refine hc.now.bind fun _ _ => (hc.ensures_report _).bind fun _ _ => ?_
      rw [runPasses_quiet_ok hp]
      exact ih _ _ h

theorem ensures_optimize (hc : Tame c) (g : Graph) :
    Ensures (Registry.run (n := Id) c .standard g) (·.1 = g.optimize) := by
  rw [Graph.optimize_eq_result]
  refine (hc.ensures_runPasses [] [] g _).bind fun run hrun => ?_
  cases hresult : run.result with
  | error e => exact .pure (hresult.symm.trans hrun)
  | ok h => exact (hc.ensures_conclude _).bind fun _ _ => .pure (hresult.symm.trans hrun)

end Tame

theorem ensures_sayMessage (w : Wishes) (layout : Layout) (message : LogMessage) :
    Ensures (sayMessage w layout message : Desk τ Unit) fun _ => True := by
  unfold sayMessage
  split_ifs
  · exact .modify _
  · exact .pure trivial

theorem ensures_complain (w : Wishes) (layout : Layout) (input : Text) (e : Error) :
    Ensures (complain w layout input e : Desk τ Unit) fun _ => True := by
  unfold complain
  split_ifs
  · exact (ensures_sayMessage w layout _).bind fun _ _ => .modify _
  · exact .modify _

theorem ensures_tell (w : Wishes) (layout : Layout) (input : Text) (answer : Except Error Unit) :
    Ensures (tell w layout input answer : Desk τ ℕ) (· = if answer = .ok () then 0 else 1) := by
  cases answer with
  | error e => exact (ensures_complain w layout input e).bind fun _ _ => .pure (by simp)
  | ok => exact .pure (by simp)

theorem tame_context (w : Wishes) (layout : Layout) (clock : StateM τ Int) :
    Tame (context w layout (monadLift clock : StateT FileSystem (StateM τ) Int)) where
  now _ _ _ := ⟨trivial, rfl⟩
  keep _ := .modify _
  log := ensures_sayMessage w layout
  dump write hwrite text := by
    cases hdump : w.dump <;> simp [context, hdump] at hwrite
    exact hwrite ▸ .modify _
  diagnostics write hwrite text := by
    cases hlate : w.lateTable <;> cases hearly : w.earlyTable <;>
      simp [context, hlate, hearly] at hwrite <;> exact hwrite ▸ .modify _

/-- How the optimization of one file into another ends: the circuit is there and the output can be
written, or everything stays as it is. -/
def Optimizes (fs : FileSystem) (input output : Text) (succeeded : Prop) (after : FileSystem) :
    Prop :=
  (∃ out p, Yields fs input out ∧ fs.target output = .ok p ∧ succeeded ∧
      after = fs.put p (.file out)) ∨
    (¬∃ out p, Yields fs input out ∧ fs.target output = .ok p) ∧ ¬succeeded ∧ after = fs

theorem enact_lift (x : StateT FileSystem (StateM τ) α) (c : Console) (fs : FileSystem) (t : τ) :
    enact (monadLift x) c fs t =
      ((((x.run fs).run t).run.1.map (·, c) id), ((x.run fs).run t).run.2) := rfl

theorem enact_write (output out : Text) (c : Console) (fs : FileSystem) (t : τ) :
    enact (monadLift (Files.write output out : StateT FileSystem (StateM τ) _)) c fs t =
      match fs.target output with
      | .error fault => (((.error ⟨.opening, output, fault⟩, c), fs), t)
      | .ok p => (((.ok (), c), fs.put p (.file out)), t) := by
  rw [enact_lift]
  cases htarget : fs.target output with
  | error fault => simp [Files.write, FileSystem.writeFile, htarget]
  | ok p => simp [Files.write, FileSystem.writeFile, htarget]

theorem optimizes_optimizeFile {c : Context (Desk τ)} (hc : Tame c) (input output : Text)
    (console : Console) (fs : FileSystem) (t : τ) :
    let result := enact (optimizeFile c input output) console fs t
    Optimizes fs input output (result.1.1.1 = .ok ()) result.1.2 := by
  have hfiles : enact (monadLift (Files.read input : StateT FileSystem (StateM τ) _)) console fs t =
      (((fs.readFile input, console), fs), t) := rfl
  unfold optimizeFile
  rw [enact_bind, hfiles]
  dsimp only
  cases hread : fs.readFile input with
  | error e =>
    refine .inr ⟨?_, by rintro ⟨⟩, rfl⟩
    rintro ⟨out, p, ⟨content, g, r, hcontent, -⟩, -⟩
    cases hread.symm.trans hcontent
  | ok content =>
    dsimp only
    cases hparse : Graph.parse content with
    | error e =>
      refine .inr ⟨?_, by rintro ⟨⟩, rfl⟩
      rintro ⟨out, p, ⟨content, g, r, hcontent, hg, -⟩, -⟩
      cases hread.symm.trans hcontent
      cases hparse.symm.trans hg
    | ok g =>
      dsimp only
      obtain ⟨hanswer, hfs⟩ := hc.ensures_optimize g console fs t
      rw [enact_bind, hanswer, hfs]
      cases hwrite : g.optimize >>= Graph.write with
      | error e =>
        refine .inr ⟨?_, by rintro ⟨⟩, rfl⟩
        rintro ⟨out, p, ⟨content, g, r, hcontent, hg, hr, hout⟩, -⟩
        cases hread.symm.trans hcontent
        cases hparse.symm.trans hg
        cases hwrite.symm.trans (bind_eq_ok.2 ⟨r, hr, hout⟩)
      | ok out =>
        obtain ⟨r, hr, hout⟩ := bind_eq_ok.1 hwrite
        have hyields : Yields fs input out := ⟨content, g, r, hread, hparse, hr, hout⟩
        dsimp only
        rw [enact_bind, enact_write]
        cases htarget : fs.target output with
        | error fault =>
          refine .inr ⟨?_, by rintro ⟨⟩, rfl⟩
          rintro ⟨out, p, -, hp⟩
          cases htarget.symm.trans hp
        | ok p => exact .inl ⟨out, p, hyields, htarget, rfl, rfl⟩

/-- What the command reports and the file system that it leaves behind. -/
def execute (settings : Settings) (environment : Text → Text) (layout : Layout)
    (clock : StateM τ Int) (args : List Text) (fs : FileSystem) (t : τ) : Report × FileSystem :=
  (Id.run (StateT.run (StateT.run (m := StateM τ)
    (run settings environment layout (monadLift clock) args) fs) t)).1

theorem optimizes_optimizeAndTell (w : Wishes) (layout : Layout) (clock : StateM τ Int)
    (input output : Text) (fs : FileSystem) (t : τ) :
    let result := (Id.run (StateT.run (StateT.run (m := StateM τ)
      (optimizeAndTell w layout (monadLift clock) input output) fs) t)).1
    Optimizes fs input output (result.1.code = 0) result.2 ∧
      (result.1.code ≠ 0 → result.1.code = 1) := by
  intro result
  let x := enact (optimizeFile (context w layout (monadLift clock)) input output) {} fs t
  have hoptimizes : Optimizes fs input output (x.1.1.1 = .ok ()) x.1.2 :=
    optimizes_optimizeFile (tame_context w layout clock) input output {} fs t
  obtain ⟨hcode, hafter⟩ := ensures_tell w layout input x.1.1.1 x.1.1.2 x.1.2 x.2
  change result.1.code = _ at hcode
  change result.2 = _ at hafter
  rw [hcode, hafter]
  split_ifs with hok
  · simpa [hok] using hoptimizes
  · simpa [hok] using hoptimizes

/-- The three ways in which the command ends. -/
theorem execute_cases (settings : Settings) (environment : Text → Text) (layout : Layout)
    (clock : StateM τ Int) (args : List Text) (fs : FileSystem) (t : τ) :
    let result := execute settings environment layout clock args fs t
    (Informs args ∧ result.1.code = 0 ∧ result.2 = fs) ∨
      (∃ input output out, Names args input output ∧ Yields fs input out ∧ result.1.code = 0 ∧
        fs.Replaces result.2 output out) ∨
      ¬Informs args ∧ (∀ input output out p, Names args input output → Yields fs input out →
        fs.target output ≠ .ok p) ∧ result.1.code = 1 ∧ result.2 = fs := by
  unfold execute run runWith
  cases hparse : parseFlags flags [] args with
  | error e =>
    cases e with
    | help => exact .inl (by simp [Informs, hparse])
    | _ => exact .inr (.inr (by simp [Informs, Names, hparse]))
  | ok a =>
    cases hhelp : a.switch "help" false with
    | true => exact .inl (by simp [Informs, hparse, hhelp])
    | false =>
      cases hversion : a.switch "version" false with
      | true => exact .inl (by simp [Informs, hparse, hhelp, hversion])
      | false =>
        rcases hrest : a.rest with _ | ⟨input, _ | ⟨output, _ | ⟨t, rest⟩⟩⟩
        · exact .inr (.inr (by simp [Informs, Names, hparse, hhelp, hversion, hrest]))
        · exact .inr (.inr (by simp [Informs, Names, hparse, hhelp, hversion, hrest]))
        · have hnames : Names args input output := ⟨a, hparse, hhelp, hversion, hrest⟩
          simp only [hhelp, hversion, hrest]
          obtain ⟨hoptimizes, hfailed⟩ := optimizes_optimizeAndTell
            (.ofEnvironment settings environment) layout clock input output fs t
          rcases hoptimizes with ⟨out, p, hyields, htarget, hcode, hafter⟩ | ⟨hnone, hcode, hafter⟩
          · refine .inr (.inl ⟨input, output, out, hnames, hyields, hcode, ?_⟩)
            exact hafter ▸ FileSystem.replaces_put htarget
          · refine .inr (.inr ⟨hnames.not_informs, ?_, hfailed hcode, hafter⟩)
            intro input' output' out p hnames' hyields htarget
            obtain ⟨rfl, rfl⟩ := hnames.unique hnames'
            exact hnone ⟨out, p, hyields, htarget⟩
        · exact .inr (.inr (by simp [Informs, Names, hparse, hhelp, hversion, hrest]))

/-- The command succeeds or fails. It changes no file when it fails or only informs. Otherwise it
has been given two files, and all that it changes is that the second holds the optimized form of the
circuit that the first one held, whether or not they are the same. It does not fail if the first
file holds a circuit that can be optimized and written, and the second can be written to. -/
theorem command_is_all_or_nothing (settings : Settings) (environment : Text → Text)
    (layout : Layout) (clock : StateM τ Int) (args : List Text) (fs : FileSystem) (t : τ) :
    let result := execute settings environment layout clock args fs t
    (result.1.code = 0 ∨ result.1.code = 1) ∧
      (result.1.code = 1 → result.2 = fs) ∧
      (Informs args → result.1.code = 0 ∧ result.2 = fs) ∧
      (result.1.code = 0 → ¬Informs args → ∃ input output out, Names args input output ∧
        Yields fs input out ∧ fs.Replaces result.2 output out) ∧
      ∀ input output out p, Names args input output → Yields fs input out →
        fs.target output = .ok p → result.1.code = 0 := by
  intro result
  rcases execute_cases settings environment layout clock args fs t with
    ⟨hinforms, hcode, hafter⟩ | ⟨input, output, out, hnames, hyields, hcode, hreplaces⟩ |
      ⟨hinforms, hrefused, hcode, hafter⟩
  · exact ⟨.inl hcode, fun _ => hafter, fun _ => ⟨hcode, hafter⟩, fun _ h => absurd hinforms h,
      fun _ _ _ _ _ _ _ => hcode⟩
  · refine ⟨.inl hcode, ?_, fun h => absurd h hnames.not_informs, ?_, fun _ _ _ _ _ _ _ => hcode⟩
    · intro hfailed
      exact absurd (hcode.symm.trans hfailed) zero_ne_one
    · intro _ _
      exact ⟨input, output, out, hnames, hyields, hreplaces⟩
  · refine ⟨.inr hcode, fun _ => hafter, fun h => absurd h hinforms, ?_, ?_⟩
    · intro hsucceeded
      exact absurd (hcode.symm.trans hsucceeded) one_ne_zero
    · intro input output out p hnames hyields htarget
      exact absurd htarget (hrefused input output out p hnames hyields)

example :
    let fs : FileSystem := ⟨["w"], [(["w", "a"], .file "x = in'8\ny = mov'8 x\nz = out'8 y\n")]⟩
    Names ["--", "a", "./a"] "a" "./a" ∧ Yields fs "a" "z = out'8 x\nx = in'8\n" ∧
      fs.target "./a" = .ok ["w", "a"] :=
  ⟨⟨⟨[], ["a", "./a"]⟩, by cbv, rfl, rfl, rfl⟩,
    ⟨_, ⟨[⟨⟨"x", 8, .wire, 0⟩, 8, .input, []⟩,
        ⟨⟨"y", 8, .wire, 0⟩, 8, .mov, [⟨"x", 8, .wire, 0⟩]⟩,
        ⟨⟨"z", 8, .wire, 0⟩, 8, .output, [⟨"y", 8, .wire, 0⟩]⟩], [], 0⟩,
      ⟨[⟨⟨"z", 8, .wire, 0⟩, 8, .output, [⟨"x", 8, .wire, 0⟩]⟩,
        ⟨⟨"x", 8, .wire, 0⟩, 8, .input, []⟩], [], 3⟩,
      by cbv, by cbv, by cbv, by cbv⟩, by cbv⟩

end OptimizerTool

end Netlist
