import Netlist.Pipeline.Context
import Netlist.Pipeline.Pass

/-!
# Pipelines

A registry collects passes until it is run for the first time. A run applies the passes stage by
stage, within a stage in the order of their registration, each to the result of the one before it.
It ends with the first pass that fails; the error is then put within the name of that pass.

The passes answer in a monad `n`, and the run goes on in a monad `m` that has the effects of `n` and
a context besides. Each pass that finishes is logged and dumped at once. The record is replaced and
the table printed when all passes have finished, so a run that fails does neither.

A `Run` tells what happened: the passes that finished, each with the circuit it was given and the
one it made, and the result.
-/

namespace Netlist

/-- A pass that has been applied to a circuit. -/
structure Finished where
  stage : Stage
  name : Text
  before : Graph
  after : Graph
  elapsed : Duration
  deriving DecidableEq, Repr

namespace Finished

def record (f : Finished) : PassRecord := ⟨f.stage, f.name, f.before.size, f.after.size, f.elapsed⟩

/-- The line above the circuit in a dump. -/
def title (f : Finished) : Text := "--- after " ++ f.name ++ " (" ++ f.stage.name ++ ")\n"

end Finished

structure Run where
  finished : List Finished
  result : Except Error Graph

namespace Run

def records (r : Run) : List PassRecord := r.finished.map Finished.record

end Run

section

variable {n m : Type → Type} [Monad m] [MonadLiftT n m]

namespace Context

def report (c : Context m) (f : Finished) : m Unit := do
  c.log f.record.logMessage
  match c.dump with
  | none => return ()
  | some write =>
    write f.title
    write (c.layout.graph f.after)

def conclude (c : Context m) (records : List PassRecord) : m Unit := do
  c.keep records
  match c.diagnostics with
  | none => return ()
  | some write => renderRecords c.layout write records

end Context

/-- Applies passes in order, behind those that have finished. -/
def runPasses (c : Context m) (finished : List Finished) (g : Graph) :
    List (Registration n) → m Run
  | [] => return ⟨finished, .ok g⟩
  | p :: rest => do
    let start ← c.now
    match ← (monadLift (p.pass.apply g) : m (Except Error Graph)) with
    | .error e => return ⟨finished, .error (.within p.pass.name e)⟩
    | .ok h =>
      let f : Finished := ⟨p.stage, p.pass.name, g, h, ⟨(← c.now) - start⟩⟩
      c.report f
      runPasses c (finished ++ [f]) h rest

end

structure Registry (n : Type → Type) where
  registrations : List (Registration n) := []
  started : Bool := false

namespace Registry

variable {n m : Type → Type}

/-- Registers a pass, or leaves the registry as it is. -/
def register (r : Registry n) (p : Pass n) (s : Stage) : Except Misuse Unit × Registry n :=
  if r.started then (.error (.lateRegistration p.name), r)
  else if s ∉ Stage.all then (.error (.invalidStage s.name), r)
  else (.ok (), { r with registrations := r.registrations ++ [⟨p, s⟩] })

def ofTable (table : List (Registration n)) : Except Misuse (Registry n) :=
  table.foldlM (fun r entry =>
    let (answer, r) := r.register entry.pass entry.stage
    answer.map fun _ => r) {}

def passesFor (r : Registry n) (s : Stage) : List (Pass n) :=
  (r.registrations.filter (·.stage = s)).map Registration.pass

/-- The registrations in the order in which their passes run. -/
def schedule (r : Registry n) : List (Registration n) :=
  Stage.all.flatMap fun s => r.registrations.filter (·.stage = s)

def close (r : Registry n) : Registry n := { r with started := true }

/-- Runs the pipeline. The registry that is left behind is closed. -/
def run [Monad m] [MonadLiftT n m] (c : Context m) (r : Registry n) (g : Graph) :
    m (Except Error Graph × Registry n) := do
  let run ← runPasses c [] g r.close.schedule
  match run.result with
  | .error e => return (.error e, r.close)
  | .ok h =>
    c.conclude run.records
    return (.ok h, r.close)

def standard [Pure n] : Registry n := { registrations := standardPasses }

end Registry

namespace Graph

/-- The run of the optimizer on a circuit. -/
def optimizeRun (g : Graph) : Run :=
  Id.run (runPasses (n := Id) .quiet [] g Registry.standard.schedule)

def optimize (g : Graph) : Except Error Graph :=
  (Id.run (Registry.run (n := Id) .quiet .standard g)).1

end Graph

end Netlist
