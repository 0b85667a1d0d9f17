import Netlist.Audit
import Netlist.Generator
import Netlist.Tool.Optimizer

/-!
# The generator as a command

The command writes random circuits to the files of a directory, one for each seed from some number
on. If it is told to verify, it optimizes every circuit and audits the result before it writes
anything for that seed.
-/

namespace Netlist.GeneratorTool

def usage : Text :=
  "Usage of flo-gen:\n" ++
  "  -max-file-num int\n    \tnumber of circuits to generate (default 16)\n" ++
  "  -ops int\n    \toperations per circuit (default 256)\n" ++
  "  -out string\n    \toutput directory (default \"testdata\")\n" ++
  "  -seed int\n    \tseed of the first circuit, 0 picks a random one\n" ++
  "  -verify\n    \toptimize every circuit and check the result\n"

def flags : List Flag :=
  [⟨"out", .word⟩, ⟨"max-file-num", .integer⟩, ⟨"ops", .integer⟩, ⟨"seed", .integer⟩,
   ⟨"verify", .switch⟩]

structure Plan where
  directory : Text
  count : Int
  operations : Int
  seed : Int
  verify : Bool
  deriving DecidableEq, Repr

namespace Plan

def ofArguments (a : Arguments) : Plan where
  directory := a.word "out" "testdata"
  count := a.integer "max-file-num" 16
  operations := a.integer "ops" 256
  seed := a.integer "seed" 0
  verify := a.switch "verify" false

def isSensible (p : Plan) : Bool := !p.directory.isEmpty && 0 < p.count && 0 ≤ p.operations

end Plan

def failed (text : Text) (attributes : List (Text × Text)) : Report where
  code := 1
  stderr := (LogMessage.mk .error text attributes).plainLine

/-- The circuit for a seed. -/
def circuit (seed operations : Int) : Except Misuse Graph :=
  (Graph.generate WordSource.congruential.toRandomSource { operations := operations }).run'
    (UInt64.ofInt seed)

/-- Optimizes a circuit and audits the result. -/
def verify (g : Graph) : Except Error Unit := do g.audit (← g.optimize)

variable {m : Type → Type} [Monad m] [Files m]

def writeCircuit (p : Plan) (seed : Int) : m (Except Report Unit) := do
  let file := Path.join p.directory (Text.ofInt seed ++ ".flo")
  match circuit seed p.operations with
  | .error e => return .error { code := 2, stderr := "panic: " ++ e.message ++ "\n" }
  | .ok g => match if p.verify then verify g else .ok () with
    | .error e =>
      return .error (failed "verify circuit failed"
        [("seed", Text.ofInt seed), ("error", e.message)])
    | .ok () => match g.write with
      | .error e =>
        return .error (failed "write circuit failed" [("file", file), ("error", e.message)])
      | .ok t => match ← Files.write file t with
        | .error e =>
          return .error (failed "write circuit failed" [("file", file), ("error", e.message)])
        | .ok () => return .ok ()

/-- Writes circuits for consecutive seeds, up to the first that fails. -/
def writeCircuits (p : Plan) : (count : Nat) → (seed : Int) → m (Except Report Unit)
  | 0, _ => return .ok ()
  | count + 1, seed => do
    match ← writeCircuit p seed with
    | .error r => return .error r
    | .ok () => writeCircuits p count (wrap (seed + 1))

def carryOut (p : Plan) : m Report := do
  match ← Files.makeDirectories p.directory with
  | .error e =>
    return failed "create output directory failed" [("dir", p.directory), ("error", e.message)]
  | .ok () => match ← writeCircuits p p.count.toNat p.seed with
    | .error r => return r
    | .ok () => return {
        code := 0
        stdout := "generated " ++ Text.ofInt p.count ++ " circuits in " ++ p.directory ++ "\n" }

/-- Runs the command. A plan without a seed takes the one that is picked for it. -/
def run (picked : Int) (args : List Text) : m Report := do
  match parseFlags flags [] args with
  | .error .help => return { code := 0, stderr := usage }
  | .error e => return { code := 2, stderr := e.message ++ "\n" ++ usage }
  | .ok a =>
    let p := Plan.ofArguments a
    if p.isSensible then carryOut (if p.seed = 0 then { p with seed := picked } else p)
    else return { code := 1, stderr := usage }

end Netlist.GeneratorTool
