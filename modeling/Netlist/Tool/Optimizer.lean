import Netlist.FileSystem.Basic
import Netlist.Format.Parse
import Netlist.Format.Print
import Netlist.Pipeline.Registry
import Netlist.Settings
import Netlist.Tool.Flags

/-!
# The optimizer as a command

The command reads a circuit from one file, optimizes it, and writes the result to another, which may
be the same. Nothing is written unless everything before has succeeded.

Its messages go to the error output: the log while the passes run, then the error if there is one,
and at the end the table of statistics if it is asked for, which is held back until then.
-/

namespace Netlist

/-- What a command leaves behind apart from files. -/
structure Report where
  code : Nat
  stdout : Text := []
  stderr : Text := []
  deriving DecidableEq, Repr

def version : Text := "0.1.0"

namespace OptimizerTool

def usage : Text :=
  "flo-opt <in.flo> <out.flo>: Optimizes Flo files\n" ++
  "  --help: Prints this help text\n" ++
  "  --version: Prints the version of this program in use\n"

def flags : List Flag := [⟨"help", .switch⟩, ⟨"version", .switch⟩]

/-- What the environment and the settings ask for. -/
structure Wishes where
  threshold : Level
  dump : Bool
  /-- The table is written as soon as the passes are done. -/
  earlyTable : Bool
  /-- The table is written at the very end. -/
  lateTable : Bool
  deriving DecidableEq, Repr

/-- A setting that is on unless it is empty, no numeral, or zero. -/
def isOn (value : Text) : Bool :=
  match Numeral.decimalInteger value with
  | .ok i => i ≠ 0
  | .error .outOfRange => true
  | .error .malformed => false

namespace Wishes

def ofEnvironment (settings : Settings) (environment : Text → Text) : Wishes :=
  let late := isOn (environment "FLOOPT_DIAGNOSTICS")
  { threshold := .ofSetting (environment "FLOOPT_LOG_LEVEL")
    dump := settings.dump
    earlyTable := settings.diagnostics && !late
    lateTable := late }

end Wishes

/-- What the command has written to the error output, and what it holds back. -/
structure Console where
  stderr : Text := []
  held : Text := []
  record : List PassRecord := []
  deriving DecidableEq, Repr

section

variable {m : Type → Type} [Monad m]

def say (t : Text) : StateT Console m Unit := modify fun c => { c with stderr := c.stderr ++ t }

def holdBack (t : Text) : StateT Console m Unit := modify fun c => { c with held := c.held ++ t }

/-- Writes the messages from the level on that is wished for. -/
def sayMessage (w : Wishes) (layout : Layout) (message : LogMessage) : StateT Console m Unit :=
  if w.threshold ≤ message.level then say (layout.line message) else return ()

def context (w : Wishes) (layout : Layout) (clock : m Int) : Context (StateT Console m) where
  now := monadLift clock
  keep records := modify fun c => { c with record := records }
  log := sayMessage w layout
  dump := if w.dump then some say else none
  diagnostics := if w.lateTable then some holdBack else if w.earlyTable then some say else none
  layout := layout

end

def consistencyMessage (input : Text) (e : Error) : LogMessage where
  level := .error
  text := "internal consistency check failed"
  attributes := [("input", input), ("error", e.message)]

variable {m : Type → Type} [Monad m]

def complain (w : Wishes) (layout : Layout) (input : Text) (e : Error) : StateT Console m Unit := do
  if e.invariantError?.isSome then
    sayMessage w layout (consistencyMessage input e)
  say ("flo-opt: " ++ e.message ++ "\n")

/-- Complains about an error if there is one, and gives the code to exit with. -/
def tell (w : Wishes) (layout : Layout) (input : Text) : Except Error Unit → StateT Console m Nat
  | .error e => do
    complain w layout input e
    return 1
  | .ok () => return 0

variable [Files m]

def optimizeFile (c : Context (StateT Console m)) (input output : Text) :
    StateT Console m (Except Error Unit) := do
  match ← (Files.read input : m _) with
  | .error e => return .error (.file e)
  | .ok content => match Graph.parse content with
    | .error e => return .error e
    | .ok g => match (← Registry.run (n := Id) c .standard g).1 >>= Graph.write with
      | .error e => return .error e
      | .ok t => match ← (Files.write output t : m _) with
        | .error e => return .error (.file e)
        | .ok () => return .ok ()

def optimizeAndTell (w : Wishes) (layout : Layout) (clock : m Int) (input output : Text) :
    m Report := do
  let work : StateT Console m Nat := do
    tell w layout input (← optimizeFile (context w layout clock) input output)
  let (code, console) ← work.run {}
  return { code := code, stderr := console.stderr ++ console.held }

def runWith (w : Wishes) (layout : Layout) (clock : m Int) (args : List Text) : m Report := do
  match parseFlags flags [] args with
  | .error .help => return { code := 0, stdout := usage }
  | .error e => return { code := 1, stderr := "flo-opt: " ++ e.message ++ "\n" ++ usage }
  | .ok a =>
    if a.switch "help" false then return { code := 0, stdout := usage }
    else if a.switch "version" false then return { code := 0, stdout := version ++ "\n" }
    else match a.rest with
      | [input, output] => optimizeAndTell w layout clock input output
      | _ => return { code := 1, stderr := usage }

def run (settings : Settings) (environment : Text → Text) (layout : Layout) (clock : m Int)
    (args : List Text) : m Report :=
  runWith (.ofEnvironment settings environment) layout clock args

end OptimizerTool

end Netlist
