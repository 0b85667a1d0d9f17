import Netlist.Report.Table
import Netlist.Tool.Generator

/-!
# The commands

The program is the generator if it is called `flo-gen`, and the optimizer otherwise. Files, the
clock and the environment are those of the machine.
-/

namespace Netlist

def Text.toString? (t : Text) : Option String := String.fromUTF8? (ByteArray.mk t.toArray)

/-- The fault that an error of the machine stands for. -/
def FileFault.ofError : IO.Error → FileFault
  | .inappropriateType _ code _ => if code = 20 then .notDirectory else .isDirectory
  | .invalidArgument _ code _ => if code = 36 then .nameTooLong else .invalid
  | .alreadyExists .. => .occupied
  | _ => .absent

def withPath {α : Type} (action : FileAction) (path : Text) (f : String → IO α) :
    IO (Except FileError α) := do
  match path.toString? with
  | none => return .error ⟨action, path, .absent⟩
  | some s => try return .ok (← f s) catch e => return .error ⟨action, path, .ofError e⟩

instance : Files IO where
  read path := do
    match ← withPath .opening path fun s => IO.FS.readBinFile s with
    | .ok bytes => return .ok bytes.data.toList
    | .error e =>
      return .error (if e.fault = .isDirectory then { e with action := .reading } else e)
  write path content :=
    withPath .opening path fun s => IO.FS.writeBinFile s (ByteArray.mk content.toArray)
  makeDirectories path := withPath .creating path fun s => IO.FS.createDirAll s

/-- The environment, in which a variable that is not set is empty. -/
def readEnvironment (keys : List String) : IO (Text → Text) := do
  let values ← keys.mapM fun key => do
    return (Text.ofString key, Text.ofString ((← IO.getEnv key).getD ""))
  return fun key => (values.lookup key).getD []

def writeBytes (stream : IO.FS.Stream) (t : Text) : IO Unit := do
  stream.write (ByteArray.mk t.toArray)
  stream.flush

def finish (r : Report) : IO UInt32 := do
  writeBytes (← IO.getStdout) r.stdout
  writeBytes (← IO.getStderr) r.stderr
  return r.code.toUInt32

def runOptimizer (args : List Text) : IO UInt32 := do
  let environment ← readEnvironment
    ["FLOOPT_WORKERS", "FLOOPT_DIAGNOSTICS", "FLOOPT_DUMP_GRAPHS", "FLOOPT_LOG_LEVEL"]
  match Settings.ofEnvironment environment with
  | .error e => finish { code := 2, stderr := "panic: " ++ e.message ++ "\n" }
  | .ok settings =>
    let clock : IO Int := return (← IO.monoNanosNow)
    finish (← OptimizerTool.run settings environment .framed clock args)

def runGenerator (args : List Text) : IO UInt32 := do
  let picked ← IO.rand 1 (1 <<< 62)
  finish (← GeneratorTool.run picked args)

end Netlist

def main (args : List String) : IO UInt32 := do
  let args := args.map Netlist.Text.ofString
  if (toString (← IO.appPath)).endsWith "flo-gen" then Netlist.runGenerator args
  else Netlist.runOptimizer args
