import Netlist.Text.Quoted

/-!
# Errors

An `Error` is an answer about the input: a text that is no circuit, a circuit that breaks an
invariant, a file that cannot be used. A `Misuse` is a request that its caller should not have made.
Each names its cause; the wording of all of them is here.

An error met inside some activity is put `within` that activity. Its message then starts with the
activity's name, and its cause stays reachable through `syntaxError?` and `invariantError?`.
-/

namespace Netlist

/-- What is wrong with a line of a circuit's text. -/
inductive SyntaxFault where
  | shape
  | constantDestination (name : Text)
  | width (digits : Text)
  | redefinition (name : Text)
  | memoryArity
  | depth (digits : Text)
  | opcode (name : Text)
  | constant (value : Text)
  deriving DecidableEq, Repr

namespace SyntaxFault

def reason : SyntaxFault → Text
  | shape => "expected 'dest = opcode operands...'"
  | constantDestination name => "cannot assign to constant '" ++ name ++ "'"
  | width digits => "invalid width '" ++ digits ++ "'"
  | redefinition name => "redefinition of '" ++ name ++ "'"
  | memoryArity => "memory declaration takes exactly one depth"
  | depth digits => "invalid memory depth '" ++ digits ++ "'"
  | opcode name => "unknown opcode '" ++ name ++ "'"
  | constant value => "invalid constant '" ++ value ++ "'"

end SyntaxFault

/-- A fault with the number of its line, counted from one, and the text of that line. -/
structure SyntaxError where
  line : Int
  source : Text
  fault : SyntaxFault
  deriving DecidableEq, Repr

namespace SyntaxError

def wording (line : Int) (source reason : Text) : Text :=
  "Syntax error at line " ++ Text.ofInt line ++ ": " ++ reason ++ ": " ++ Text.quote source

def message (e : SyntaxError) : Text := wording e.line e.source e.fault.reason

end SyntaxError

/-- How a circuit breaks an invariant. -/
inductive Breach where
  | redefined
  | unknownWidth (operation : Text)
  | unsizedMemory
  | crossing (seed : Text) (current placed : Int)
  | unplaced
  | loop
  | unproduced
  | movSources (count : Nat)
  | dangling (operation : Text)
  | crash (component : Int) (reason : Text)
  deriving DecidableEq, Repr

namespace Breach

def reason : Breach → Text
  | redefined => "defined by more than one operation"
  | unknownWidth operation => "unknown width in '" ++ operation ++ "'"
  | unsizedMemory => "memory with unknown width or depth"
  | crossing seed current placed =>
    "reached from '" ++ seed ++ "' in component " ++ Text.ofInt current ++
      ", but already placed in component " ++ Text.ofInt placed
  | unplaced => "destination not in any component"
  | loop => "combinational loop"
  | unproduced => "no operation produces this node"
  | movSources count => "mov with " ++ Text.decimal count ++ " sources"
  | dangling operation => "read by '" ++ operation ++ "' but never produced"
  | crash component reason => "component " ++ Text.ofInt component ++ ": " ++ reason

end Breach

/-- A breach with the activity that found it and the name of the node it concerns, which is empty if
it concerns none. -/
structure InvariantError where
  place : Text
  node : Text
  breach : Breach
  deriving DecidableEq, Repr

namespace InvariantError

def wording (place node reason : Text) : Text :=
  let subject : Text := if node.isEmpty then [] else "node '" ++ node ++ "': "
  "InvariantError(" ++ place ++ "): " ++ subject ++ reason

def message (e : InvariantError) : Text := wording e.place e.node e.breach.reason

end InvariantError

/-- Why a path could not be used. -/
inductive FileFault where
  | absent
  | notDirectory
  | isDirectory
  | occupied
  | nameTooLong
  | invalid
  deriving DecidableEq, Repr

namespace FileFault

def reason : FileFault → Text
  | absent => "no such file or directory"
  | notDirectory => "not a directory"
  | isDirectory => "is a directory"
  | occupied => "file exists"
  | nameTooLong => "file name too long"
  | invalid => "invalid argument"

end FileFault

inductive FileAction where
  | opening | reading | creating
  deriving DecidableEq, Repr

namespace FileAction

def name : FileAction → Text
  | opening => "open"
  | reading => "read"
  | creating => "mkdir"

end FileAction

structure FileError where
  action : FileAction
  path : Text
  fault : FileFault
  deriving DecidableEq, Repr

namespace FileError

def message (e : FileError) : Text := e.action.name ++ " " ++ e.path ++ ": " ++ e.fault.reason

end FileError

inductive Error where
  | malformed (e : SyntaxError)
  | invariant (e : InvariantError)
  | file (e : FileError)
  | lineTooLong
  | outputsChanged (want got : List Text)
  | movLeft (operation : Text)
  | failure (reason : Text)
  | within (activity : Text) (e : Error)
  deriving DecidableEq, Repr

namespace Error

def message : Error → Text
  | malformed e => e.message
  | invariant e => e.message
  | file e => e.message
  | lineTooLong => "bufio.Scanner: token too long"
  | outputsChanged want got =>
    "outputs changed: want [" ++ Text.join "," want ++ "], got [" ++ Text.join "," got ++ "]"
  | movLeft operation => "mov left in the result: " ++ operation
  | failure reason => reason
  | within activity e => activity ++ ": " ++ message e

def syntaxError? : Error → Option SyntaxError
  | malformed e => some e
  | within _ e => syntaxError? e
  | _ => none

def invariantError? : Error → Option InvariantError
  | invariant e => some e
  | within _ e => invariantError? e
  | _ => none

end Error

inductive Misuse where
  | position (i : Int) (length : Nat)
  | notAssociative (opcode : Text)
  | lateRegistration (pass : Text)
  | invalidStage (stage : Text)
  | workerCount (n : Int)
  | invalidSetting (key : Text)
  | settingTooSmall (key : Text)
  | poolSize
  deriving DecidableEq, Repr

namespace Misuse

def message : Misuse → Text
  | position i length =>
    let bound : Text := if i < 0 then [] else " with length " ++ Text.decimal length
    "runtime error: index out of range [" ++ Text.ofInt i ++ "]" ++ bound
  | notAssociative opcode => "balance: not an associative opcode: " ++ opcode
  | lateRegistration pass => "opt: register after the pipeline has started: " ++ pass
  | invalidStage stage => "opt: invalid stage: " ++ stage
  | workerCount n => "floopt: invalid worker count: " ++ Text.ofInt n
  | invalidSetting key => "floopt: invalid value for " ++ key
  | settingTooSmall key => "floopt: value too small for " ++ key
  | poolSize => "runtime error: makeslice: cap out of range"

end Misuse

end Netlist
