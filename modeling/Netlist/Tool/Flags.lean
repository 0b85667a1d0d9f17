import Netlist.Numeral
import Netlist.Text.Quoted

/-!
# Flags of a command line

The arguments of a command start with flags. A flag is written with one dash or two; its value
stands behind an equals sign or is the next argument. A switch needs no value and takes one only
behind an equals sign. The first argument that is no flag, or `--`, ends the flags.
-/

namespace Netlist

inductive FlagKind where
  | switch | word | integer
  deriving DecidableEq, Repr

structure Flag where
  name : Text
  kind : FlagKind
  deriving DecidableEq, Repr

inductive FlagValue where
  | switch (on : Bool)
  | word (t : Text)
  | integer (i : Int)
  deriving DecidableEq, Repr

inductive FlagError where
  | help
  | shape (arg : Text)
  | unknown (name : Text)
  | switchValue (value name : Text)
  | noValue (name : Text)
  | integerValue (value name : Text) (fault : Numeral.Fault)
  deriving DecidableEq, Repr

namespace FlagError

def faultText : Numeral.Fault → Text
  | .malformed => "parse error"
  | .outOfRange => "value out of range"

def message : FlagError → Text
  | help => "flag: help requested"
  | shape arg => "bad flag syntax: " ++ arg
  | unknown name => "flag provided but not defined: -" ++ name
  | switchValue value name =>
    "invalid boolean value " ++ Text.quote value ++ " for -" ++ name ++ ": parse error"
  | noValue name => "flag needs an argument: -" ++ name
  | integerValue value name fault =>
    "invalid value " ++ Text.quote value ++ " for flag -" ++ name ++ ": " ++ faultText fault

end FlagError

def switchWords : List (Text × Bool) :=
  [("1", true), ("t", true), ("T", true), ("TRUE", true), ("true", true), ("True", true),
   ("0", false), ("f", false), ("F", false), ("FALSE", false), ("false", false), ("False", false)]

namespace Flag

/-- The value of a flag that needs one. -/
def value (f : Flag) (t : Text) : Except FlagError FlagValue :=
  match f.kind with
  | .switch => match switchWords.lookup t with
    | some on => .ok (.switch on)
    | none => .error (.switchValue t f.name)
  | .word => .ok (.word t)
  | .integer => match Numeral.integer t with
    | .ok i => .ok (.integer i)
    | .error fault => .error (.integerValue t f.name fault)

end Flag

/-- What an argument can be where a flag may stand. -/
inductive Argument where
  | positional
  | terminator
  | malformed
  | flag (name : Text) (value : Option Text)
  deriving DecidableEq, Repr

namespace Argument

def dash : UInt8 := 45

def equals : UInt8 := 61

/-- A name, and a value behind the first equals sign after its first byte. -/
def ofName : Text → Argument
  | [] => .malformed
  | b :: t =>
    if b = dash ∨ b = equals then .malformed
    else match t.dropWhile (· != equals) with
      | [] => .flag (b :: t) none
      | _ :: value => .flag (b :: t.takeWhile (· != equals)) (some value)

def ofText (t : Text) : Argument :=
  match t with
  | a :: b :: rest =>
    if a ≠ dash then .positional
    else if b ≠ dash then ofName (b :: rest)
    else if rest.isEmpty then .terminator
    else ofName rest
  | _ => .positional

end Argument

/-- The values given to flags, the last one first, and the arguments behind the flags. -/
structure Arguments where
  values : List (Text × FlagValue)
  rest : List Text
  deriving DecidableEq, Repr

def parseFlags (flags : List Flag) (values : List (Text × FlagValue)) :
    List Text → Except FlagError Arguments
  | [] => .ok ⟨values, []⟩
  | arg :: rest => match Argument.ofText arg with
    | .positional => .ok ⟨values, arg :: rest⟩
    | .terminator => .ok ⟨values, rest⟩
    | .malformed => .error (.shape arg)
    | .flag name given => match flags.find? (·.name = name) with
      | none => .error (if name = "help" ∨ name = "h" then .help else .unknown name)
      | some flag => match given with
        | some t => do parseFlags flags ((name, ← flag.value t) :: values) rest
        | none =>
          if flag.kind = .switch then parseFlags flags ((name, .switch true) :: values) rest
          else match rest with
            | [] => .error (.noValue name)
            | t :: rest => do parseFlags flags ((name, ← flag.value t) :: values) rest

namespace Arguments

def switch (a : Arguments) (name : Text) (default : Bool) : Bool :=
  match a.values.lookup name with
  | some (.switch on) => on
  | _ => default

def word (a : Arguments) (name default : Text) : Text :=
  match a.values.lookup name with
  | some (.word t) => t
  | _ => default

def integer (a : Arguments) (name : Text) (default : Int) : Int :=
  match a.values.lookup name with
  | some (.integer i) => i
  | _ => default

end Arguments

end Netlist
