import Netlist.Circuit.Operation
import Netlist.Numeral
import Netlist.Text.Blank

/-!
# Statements

A line of a circuit's text is a statement `dest = name args...`, where the name may carry a width
behind a quote. It either declares a memory, if the name is `mem`, or is an operation.

A statement is read in two steps, because the question whether its destination is new comes in
between: `Assignment.ofText` takes the line apart, `Assignment.statement` gives the parts a meaning.
-/

namespace Netlist

/-- The largest width or depth that a text can give. -/
def widthLimit : Nat := (1 <<< 31) - 1

def quoteMark : UInt8 := 39

/-- Whether a word is written like a constant: it starts with a digit, or with a minus sign and a
digit. -/
def isLiteral : Text → Bool
  | 45 :: b :: _ => Text.isDigit b
  | b :: _ => Text.isDigit b
  | [] => false

/-- A word cut at its first quote into a name and a width. -/
def splitWidth (word : Text) : Except SyntaxFault (Text × Width) :=
  match word.dropWhile (· != quoteMark) with
  | [] => .ok (word, .unknown)
  | _ :: digits => match Numeral.decimal? widthLimit digits with
    | some w => .ok (word.takeWhile (· != quoteMark), w)
    | none => .error (.width digits)

structure Assignment where
  dest : Text
  name : Text
  width : Width
  args : List Text
  deriving DecidableEq, Repr

inductive Statement where
  | memory (dest : Text) (width depth : Width)
  | operation (dest : Text) (opcode : Opcode) (width : Width) (args : List Text)
  deriving DecidableEq, Repr

namespace Assignment

def ofWords : List Text → Except SyntaxFault Assignment
  | dest :: equals :: name :: args =>
    if equals ≠ "=" then .error .shape
    else if isLiteral dest then .error (.constantDestination dest)
    else match splitWidth name with
      | .error fault => .error fault
      | .ok (name, width) => .ok ⟨dest, name, width, args⟩
  | _ => .error .shape

def ofText (line : Text) : Except SyntaxFault Assignment := ofWords (Text.words line)

def statement (a : Assignment) : Except SyntaxFault Statement :=
  if a.name = "mem" then match a.args with
    | [digits] => match Numeral.decimal? widthLimit digits with
      | some depth => .ok (.memory a.dest a.width depth)
      | none => .error (.depth digits)
    | _ => .error .memoryArity
  else match Opcode.ofName? a.name with
    | some opcode => .ok (.operation a.dest opcode a.width a.args)
    | none => .error (.opcode a.name)

end Assignment

namespace Statement

def dest : Statement → Text
  | memory dest _ _ => dest
  | operation dest _ _ _ => dest

/-- The node that a statement defines. -/
def node : Statement → Node
  | memory dest width depth => { name := dest, width := width, kind := .memory depth }
  | operation dest _ width _ => { name := dest, width := width }

/-- Reads a line, given the destinations of the lines before it. -/
def ofText (defined : List Text) (line : Text) : Except SyntaxFault Statement := do
  let a ← Assignment.ofText line
  if a.dest ∈ defined then .error (.redefinition a.dest) else a.statement

end Statement

/-- The magnitude of an integer that is written as a numeral, behind a minus sign if negative. -/
def magnitude? : Text → Option Nat
  | 45 :: t => (Numeral.natural none t).toOption
  | t => (Numeral.natural none t).toOption

/-- The constant that a word stands for. Without a width of its own it is as wide as its value, and
at least one bit wide. -/
def literal (word : Text) : Except SyntaxFault Node := do
  let (value, width) ← splitWidth word
  match magnitude? value with
  | none => .error (.constant value)
  | some n =>
    let inferred : Width := if n = 0 then 1 else Numeral.bitLength n
    .ok { name := word, width := if width.isKnown then width else inferred, kind := .constant }

end Netlist
