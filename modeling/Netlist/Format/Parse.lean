import Netlist.Circuit.Graph
import Netlist.Format.Statement

/-!
# Circuits from texts

A text is read in two phases. The first turns its lines into statements, each of which defines a new
name; blank lines and lines that start with `#` are left out. The second finds the node for each
argument of an operation: one that some statement defines, anywhere in the text, or a constant, or
else a wire of unknown width.

The first error in the first phase is the error of the whole; if there is none, the first constant
that cannot be read is.
-/

namespace Netlist

/-- A statement with its line, counted from one, and the text of that line without the blanks around
it. -/
structure Located where
  line : Nat
  source : Text
  statement : Statement
  deriving DecidableEq, Repr

namespace Located

def dest (s : Located) : Text := s.statement.dest

def fail {α : Type} (s : Located) (fault : SyntaxFault) : Except Error α :=
  .error (.malformed ⟨s.line, s.source, fault⟩)

end Located

/-- Lines of so many bytes or more are not read. -/
def lineLimit : Nat := 1 <<< 24

/-- The statement of a line, if it is neither blank nor a comment. -/
def content? (line : Text) : Option Text :=
  match Text.trimStart (Text.dropReturn line) with
  | [] => none
  | 35 :: _ => none
  | body => some (Text.trimEnd body)

/-- Reads lines behind the first `n`, whose statements are given in reverse. -/
def readLines : (n : Nat) → (read : List Located) → List Text → Except Error (List Located)
  | _, read, [] => .ok read.reverse
  | n, read, line :: lines =>
    if lineLimit ≤ line.length then .error .lineTooLong
    else match content? line with
      | none => readLines (n + 1) read lines
      | some source => match Statement.ofText (read.map Located.dest) source with
        | .error fault => .error (.malformed ⟨n + 1, source, fault⟩)
        | .ok statement => readLines (n + 1) (⟨n + 1, source, statement⟩ :: read) lines

def statements (t : Text) : Except Error (List Located) := readLines 0 [] (Text.lines t)

/-- The node that an argument stands for, given the nodes that statements define. -/
def argument (defined : List Node) (word : Text) : Except SyntaxFault Node :=
  match defined.find? (·.name = word) with
  | some v => .ok v
  | none => if isLiteral word then literal word else .ok { name := word, width := .unknown }

/-- The operation of a statement, if it is one. -/
def operation? (defined : List Node) (s : Located) : Except Error (Option Operation) :=
  match s.statement with
  | .memory _ _ _ => .ok none
  | .operation _ opcode width args => match args.mapM (argument defined) with
    | .error fault => s.fail fault
    | .ok sources => .ok (some ⟨s.statement.node, width, opcode, sources⟩)

namespace Graph

def ofStatements (read : List Located) : Except Error Graph := do
  let defined := read.map (·.statement.node)
  let operations ← read.mapM (operation? defined)
  return { operations := operations.filterMap id, declared := defined.filter Node.isMemory }

def parse (t : Text) : Except Error Graph := statements t >>= ofStatements

end Graph

end Netlist
