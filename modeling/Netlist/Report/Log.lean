import Netlist.Numeral
import Netlist.Report.Statistics
import Netlist.Text.Blank
import Netlist.Text.Quoted

/-!
# Log messages

A message has a level, a text and attributes. On a line it is written as a list of `key=value`,
where a value that would not read as one word is quoted.

Levels are numbers. Four of them have names, and the others are written by their distance from the
next name below; `Level.ofText?` reads the same notation with names in either case.
-/

namespace Netlist

abbrev Level := Int

namespace Level

def debug : Level := -4
def info : Level := 0
def warn : Level := 4
def error : Level := 8

def named : List (Text × Level) :=
  [("DEBUG", debug), ("INFO", info), ("WARN", warn), ("ERROR", error)]

def withOffset (name : Text) (offset : Int) : Text :=
  if offset = 0 then name
  else if 0 < offset then name ++ "+" ++ Text.ofInt offset
  else name ++ Text.ofInt offset

def text (l : Level) : Text :=
  if l < info then withOffset "DEBUG" (l - debug)
  else if l < warn then withOffset "INFO" (l - info)
  else if l < error then withOffset "WARN" (l - warn)
  else withOffset "ERROR" (l - error)

/-- A name in capitals. The dotless i is a letter with an ASCII capital, too. -/
def upper : Text → Text
  | 0xC4 :: 0xB1 :: t => 73 :: upper t
  | b :: t => Text.capital b :: upper t
  | [] => []

def isSign (b : UInt8) : Bool := b == 43 || b == 45

/-- Reads a name that may be followed by a signed distance. -/
def ofText? (t : Text) : Option Level := do
  let base ← named.lookup (upper (t.takeWhile fun b => !isSign b))
  match t.dropWhile fun b => !isSign b with
  | [] => return base
  | distance => return wrap (base + (← (Numeral.decimalInteger distance).toOption))

/-- The level that a setting asks for: warnings if it asks for none. -/
def ofSetting (t : Text) : Level := (ofText? t).getD warn

end Level

/-- Whether a value is quoted because of one of its symbols. -/
def needsQuote : Text.Symbol → Bool
  | .stray _ => true
  | .char c =>
    if c.toNat < 0x80 then c.toNat < 0x20 || c == ' ' || c == '"' || c == '='
    else c == Text.replacement || (Text.Symbol.char c).bytes ∈ Text.blanks || !Text.isPrintable c

def logValue (t : Text) : Text :=
  if t.isEmpty || (Text.symbols t).any needsQuote then Text.quote t else t

structure LogMessage where
  level : Level
  text : Text
  attributes : List (Text × Text)
  deriving DecidableEq, Repr

namespace LogMessage

def attributeText (key value : Text) : Text := key ++ "=" ++ logValue value

/-- The message on a line of its own, all of it as attributes. -/
def line (m : LogMessage) : Text :=
  Text.join " " (attributeText "level" m.level.text :: attributeText "msg" m.text ::
    m.attributes.map fun (key, value) => attributeText key value) ++ "\n"

/-- The message on a line of its own, with the text before the attributes. -/
def plainLine (m : LogMessage) : Text :=
  Text.join " " (m.level.text :: m.text ::
    m.attributes.map fun (key, value) => attributeText key value) ++ "\n"

end LogMessage

namespace PassRecord

def logMessage (r : PassRecord) : LogMessage where
  level := .debug
  text := "pass finished"
  attributes := [("stage", r.stage.name), ("pass", r.name), ("ops_in", Text.ofInt r.before),
    ("ops_out", Text.ofInt r.after), ("elapsed", r.elapsed.text)]

end PassRecord

end Netlist
