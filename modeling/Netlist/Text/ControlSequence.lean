import Netlist.Text.Symbol

/-!
# Control sequences

A screen takes some parts of a text as instructions and shows nothing for them. Such a sequence
opens with the escape character. A style opens with `[` and closes with `m`. A command opens with
`]` and closes with a backslash. A command that begins with `8;` sets a link, and closes with a bell
or with an escape character and a backslash.

Characters between the escape character and the bracket that decides the kind belong to the
sequence; a command sets a link only if nothing stands between them. A sequence that is never closed
reaches to the end of the text.
-/

namespace Netlist.Text

/-- How far a control sequence has been read. -/
inductive ControlState where
  | outside
  /-- Only the escape character. -/
  | opened
  /-- No bracket so far, though characters have followed the escape character. -/
  | undecided
  | style
  | command
  /-- A command of which nothing has been read. -/
  | commandStart
  /-- A command of which `8` has been read. -/
  | linkStart
  | link (escaped : Bool)
  deriving DecidableEq, Repr

namespace ControlState

def escapeCharacter : Char := Char.ofNat 0x1B

def bell : Char := Char.ofNat 0x07

/-- In a command: `next` unless it is closed. -/
def commandOr (next : ControlState) (c : Char) : ControlState :=
  if c = '\\' then outside else next

def stepChar (s : ControlState) (c : Char) : ControlState :=
  match s with
  | outside => if c = escapeCharacter then opened else outside
  | opened => if c = '[' then style else if c = ']' then commandStart else undecided
  | undecided => if c = '[' then style else if c = ']' then command else undecided
  | style => if c = 'm' then outside else style
  | command => commandOr command c
  | commandStart => if c = '8' then linkStart else commandOr command c
  | linkStart => if c = ';' then link false else commandOr command c
  | link escaped =>
    if c = bell ∨ (escaped ∧ c = '\\') then outside else link (c = escapeCharacter)

/-- The state after one more symbol. -/
def step (s : ControlState) (x : Symbol) : ControlState := s.stepChar x.character

end ControlState

end Netlist.Text
