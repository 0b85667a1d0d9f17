import Netlist.Text.Basic

/-!
# Nodes

A node carries a value of some width. It is a wire, a constant, or a memory of some depth. A width
or depth below zero is not known.

Two nodes are the same when they agree in everything. A circuit may hold different nodes of one
name; the tag tells apart those that agree in all else.
-/

namespace Netlist

abbrev Width := Int

namespace Width

def unknown : Width := -1

def isKnown (w : Width) : Bool := 0 ≤ w

def text (w : Width) : Text := if isKnown w then Text.ofInt w else "?"

/-- The mark behind a name that has a width: a quote and the number. -/
def suffix (w : Width) : Text := if isKnown w then "'" ++ Text.ofInt w else []

end Width

inductive Kind where
  | wire
  | constant
  | memory (depth : Width)
  deriving DecidableEq, Repr

structure Node where
  name : Text
  width : Width
  kind : Kind := .wire
  tag : Nat := 0
  deriving DecidableEq, Repr

namespace Node

def isConstant (v : Node) : Bool := v.kind == .constant

def isMemory (v : Node) : Bool := match v.kind with
  | .memory _ => true
  | _ => false

def depth (v : Node) : Width := match v.kind with
  | .memory d => d
  | _ => .unknown

def text (v : Node) : Text := v.name ++ Width.suffix v.width

end Node

end Netlist
