import Netlist.Text.Basic

/-!
# Opcodes

What an operation computes. An opcode is stored in one byte; the codes from 28 on are not assigned
and are kept apart from one another.

The three bitwise connectives are associative and commutative, so any tree of one of them over the
same leaves has the same value. Two of them are idempotent; of `xor` equal leaves cancel in pairs.
-/

namespace Netlist

inductive Opcode where
  | nop | add | sub | mul | div | and | or | xor | not | neg | mov | output | input | reg | mux | eq
  | neq | lt | gte | lsh | rsh | arsh | cat | rst | rd | wr | msk | log2
  | unassigned (n : Fin 228)
  deriving DecidableEq, Repr

namespace Opcode

/-- The opcodes with a name, in the order of their codes. -/
def assigned : List Opcode :=
  [nop, add, sub, mul, div, and, or, xor, not, neg, mov, output, input, reg, mux, eq, neq, lt, gte,
   lsh, rsh, arsh, cat, rst, rd, wr, msk, log2]

theorem length_assigned : assigned.length = 28 := rfl

def name : Opcode → Text
  | nop => "nop"
  | add => "add"
  | sub => "sub"
  | mul => "mul"
  | div => "div"
  | and => "and"
  | or => "or"
  | xor => "xor"
  | not => "not"
  | neg => "neg"
  | mov => "mov"
  | output => "out"
  | input => "in"
  | reg => "reg"
  | mux => "mux"
  | eq => "eq"
  | neq => "neq"
  | lt => "lt"
  | gte => "gte"
  | lsh => "lsh"
  | rsh => "rsh"
  | arsh => "arsh"
  | cat => "cat"
  | rst => "rst"
  | rd => "rd"
  | wr => "wr"
  | msk => "msk"
  | log2 => "log2"
  | unassigned n => "op(" ++ Text.decimal (28 + n) ++ ")"

def ofName? (t : Text) : Option Opcode := assigned.find? (·.name = t)

def ofCode (code : UInt8) : Opcode :=
  if h : code.toNat < assigned.length then assigned[code.toNat]
  else unassigned ⟨code.toNat - 28, by
    have := code.toNat_lt
    rw [length_assigned] at h
    omega⟩

def code : Opcode → Nat
  | unassigned n => 28 + n
  | op => assigned.idxOf op

theorem name_injOn_assigned : (assigned.map name).Nodup := by decide

end Opcode

/-- The associative connectives. -/
inductive Bitwise where
  | and | or | xor
  deriving DecidableEq, Repr

namespace Bitwise

def opcode : Bitwise → Opcode
  | and => .and
  | or => .or
  | xor => .xor

def ofOpcode? : Opcode → Option Bitwise
  | .and => some and
  | .or => some or
  | .xor => some xor
  | _ => none

/-- Whether a value combined with itself is that value. -/
def isIdempotent : Bitwise → Bool
  | and => true
  | or => true
  | xor => false

theorem ofOpcode?_eq_some {op : Opcode} {b : Bitwise} : ofOpcode? op = some b ↔ op = b.opcode := by
  cases op <;> cases b <;> simp [ofOpcode?, opcode]

end Bitwise

namespace Opcode

def isAssociative (op : Opcode) : Bool := (Bitwise.ofOpcode? op).isSome

def isIdempotent (op : Opcode) : Bool := (Bitwise.ofOpcode? op).any Bitwise.isIdempotent

end Opcode

end Netlist
