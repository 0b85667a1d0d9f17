import Netlist.Circuit.Graph
import Netlist.Numeral
import Netlist.Random

/-!
# Random circuits

`generate` makes a circuit from a configuration and a random source: inputs first, then operations
that read nodes defined before them or now and then the constant one, and at last outputs that read
any of these nodes. What the configuration leaves open is chosen at random or has a default.
-/

namespace Netlist

namespace Generator

structure Config where
  inputs : Int := 0
  operations : Int := 0
  outputs : Int := 0
  width : Width := 0
  opcodes : List Opcode := []
  deriving DecidableEq, Repr

def defaultOpcodes : List Opcode := [.and, .and, .or, .xor, .mov, .add, .not]

/-- Opcodes with a single connective, of which the optimizer keeps every circuit closed. -/
def singleBitwiseOpcodes : List Opcode := [.and, .and, .add, .not, .neg]

def arity : Opcode → Nat
  | .mov | .not | .neg | .log2 => 1
  | .mux => 3
  | _ => 2

/-- More nodes than this cannot be addressed. -/
def poolLimit : Int := 1 <<< 45

def one : Node := { name := "1", width := 1, kind := .constant }

variable {σ : Type} (r : RandomSource σ)

abbrev Draw (σ : Type) := StateT σ (Except Misuse)

def between (low high : Int) : Draw σ Int := fun s => .ok (r.between low high s)

/-- An element of a list at random. -/
def choose {α : Type} (l : List α) : Draw σ α := do
  let i ← between r 0 (l.length - 1)
  match l[i.toNat]? with
  | some a => if 0 ≤ i then return a else throw (.position i l.length)
  | none => throw (.position i l.length)

/-- A number that is drawn unless the configuration gives it. -/
def orBetween (given low high : Int) : Draw σ Int :=
  if given ≤ 0 then between r low high else return given

def pick (pool : List Node) : Draw σ Node := do
  if (← between r 0 9) = 0 then return one else choose r pool

def wire (base : String) (i : Nat) (width : Width) : Node :=
  { name := Text.ofString base ++ Text.decimal i, width := width }

def inputOperation (width : Width) (i : Nat) : Operation := ⟨wire "in" i width, width, .input, []⟩

def innerOperation (width : Width) (opcodes : List Opcode) (pool : List Node) (i : Nat) :
    Draw σ Operation := do
  let opcode ← choose r opcodes
  let sources ← (List.replicate (arity opcode) ()).mapM fun _ => pick r pool
  return ⟨wire "n" i width, width, opcode, sources⟩

def outputOperation (width : Width) (pool : List Node) (i : Nat) : Draw σ Operation := do
  return ⟨wire "out" i width, width, .output, [← choose r pool]⟩

/-- The numbers from `n` down to one. -/
def countdown (n : Int) : List Nat := ((List.range n.toNat).map (· + 1)).reverse

/-- Operations behind those given, each of which may read the destinations of all before it. -/
def extend (width : Width) (opcodes : List Opcode) :
    (numbers : List Nat) → List Operation → Draw σ (List Operation)
  | [], ops => return ops
  | i :: numbers, ops => do
    let op ← innerOperation r width opcodes (ops.map Operation.dest) i
    extend width opcodes numbers (ops ++ [op])

end Generator

open Generator in
def Graph.generate {σ : Type} (r : RandomSource σ) (c : Config) : Draw σ Graph := do
  let inputs ← orBetween r c.inputs 2 5
  let outputs ← orBetween r c.outputs 1 3
  let width := if c.width ≤ 0 then 8 else c.width
  let opcodes := if c.opcodes.isEmpty then defaultOpcodes else c.opcodes
  let capacity := wrap (inputs + c.operations)
  if capacity < 0 ∨ poolLimit < capacity then throw .poolSize
  let ops ← extend r width opcodes (List.range c.operations.toNat)
    ((countdown inputs).map (inputOperation width))
  let outs ← (countdown outputs).mapM (outputOperation r width (ops.map Operation.dest))
  return { operations := ops ++ outs }

end Netlist
