import Netlist.Circuit.Graph

/-!
# Temporaries

A minter makes new nodes for a circuit. Their names are made of the minter's scope and a running
number, and numbers whose name the circuit already uses are passed over. Their tag has not been used
in the circuit before.
-/

namespace Netlist

structure Minter where
  taken : List Text
  scope : Int
  tag : Nat := 0
  next : Nat := 0
  deriving DecidableEq, Repr

namespace Minter

def ofGraph (g : Graph) (scope : Int) : Minter where
  taken := g.nodes.map Node.name
  scope := scope
  tag := g.lastTag + 1

def temporaryName (scope : Int) (n : Nat) : Text :=
  "OPT" ++ Text.ofInt scope ++ "_" ++ Text.decimal n

/-- The first number from `n` on whose name is not taken, looking at `tries` of them. As many tries
as there are names taken are enough. -/
def firstFree (taken : List Text) (scope : Int) : (tries : Nat) → (n : Nat) → Nat
  | 0, n => n
  | tries + 1, n =>
    if temporaryName scope n ∈ taken then firstFree taken scope tries (n + 1) else n

/-- Makes a node as wide as `like`. -/
def mint (m : Minter) (like : Node) : Node × Minter :=
  let n := firstFree m.taken m.scope m.taken.length m.next
  ({ name := temporaryName m.scope n, width := like.width, tag := m.tag }, { m with next := n + 1 })

end Minter

end Netlist
