import Netlist.Circuit.Node
import Netlist.Circuit.Opcode
import Netlist.Error

/-!
# Operations

An operation computes the value of its destination from the values of its sources, which it reads in
order and possibly more than once. It has a width of its own.
-/

namespace Netlist

structure Operation where
  dest : Node
  width : Width
  opcode : Opcode
  sources : List Node
  deriving DecidableEq, Repr

namespace Operation

/-- The destination and then the sources. -/
def operands (op : Operation) : List Node := op.dest :: op.sources

def text (op : Operation) : Text :=
  Text.join " " (op.dest.name :: "=" :: (op.opcode.name ++ Width.suffix op.width) ::
    op.sources.map Node.name)

/-- The source at a position, counted from zero. -/
def source (op : Operation) (i : Int) : Except Misuse Node :=
  match op.sources[i.toNat]? with
  | some v => if 0 ≤ i then .ok v else .error (.position i op.sources.length)
  | none => .error (.position i op.sources.length)

end Operation

end Netlist
