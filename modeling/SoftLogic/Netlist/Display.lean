import SoftLogic.Netlist.Signals
import SoftLogic.Decimal.Shortest

/-!
# Nodes as text

A node in brief: the name of its kind, its id, its signal and its gradient.  An input shows no signal, as
what it holds is not computed.
-/

namespace SoftLogic

/-- The computed signal of a node, which an input never has. -/
def Netlist.output {R : Type} [Scalar R] (net : Netlist) (s : Signals R) (r : Ref) : Option R :=
  if (net.gate r).isInput then none else (s.cell r).signal

/-- A node in brief. -/
def Netlist.brief (net : Netlist) (s : Signals Float) (r : Ref) : String :=
  let output := ((net.output s r).map Decimal.shortest).getD "None"
  let gradient := Decimal.shortest (s.cell r).gradient
  s!"{(net.gate r).name}(id={net.id r}, output={output}, grad={gradient})"

end SoftLogic
