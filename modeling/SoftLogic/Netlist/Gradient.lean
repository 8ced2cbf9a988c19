import SoftLogic.Netlist.Evaluation

/-!
# Gradients

The gradient of a node is pulled: every consumer first receives its own gradient and pushes it, times its
local derivative, into its operands, and only then does the node push.  A node pushes at most once until
it is reset, so several inputs can be asked in turn and share the work.

The gradient of a cost is one, as the total is a plain sum of costs.
-/

namespace SoftLogic

variable {R : Type} [Scalar R]

namespace Netlist

/-- Adds to the gradient of a node; that of a cost is fixed. -/
def addGradient (net : Netlist) (r : Ref) (d : R) : SignalM R Unit :=
  match net.gate r with
  | .cost _ => throw (.gradientFixed (net.id r))
  | _ => SignalM.gather r d

/-- The consumers that have to push before a node may: a sigmoid may have none, a cost has none, and any
other node has to have one. -/
def pullTargets (net : Netlist) (r : Ref) : Except Fault (List Ref) :=
  match net.gate r with
  | .sigmoid _ => .ok (net.consumers r)
  | .cost _ => .ok []
  | .binary op _ none => .error (.secondUndefined (net.id r) op.symbol)
  | gate =>
    if (net.consumers r).isEmpty then .error (.noConsumer (net.id r) gate.symbol)
    else .ok (net.consumers r)

/-- Pushes the gradient of a node, times its local derivatives, into its operands. -/
def pushGradient (net : Netlist) (r : Ref) : SignalM R Unit := do
  match net.gate r with
  | .plain | .input => throw .noRule
  | .sigmoid a =>
    let f ← net.evaluate r
    net.addGradient a ((← SignalM.gradient r) * f * (1 - f))
  | .not none => throw (.operandMissing (net.id r))
  | .not (some a) => net.addGradient a (-(← SignalM.gradient r))
  | .binary op _ none => throw (.secondMissing (net.id r) op.symbol)
  | .binary op a (some b) =>
    let x ← net.evaluate a
    let y ← net.evaluate b
    net.addGradient a ((← SignalM.gradient r) * op.slope y)
    net.addGradient b ((← SignalM.gradient r) * op.slope x)
  | .cost a =>
    let x ← net.evaluate a
    net.addGradient a ((← SignalM.gradient r) * -(1 / x))

/-- The walk that pulls: a node depends on its consumers and is settled once it has pushed. -/
def pulling (net : Netlist) : Visit (Signals R) where
  settled s r := (s.cell r).pushed
  dependencies := net.pullTargets
  settle r := do
    SignalM.markPushed r
    net.pushGradient r

/-- Pulls the gradient of a node and pushes it on.  An input is where a pull starts, so it is refused. -/
def pull (net : Netlist) (r : Ref) : SignalM R Unit := do
  match net.gate r with
  | .input => throw (.pullOrigin (net.id r))
  | _ => net.pulling.run net.size [.enter r]

/-- Pulls the gradient of the total cost with respect to an input. -/
def inputGradient (net : Netlist) (r : Ref) : SignalM R R := do
  match net.gate r with
  | .input =>
    match net.pullTargets r with
    | .error fault => throw fault
    | .ok consumers =>
      consumers.forM net.pull
      SignalM.gradient r
  | gate => throw (.lacks gate.name "resulting_grad")

end Netlist

end SoftLogic
