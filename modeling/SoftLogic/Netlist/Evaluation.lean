import SoftLogic.Netlist.Signals
import SoftLogic.Netlist.Walk

/-!
# Evaluation

Soft connectives on truth values in the unit interval:

* negation is `1 - a`;
* conjunction is `a * b`;
* disjunction is `a + b - a * b`.

On zero and one they agree with the boolean tables.  `Netlist.evaluate` evaluates a node: whatever is known
stays as it is, and what is not is computed from its operands and stored.
-/

namespace SoftLogic

variable {R : Type} [Scalar R]

/-- The value of a connective. -/
def Connective.apply : Connective → R → R → R
  | .and, a, b => a * b
  | .or, a, b => a + b - a * b

/-- The derivative of a connective with respect to one operand, given the other one. -/
def Connective.slope : Connective → R → R
  | .and, other => other
  | .or, other => 1 - other

namespace Netlist

/-- The value of a node whose operands are known. -/
def compute (net : Netlist) (r : Ref) : SignalM R R := do
  match net.gate r with
  | .plain | .input => throw .noRule
  | .sigmoid a => return Scalar.sigmoid (← SignalM.known a)
  | .not none => throw (.operandMissing (net.id r))
  | .not (some a) => return 1 - (← SignalM.known a)
  | .binary op _ none => throw (.secondMissing (net.id r) op.symbol)
  | .binary op a (some b) =>
    let x ← SignalM.known a
    let y ← SignalM.known b
    return op.apply x y
  | .cost a => return -Scalar.log (← SignalM.known a)

/-- The walk that evaluates: a node depends on its operands and is settled once its signal is known. -/
def evaluation (net : Netlist) : Visit (Signals R) where
  settled s r := (s.cell r).signal.isSome
  dependencies r := .ok (net.operands r)
  settle r := do SignalM.store r (← net.compute r)

/-- Evaluates a node and what it needs. -/
def evaluate (net : Netlist) (r : Ref) : SignalM R R := do
  net.evaluation.run net.size [.enter r]
  SignalM.known r

/-- What is known stays as it is. -/
theorem evaluate_of_known {net : Netlist} {s : Signals R} {r : Ref} {x : R}
    (h : (s.cell r).signal = some x) : net.evaluate r s = .ok x s := by
  have hs : net.evaluation.settled s (Task.enter r).ref = true := by simp [evaluation, Task.ref, h]
  have hrun : net.evaluation.run net.size [.enter r] s = .ok () s := by
    unfold Visit.run
    simp [bind, EStateM.bind, Visit.advance_of_settled hs, pure, EStateM.pure]
  simp [evaluate, bind, EStateM.bind, hrun, SignalM.known_of_some h]

/-- Writes the value that an input holds.  No other kind holds one. -/
def hold (net : Netlist) (r : Ref) (x : R) : SignalM R Unit := do
  match net.gate r with
  | .input => SignalM.store r x
  | gate => throw (.lacks gate.name "update_value")

/-- The truth value of the clause whose cost stands at `r`.  No other kind stands for a clause. -/
def truth (net : Netlist) (r : Ref) : SignalM R R := do
  match net.gate r with
  | .cost a => net.evaluate a
  | gate => throw (.lacks gate.name "truth")

end Netlist

end SoftLogic
