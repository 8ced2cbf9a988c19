import SoftLogic.Circuit.Basic
import SoftLogic.Netlist.Gradient
import SoftLogic.Netlist.Reset
import SoftLogic.Tensor

/-!
# Propagation through a circuit

The total cost of a circuit at given raw values, its gradient, and the truth values of its clauses.

`costAt` writes the inputs and evaluates the clauses; what is known already stays, so two calls in a row
without a reset give the cost at the first values.  `gradient` pulls the gradient for the values of the last
`costAt` and resets the circuit.  `clauseValues` and `satisfiedBy` reset it as well.
-/

namespace SoftLogic

/-- Why an operation on a circuit was refused. -/
inductive Refusal
  /-- The values are no vector of the expected length. -/
  | shape (expected : Nat) (got : List Nat)
  /-- The values have no shape. -/
  | tensor (error : TensorError)
  /-- A single value has no places to step at. -/
  | noPlaces
  /-- A difference quotient over a step of length zero. -/
  | zeroStep
  /-- Propagation met a fault. -/
  | fault (fault : Fault)
  deriving DecidableEq, Repr

/-- The wording of a refusal. -/
def Refusal.message : Refusal → String
  | .shape expected got => s!"Expected {expected} value(s), got shape {shapeText got}"
  | .tensor e => e.message
  | .noPlaces => "too many indices for array: array is 0-dimensional, but 1 were indexed"
  | .zeroStep => "float division by zero"
  | .fault f => f.message

/-- A computation on the signals of a circuit that may be refused. -/
abbrev CircuitM (R : Type) := EStateM Refusal (Signals R)

namespace Circuit

variable {R : Type} [Scalar R]

/-- Runs a computation on signals. -/
def lift {α : Type} (x : SignalM R α) : CircuitM R α := EStateM.adaptExcept .fault x

/-- The signals of a circuit that nothing has touched. -/
def signals (c : Circuit) : Signals R := .fresh c.net

/-- The entries of a vector with one value for each variable. -/
def vector? (c : Circuit) {S : Type} (values : Tensor S) : Except Refusal (List S) :=
  match values.shape with
  | .error e => .error (.tensor e)
  | .ok shape => if shape = [c.numVars] then .ok values.entries else .error (.shape c.numVars shape)

/-- Writes the raw values of the variables. -/
def write (c : Circuit) (values : Tensor R) : CircuitM R Unit := do
  match c.vector? values with
  | .error e => throw e
  | .ok xs => (c.inputs.zip xs).forM fun (leaf, x) => lift (c.net.hold leaf x)

/-- The sum of the costs of the clauses at the values held. -/
def totalCost (c : Circuit) : CircuitM R R :=
  c.roots.foldlM (fun total root => do return total + (← lift (c.net.evaluate root))) 0

/-- The total cost at given values. -/
def costAt (c : Circuit) (values : Tensor R) : CircuitM R R := do
  c.write values
  c.totalCost

/-- Forgets every signal and gradient. -/
def reset (c : Circuit) : CircuitM R Unit := modify (c.net.reset c.inputs)

/-- The gradient of the total cost, for each variable in order.  The circuit is reset afterwards. -/
def gradient (c : Circuit) : CircuitM R (List R) := do
  let gradient ← c.inputs.mapM fun leaf => lift (c.net.inputGradient leaf)
  c.reset
  return gradient

/-- The truth values of raw values. -/
def squash (values : List R) : List R := values.map Scalar.sigmoid

/-- The truth values of the entries of a tensor, which has to have a shape. -/
def truthValues (values : Tensor R) : Except Refusal (List R) :=
  match values.shape with
  | .error e => .error (.tensor e)
  | .ok _ => .ok (squash values.entries)

/-- The truth value of each clause at given raw values.  The circuit is reset afterwards. -/
def clauseValues (c : Circuit) (values : Tensor R) : CircuitM R (List R) := do
  c.write values
  let truths ← c.roots.mapM fun root => lift (c.net.truth root)
  c.reset
  return truths

/-- Whether an assignment makes every clause true.  The raw values are infinite, so that each truth value
is exactly one or zero. -/
def satisfiedBy {R : Type} [Numeric R] (c : Circuit) (assignment : Tensor Bool) : CircuitM R Bool := do
  let truths ← c.clauseValues (assignment.map (Numeric.certain (R := R)))
  return truths.all (· == 1)

end Circuit

end SoftLogic
