import SoftLogic.Circuit.Propagation
import SoftLogic.Random.Generator
import SoftLogic.Solver.Config
import SoftLogic.Warning

/-!
# Starting and finishing a run

Every run starts from given values or from seeded ones and finishes alike: the cost at the last values, the
truth values there, the assignment that makes a variable true when its truth value is above one half, and
whether that assignment satisfies every clause.
-/

namespace SoftLogic

/-- Why a run was refused. -/
inductive SolveError
  /-- A search was asked for under the name of plain gradient descent. -/
  | noSearch
  /-- There is no search for a method of this name. -/
  | unknownMethod (name : String)
  /-- The starting values are no vector of the expected length. -/
  | start (expected : Nat) (got : List Nat)
  /-- The starting values have no shape. -/
  | tensor (error : TensorError)
  /-- The seed is negative. -/
  | seed
  /-- A negative number of values is wanted. -/
  | size
  /-- More values are wanted than can be counted. -/
  | uncountable
  /-- More values are wanted than can be stored. -/
  | unstorable
  /-- The circuit refused. -/
  | refused (refusal : Refusal)
  deriving DecidableEq, Repr

/-- The wording of a refusal. -/
def SolveError.message : SolveError → String
  | .noSearch => "minimize_cost needs a scipy method, not 'gd'"
  | .unknownMethod name => s!"Unknown solver {name}"
  | .start expected got => s!"x0 must have shape ({expected},), got {shapeText got}"
  | .tensor e => e.message
  | .seed => "expected non-negative integer"
  | .size => "negative dimensions are not allowed"
  | .uncountable => "Maximum allowed dimension exceeded"
  | .unstorable =>
    "array is too big; `arr.size * arr.dtype.itemsize` is larger than the maximum possible size."
  | .refused r => r.message

/-- How the last values were found. -/
inductive Procedure
  /-- By gradient steps of fixed size. -/
  | descent
  /-- By a search. -/
  | search
  /-- There was nothing to find. -/
  | nothing
  deriving DecidableEq, Repr

/-- What a run gives. -/
structure Outcome (R : Type) where
  procedure : Procedure
  values : List R
  truths : List R
  cost : R
  assignment : List Bool
  satisfied : Bool
  iterations : Nat
  message : String
  /-- The cost at every point where it was asked for, in order. -/
  history : List R
  warnings : List Warning

/-- A run on the signals of a circuit. -/
abbrev SolveM (R : Type) := EStateM SolveError (Signals R)

namespace Solver

variable {R : Type} [Numeric R]

/-- Runs a computation on a circuit. -/
def onCircuit {α : Type} (x : CircuitM R α) : SolveM R α := EStateM.adaptExcept .refused x

/-- A length is a signed number of 64 bits. -/
def isCountable (n : Int) : Bool := -9223372036854775808 ≤ n && n < 9223372036854775808

/-- A value takes eight bytes, and the number of all bytes is a signed number of 64 bits. -/
def isStorable (n : Int) : Bool := 8 * n < 9223372036854775808

/-- Starting values for `n` variables, from the seed or else from `entropy`. -/
def seededValues (n : Int) (config : Config R) (entropy : Nat) : Except SolveError (List R) :=
  let seed := config.seed.getD entropy
  if seed < 0 then .error .seed
  else if !isCountable n then .error .uncountable
  else if n < 0 then .error .size
  else if !isStorable n then .error .unstorable
  else .ok (((Random.Generator.ofSeed seed.toNat).draws n.toNat).map fun k =>
    Numeric.fraction k * config.initScale)

/-- The starting values of a run. -/
def startValues (c : Circuit) (config : Config R) (entropy : Nat) : Option (Tensor R) →
    Except SolveError (List R)
  | none => seededValues c.numVars config entropy
  | some x =>
    match x.shape with
    | .error e => .error (.tensor e)
    | .ok shape => if shape = [c.numVars] then .ok x.entries else .error (.start c.numVars shape)

/-- The assignment that truth values are rounded to. -/
def rounded (truths : List R) : List Bool := truths.map (Numeric.lt Numeric.half)

/-- Finishes a run at its last values. -/
def finish (c : Circuit) (procedure : Procedure) (values history : List R) (iterations : Nat)
    (message : String) (warnings : List Warning) : SolveM R (Outcome R) := do
  let cost ← onCircuit (c.costAt (.vector values))
  onCircuit c.reset
  let truths := Circuit.squash values
  let assignment := rounded truths
  let satisfied ← onCircuit (c.satisfiedBy (.vector assignment))
  return { procedure, values, truths, cost, assignment, satisfied, iterations, message, history, warnings }

end Solver

end SoftLogic
