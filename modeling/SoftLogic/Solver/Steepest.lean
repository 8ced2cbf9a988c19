import SoftLogic.Solver.Outcome

/-!
# Gradient descent

A fixed number of steps against the gradient of the total cost.  The total cost is the sum of `-log t` over
the truth values `t` of the clauses, so it is zero exactly when every clause is true.
-/

namespace SoftLogic.Solver

variable {R : Type} [Numeric R]

/-- The cost at one point, and whether it and its gradient are finite. -/
structure Sample (R : Type) where
  cost : R
  isFinite : Bool

/-- One step: the sample at `x` and the next point. -/
def descentStep (c : Circuit) (rate : R) (x : List R) : SolveM R (Sample R × List R) := do
  let cost ← onCircuit (c.costAt (.vector x))
  let gradient ← onCircuit c.gradient
  let isFinite := Numeric.isFinite cost && gradient.all Numeric.isFinite
  return (⟨cost, isFinite⟩, x.zipWith (fun a g => a - rate * g) gradient)

/-- Takes the given number of steps from `x`, after those whose samples are given. -/
def descentSteps (c : Circuit) (rate : R) : Nat → List R → Array (Sample R) →
    SolveM R (List R × Array (Sample R))
  | 0, x, samples => return (x, samples)
  | count + 1, x, samples => do
    let (sample, next) ← descentStep c rate x
    descentSteps c rate count next (samples.push sample)

/-- The warning about the first sample that is not finite. -/
def sampleWarnings (samples : List (Sample R)) : List Warning :=
  match samples.findIdx? (!·.isFinite) with
  | some k => [.notFinite (k + 1)]
  | none => []

/-- Runs gradient descent. -/
def descend (c : Circuit) (config : Option (Config R)) (start : Option (Tensor R))
    (entropy : Nat) : SolveM R (Outcome R) := do
  let config := config.getD .default
  match startValues c config entropy start with
  | .error e => throw e
  | .ok x => do
    let (x, samples) ← descentSteps c config.learningRate config.iterations x #[]
    let samples := samples.toList
    finish c .descent x (samples.map Sample.cost) config.iterations
      s!"Completed {config.iterations} gradient steps" (sampleWarnings samples)

end SoftLogic.Solver
