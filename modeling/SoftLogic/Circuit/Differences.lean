import SoftLogic.Circuit.Propagation

/-!
# Checking gradients

The gradient that is pulled through the circuit, the gradient by central differences, and the largest gap
between the two.  Each of them leaves the circuit reset.

A step of length zero is refused when the first quotient is taken, which is after both of its costs.
-/

namespace SoftLogic.Circuit

variable {R : Type} [Numeric R]

/-- The total cost and its gradient at given values. -/
def costAndGradient (c : Circuit) (values : Tensor R) : CircuitM R (R × List R) := do
  c.reset
  let cost ← c.costAt values
  return (cost, ← c.gradient)

/-- The vector of length `n` with `eps` at place `i` and zero elsewhere. -/
def stepVector (n i : Nat) (eps : R) : List R := (List.range n).map fun j => if j = i then eps else 0

/-- The quotient of a difference by twice the step. -/
def quotient (difference eps : R) : CircuitM R R :=
  let width := Numeric.two * eps
  if width == 0 then throw .zeroStep else return difference / width

/-- The difference quotient at place `i`. -/
def centralDifference (c : Circuit) (xs : List R) (eps : R) (i : Nat) : CircuitM R R := do
  let step := stepVector xs.length i eps
  let up ← c.costAt (.vector (xs.zipWith (· + ·) step))
  c.reset
  let down ← c.costAt (.vector (xs.zipWith (· - ·) step))
  c.reset
  quotient (up - down) eps

/-- The gradient by central differences.  Without any values there are no differences, and then the extents
do not matter. -/
def differenceGradient (c : Circuit) (values : Tensor R) (eps : R) : CircuitM R (List R) := do
  match values.shape with
  | .error e => throw (.tensor e)
  | .ok shape =>
    c.reset
    if values.entries.isEmpty then return []
    if shape = [] then throw .noPlaces
    match c.vector? values with
    | .error e => throw e
    | .ok xs => (List.range xs.length).mapM (c.centralDifference xs eps)

/-- The largest gap between the two gradients, zero if there are no variables. -/
def gradientGap (c : Circuit) (values : Tensor R) (eps : R) : CircuitM R R := do
  let (_, pulled) ← c.costAndGradient values
  let numeric ← c.differenceGradient values eps
  match pulled.zipWith (fun a b => Numeric.abs (a - b)) numeric with
  | [] => return 0
  | gap :: gaps => return gaps.foldl Numeric.peak gap

end SoftLogic.Circuit
