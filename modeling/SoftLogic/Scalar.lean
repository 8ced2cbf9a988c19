/-!
# The arithmetic of a circuit

A circuit computes with the operations of a `Scalar`: the four arithmetic operations, the sigmoid that
turns a raw value into a truth value, and the logarithm of a clause's cost.  `Numeric` adds the
comparisons and constants that checking an assignment, checking a gradient and descending need.

No law is assumed.  What holds for every `Scalar` therefore holds for double precision as it stands, and
a theorem that needs the laws of a field takes a `Scalar` built on one.
-/

namespace SoftLogic

/-- The operations that evaluating a circuit and pulling its gradient use. -/
class Scalar (R : Type) extends Zero R, One R, Add R, Sub R, Mul R, Neg R, Div R where
  /-- The squashing of a raw value into a truth value. -/
  sigmoid : R → R
  /-- The natural logarithm. -/
  log : R → R

/-- A `Scalar` with the comparisons and constants of the searches and checks around a circuit. -/
class Numeric (R : Type) extends Scalar R, BEq R where
  /-- Strict order, false when a side is not a number. -/
  lt : R → R → Bool
  /-- Absolute value. -/
  abs : R → R
  /-- One half, the threshold between false and true. -/
  half : R
  /-- Positive infinity, the raw value of a variable that is certainly true. -/
  infinity : R
  /-- Neither infinite nor undefined. -/
  isFinite : R → Bool
  /-- `decimal m e` is the scalar nearest to `m / 10 ^ e`. -/
  decimal : Nat → Nat → R
  /-- `fraction k` is `k / 2 ^ 53`. -/
  fraction : Nat → R

namespace Numeric

variable {R : Type} [Numeric R]

/-- The larger of two scalars; one that differs from itself wins, so an undefined entry is not lost. -/
def peak (a b : R) : R := if a != a || lt b a then a else b

/-- The constant two. -/
def two : R := 1 + 1

/-- At most zero. -/
def nonpos (a : R) : Bool := lt a 0 || a == 0

/-- The raw value that settles a variable as `b`. -/
def certain (b : Bool) : R := if b then infinity else -infinity

end Numeric

/-! ### Double precision -/

instance : Scalar Float where
  zero := 0.0
  one := 1.0
  sigmoid x := 1.0 / (1.0 + Float.exp (-x))
  log := Float.log

instance : Numeric Float where
  lt a b := decide (a < b)
  abs := Float.abs
  half := 0.5
  infinity := 1.0 / 0.0
  isFinite := Float.isFinite
  decimal m e := Float.ofScientific m true e
  fraction k := k.toFloat / 9007199254740992.0

end SoftLogic
