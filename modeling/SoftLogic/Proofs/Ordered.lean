import Mathlib.Analysis.SpecialFunctions.Log.Basic
import Mathlib.Analysis.SpecialFunctions.Sigmoid
import SoftLogic.Proofs.Netlist.Gradient

/-!
# Ordered fields as scalars

What a circuit computes can be compared where its scalars are an ordered field.  A search also rounds truth values, so
an `OrderedScalar` is a `Numeric` whose comparison is the order and whose half is a half.  No law is asked of the other
constants; a field has no infinity, for one.

The real numbers are such a field, with the logistic function and the natural logarithm.
-/

namespace SoftLogic

/-- An ordered field with any sigmoid and logarithm, in which scalars are compared and rounded as they should be. -/
class OrderedScalar (K : Type) [LinearOrder K] extends ExactScalar K, Numeric K where
  lt_iff : ∀ a b : K, Numeric.lt a b = true ↔ a < b
  half_eq : (Numeric.half : K) = 1 / 2

section Numeric

variable {K : Type} [LinearOrder K] [OrderedScalar K]

theorem Numeric.lt_iff {a b : K} : Numeric.lt a b = true ↔ a < b := OrderedScalar.lt_iff a b

theorem Numeric.half_eq : (Numeric.half : K) = 1 / 2 := OrderedScalar.half_eq

end Numeric

open Classical in
/-- The real numbers, whose constant for infinity is of no use. -/
noncomputable instance : OrderedScalar ℝ where
  sigmoid := Real.sigmoid
  log := Real.log
  beq a b := decide (a = b)
  lt a b := decide (a < b)
  abs a := |a|
  half := 1 / 2
  infinity := 0
  isFinite _ := true
  decimal m e := m / (Nat.pow 10 e : ℕ)
  fraction k := k / (Nat.pow 2 53 : ℕ)
  lt_iff _ _ := decide_eq_true_iff
  half_eq := rfl

@[simp] theorem sigmoid_real (x : ℝ) : Scalar.sigmoid x = Real.sigmoid x := rfl

end SoftLogic
