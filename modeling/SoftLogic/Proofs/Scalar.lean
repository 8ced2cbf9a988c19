import Mathlib.Algebra.Order.Field.Rat
import SoftLogic.Scalar

/-!
# Scalars that are exact on zero and one

What an assignment makes of a circuit needs very little of the arithmetic: a sigmoid that reaches its limits at the
infinities and connectives that follow the boolean tables on zero and one.  `BooleanTables` asks for no more.
Double precision has it; its operations cannot be opened in a proof, so `Extended`, doubles without rounding,
stands for it where a run is to be computed.
-/

namespace SoftLogic

/-- The scalar one or zero. -/
def Scalar.bit {R : Type} [Scalar R] (b : Bool) : R := if b then 1 else 0

/-- The sigmoid is one and zero at the infinities, and on zero and one the connectives are exact. -/
class BooleanTables (R : Type) [Numeric R] : Prop where
  sigmoid_infinity : Scalar.sigmoid (Numeric.infinity : R) = 1
  sigmoid_neg_infinity : Scalar.sigmoid (-Numeric.infinity : R) = 0
  one_sub_bit : ∀ a : Bool, 1 - Scalar.bit a = (Scalar.bit (!a) : R)
  bit_mul_bit : ∀ a b : Bool, Scalar.bit a * Scalar.bit b = (Scalar.bit (a && b) : R)
  bit_add_bit : ∀ a b : Bool,
    Scalar.bit a + Scalar.bit b - Scalar.bit a * Scalar.bit b = (Scalar.bit (a || b) : R)
  bit_beq_one : ∀ a : Bool, ((Scalar.bit a : R) == 1) = a

/-- The sigmoid of the raw value that settles a variable. -/
theorem BooleanTables.sigmoid_certain {R : Type} [Numeric R] [BooleanTables R] (b : Bool) :
    Scalar.sigmoid (Numeric.certain b : R) = Scalar.bit b := by
  cases b with
  | false => exact sigmoid_neg_infinity
  | true => exact sigmoid_infinity

/-! ### Rational numbers with infinities -/

/-- A rational number, an infinity or the undefined value. -/
inductive Extended
  | finite (q : ℚ)
  | infinite (negative : Bool)
  | undefined
  deriving DecidableEq

namespace Extended

/-- The opposite. -/
def neg : Extended → Extended
  | finite p => finite (-p)
  | infinite s => infinite !s
  | undefined => undefined

/-- The sum; that of opposite infinities is undefined. -/
def add : Extended → Extended → Extended
  | finite p, finite q => finite (p + q)
  | infinite s, infinite t => if s = t then infinite s else undefined
  | infinite s, finite _ | finite _, infinite s => infinite s
  | _, _ => undefined

/-- The product; that of an infinity and zero is undefined. -/
def mul : Extended → Extended → Extended
  | finite p, finite q => finite (p * q)
  | infinite s, infinite t => infinite (s ^^ t)
  | infinite s, finite p | finite p, infinite s =>
    if p = 0 then undefined else infinite (s ^^ decide (p < 0))
  | _, _ => undefined

/-- The reciprocal; that of zero is infinite. -/
def inv : Extended → Extended
  | finite p => if p = 0 then infinite false else finite p⁻¹
  | infinite _ => finite 0
  | undefined => undefined

/-- A sigmoid with rational values: `p` goes to `(1 + p / (1 + |p|)) / 2`. -/
def squash : Extended → Extended
  | finite p => finite ((1 + p / (1 + |p|)) / 2)
  | infinite s => finite (if s then 0 else 1)
  | undefined => undefined

/-- The strict order. -/
def less : Extended → Extended → Bool
  | finite p, finite q => p < q
  | infinite s, infinite t => s && !t
  | infinite s, finite _ => s
  | finite _, infinite s => !s
  | _, _ => false

end Extended

open Extended in
/-- The logarithm is replaced by its tangent at one. -/
instance : Scalar Extended where
  zero := finite 0
  one := finite 1
  add := add
  sub a b := add a (neg b)
  mul := mul
  neg := neg
  div a b := mul a (inv b)
  sigmoid := squash
  log a := add a (finite (-1))

open Extended in
instance : Numeric Extended where
  beq a b := a != undefined && decide (a = b)
  lt := less
  abs
    | finite p => finite |p|
    | infinite _ => infinite false
    | undefined => undefined
  half := finite (1 / 2)
  infinity := infinite false
  isFinite
    | finite _ => true
    | _ => false
  decimal m e := finite (m / (Nat.pow 10 e : ℕ))
  fraction k := finite (k / (Nat.pow 2 53 : ℕ))

instance : BooleanTables Extended where
  sigmoid_infinity := rfl
  sigmoid_neg_infinity := rfl
  one_sub_bit := by decide +kernel
  bit_mul_bit := by decide +kernel
  bit_add_bit := by decide +kernel
  bit_beq_one := by decide +kernel

end SoftLogic
