import SoftLogic.Text.Digit

/-!
# Doubles as ratios

The exact value of a double: a sign, a mantissa and a power of two.  Every decimal text of a double is
computed from this value in natural numbers, so that no rounding happens before the one that is wanted.
-/

namespace SoftLogic.Decimal

/-- The number `± mantissa * 2 ^ exponent`. -/
structure Binary where
  negative : Bool
  mantissa : Nat
  exponent : Int
  deriving DecidableEq, Repr

/-- What a double stands for. -/
inductive Value
  | undefined
  | infinite (negative : Bool)
  | finite (b : Binary)
  deriving DecidableEq, Repr

/-- The bit of the mantissa that is not stored, except in the smallest numbers: `2 ^ 52`. -/
def leadingBit : Nat := 0x10000000000000

/-- Takes the bits of a double apart: a sign, eleven bits of exponent, fifty-two of mantissa. -/
def Value.ofBits (bits : UInt64) : Value :=
  let negative := bits >>> 63 == 1
  let exponent := ((bits >>> 52) &&& 0x7ff).toNat
  let fraction := (bits &&& 0xfffffffffffff).toNat
  if exponent = 0x7ff then
    if fraction = 0 then .infinite negative else .undefined
  else if exponent = 0 then .finite ⟨negative, fraction, -1074⟩
  else .finite ⟨negative, fraction + leadingBit, (exponent : Int) - 1075⟩

/-- What a double stands for. -/
def Value.ofFloat (x : Float) : Value := .ofBits x.toBits

/-- A ratio of natural numbers. -/
structure Ratio where
  num : Nat
  den : Nat
  deriving DecidableEq, Repr

namespace Ratio

/-- The ratio `m * 2 ^ q`. -/
def scaleTwo (m : Nat) (q : Int) : Ratio := ⟨m * Nat.pow 2 q.toNat, Nat.pow 2 (-q).toNat⟩

/-- A ratio times a power of ten. -/
def scaleTen (r : Ratio) (k : Int) : Ratio := ⟨r.num * Nat.pow 10 k.toNat, r.den * Nat.pow 10 (-k).toNat⟩

/-- Order by cross multiplication. -/
def le (a b : Ratio) : Bool := a.num * b.den ≤ b.num * a.den

/-- Strict order by cross multiplication. -/
def lt (a b : Ratio) : Bool := a.num * b.den < b.num * a.den

/-- The nearest natural number; a tie goes to the even one. -/
def round (r : Ratio) : Nat :=
  let down := r.num / r.den
  let rest := 2 * (r.num % r.den)
  if rest < r.den ∨ (rest = r.den ∧ down % 2 = 0) then down else down + 1

/-- The exponent of the leading decimal digit of a positive ratio. -/
def leading (r : Ratio) : Int :=
  let guess := ((Nat.toDigits 10 r.num).length : Int) - (Nat.toDigits 10 r.den).length
  if (scaleTen ⟨1, 1⟩ guess).le r then guess else guess - 1

end Ratio

/-- The absolute value as a ratio. -/
def Binary.ratio (b : Binary) : Ratio := .scaleTwo b.mantissa b.exponent

/-- The mark in front of a negative number. -/
def mark (negative : Bool) : List Char := if negative then ['-'] else []

/-- The decimal digits of a number, at least `width` of them. -/
def digitsOf (width n : Nat) : List Char := Text.padded width (Nat.toDigits 10 n)

/-- The text of a double, given that of a finite one; an undefined value has no sign. -/
def render (x : Float) (finite : Binary → List Char) : String :=
  match Value.ofFloat x with
  | .undefined => "nan"
  | .infinite negative => .ofList (mark negative ++ ['i', 'n', 'f'])
  | .finite b => .ofList (finite b)

end SoftLogic.Decimal
