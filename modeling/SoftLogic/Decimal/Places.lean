import SoftLogic.Decimal.Binary

/-!
# Decimal texts with a given number of places

A double with a fixed number of places after the point, in positional or in scientific form.  Both round
the exact value once; a tie goes to the even neighbour.
-/

namespace SoftLogic.Decimal

/-- Digits with the point before the last `places` of them. -/
def pointed (places : Nat) (digits : List Char) : List Char :=
  let whole := digits.take (digits.length - places)
  if places = 0 then whole else whole ++ '.' :: digits.drop (digits.length - places)

/-- A finite double in positional form. -/
def Binary.fixed (places : Nat) (b : Binary) : List Char :=
  mark b.negative ++ pointed places (digitsOf (places + 1) (b.ratio.scaleTen places).round)

/-- The leading digits of a finite double, `places` of them after the first, and its decimal exponent. -/
def Binary.significant (places : Nat) (b : Binary) : Nat × Int :=
  if b.mantissa = 0 then (0, 0)
  else
    let e := b.ratio.leading
    let digits := (b.ratio.scaleTen (places - e)).round
    if digits = Nat.pow 10 (places + 1) then (Nat.pow 10 places, e + 1) else (digits, e)

/-- A decimal exponent: its sign and at least two digits. -/
def exponentText (e : Int) : List Char :=
  'e' :: (if e < 0 then '-' else '+') :: digitsOf 2 e.natAbs

/-- A finite double in scientific form. -/
def Binary.scientific (places : Nat) (b : Binary) : List Char :=
  let (digits, e) := b.significant places
  mark b.negative ++ pointed places (digitsOf (places + 1) digits) ++ exponentText e

/-- A double with `places` digits after the point. -/
def fixed (places : Nat) (x : Float) : String := render x (Binary.fixed places)

/-- A double with one digit before the point, `places` after it, and an exponent. -/
def scientific (places : Nat) (x : Float) : String := render x (Binary.scientific places)

end SoftLogic.Decimal
