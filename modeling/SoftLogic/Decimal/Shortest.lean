import SoftLogic.Decimal.Places

/-!
# The shortest decimal text of a double

The fewest digits that no other double is nearer to, and of those the nearest to the double.  The decimals
that read back as a double form an interval around it, whose ends belong to it when the mantissa is even.

The text is positional for decimal exponents from -4 to 15 and scientific otherwise; a positional text
always has a point.
-/

namespace SoftLogic.Decimal

/-- The interval of the ratios that are rounded to a positive double. -/
structure Reading where
  low : Ratio
  high : Ratio
  closed : Bool

/-- The reading interval of a positive double.  Below a power of two the neighbours lie twice as dense. -/
def Binary.reading (b : Binary) : Reading where
  low := .scaleTwo (4 * b.mantissa - if b.mantissa = leadingBit ∧ b.exponent ≠ -1074 then 1 else 2)
    (b.exponent - 2)
  high := .scaleTwo (4 * b.mantissa + 2) (b.exponent - 2)
  closed := b.mantissa % 2 = 0

/-- Whether a ratio is read back as the double. -/
def Reading.contains (i : Reading) (r : Ratio) : Bool :=
  if i.closed then i.low.le r && r.le i.high else i.low.lt r && r.lt i.high

/-- The best decimal with `count` digits that reads back, as digits and the power of ten they are
multiples of. -/
def Binary.decimal? (b : Binary) (count : Nat) : Option (Nat × Int) :=
  let unit : Int := b.ratio.leading - (count - 1)
  let scaled := b.ratio.scaleTen (-unit)
  let down := scaled.num / scaled.den
  let nearest := scaled.round
  let other := if nearest = down then down + 1 else down
  [nearest, other].find? (fun n => b.reading.contains (.scaleTen ⟨n, 1⟩ unit))
    |>.map fun n => (n, unit)

/-- The digits of the shortest decimal, and the power of ten they are multiples of. -/
def Binary.shortest (b : Binary) : Nat × Int :=
  ((List.range 17).findSome? fun k => b.decimal? (k + 1)).getD (0, 0)

/-- Digits without the zeros at the end, the first of which has decimal exponent `e`, in the form that
suits `e`. -/
def layout (digits : List Char) (e : Int) : List Char :=
  if e < -4 ∨ 16 ≤ e then
    (match digits with
      | [d] => [d]
      | _ => pointed (digits.length - 1) digits)
      ++ exponentText e
  else if e < 0 then
    '0' :: '.' :: List.replicate (-e - 1).toNat '0' ++ digits
  else
    let whole := e.toNat + 1
    if digits.length ≤ whole then digits ++ List.replicate (whole - digits.length) '0' ++ ['.', '0']
    else pointed (digits.length - whole) digits

/-- A finite double in its shortest form. -/
def Binary.shortestText (b : Binary) : List Char :=
  mark b.negative ++
    if b.mantissa = 0 then ['0', '.', '0']
    else
      let (n, unit) := b.shortest
      let digits := Nat.toDigits 10 n
      layout (digits.reverse.dropWhile (· == '0')).reverse (unit + digits.length - 1)

/-- A double in its shortest form. -/
def shortest (x : Float) : String := render x Binary.shortestText

end SoftLogic.Decimal
