import SoftLogic.Text.Integer

/-!
# Reading a real number

A real number is a sign, digits with at most one point among them, and an exponent, or one of the words for
infinity and for an undefined value.  Digits may be of any script and have single underscores between
them, and blanks may surround the whole.
-/

namespace SoftLogic.Decimal

open Text

/-- The double nearest to `m * 10 ^ e`; beyond the range of doubles it is infinite or zero. -/
def nearest (m : Nat) (e : Int) : Float :=
  let magnitude : Int := (Nat.toDigits 10 m).length + e
  if m = 0 ∨ magnitude < -330 then 0.0
  else if 310 < magnitude then 1.0 / 0.0
  else Float.ofScientific m (e < 0) e.natAbs

/-- Drops underscores, each of which has to stand between digits; `after` says whether a digit precedes. -/
def joinDigits : Bool → List Char → Option (List Char)
  | _, [] => some []
  | after, '_' :: c :: rest =>
    if after && c.isDigit then (joinDigits true rest).map (c :: ·) else none
  | _, c :: rest => if c = '_' then none else (joinDigits c.isDigit rest).map (c :: ·)

/-- Every decimal digit as the digit of the same value in ASCII. -/
def plainDigit (c : Char) : Char :=
  match digit? c with
  | some d => Char.ofNat ('0'.toNat + d)
  | none => c

/-- Reads the exponent after the letter that announces it. -/
def readExponent : List Char → Option Int
  | [] => none
  | c :: rest =>
    let digits := if c = '+' ∨ c = '-' then rest else c :: rest
    if digits.isEmpty || !digits.all Char.isDigit then none
    else
      let n : Int := ofDigits digits
      some (if c = '-' then -n else n)

/-- Reads digits, a point and an exponent. -/
def readMagnitude (cs : List Char) : Option Float :=
  let whole := cs.takeWhile Char.isDigit
  let rest := cs.dropWhile Char.isDigit
  let (places, rest) :=
    match rest with
    | '.' :: rest => (rest.takeWhile Char.isDigit, rest.dropWhile Char.isDigit)
    | _ => ([], rest)
  let value (e : Int) := nearest (ofDigits (whole ++ places)) (e - places.length)
  if whole.isEmpty && places.isEmpty then none
  else
    match rest with
    | [] => some (value 0)
    | c :: rest => if c = 'e' ∨ c = 'E' then (readExponent rest).map value else none

/-- Reads a number without a sign. -/
def readUnsigned (cs : List Char) : Option Float :=
  let word := cs.map Char.toLower
  if word = ['i', 'n', 'f'] ∨ word = ['i', 'n', 'f', 'i', 'n', 'i', 't', 'y'] then some (1.0 / 0.0)
  else if word = ['n', 'a', 'n'] then some (0.0 / 0.0)
  else readMagnitude cs

/-- Reads a real number. -/
def readReal (cs : List Char) : Option Float := do
  match ← joinDigits false ((trim isPadding cs).map plainDigit) with
  | '-' :: rest => return -(← readUnsigned rest)
  | '+' :: rest => readUnsigned rest
  | rest => readUnsigned rest

end SoftLogic.Decimal
