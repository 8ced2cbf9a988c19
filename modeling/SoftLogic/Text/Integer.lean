import SoftLogic.Text.Blank
import SoftLogic.Text.Digit

/-!
# Integers

Reading an integer: an optional sign, then decimal digits of any script, with single underscores between
digits if wanted, and blanks around the whole.  Underscores do not count as digits, and at most
`maxDigits` digits are allowed.

Writing an integer: its decimal notation, if that has no more digits than are allowed.  A refusal that names an
integer in its wording cannot be made either if the integer cannot be written.
-/

namespace SoftLogic.Text

/-- A blank that may stand beside a number: the four information separators may not. -/
def isPadding (c : Char) : Bool := isBlank c && !(0x1c ≤ c.toNat && c.toNat ≤ 0x1f)

/-- Reads the digits after the first one into a number that is `n` so far. -/
def readDigits : Nat → List Char → Option Nat
  | n, [] => some n
  | n, '_' :: c :: rest => do readDigits (10 * n + (← digit? c)) rest
  | n, c :: rest => do readDigits (10 * n + (← digit? c)) rest

/-- Whether a number has more digits than are allowed. -/
def isTooLong (cs : List Char) : Bool := maxDigits < (cs.filter (· ≠ '_')).length

/-- Reads a number without a sign. -/
def readNat : List Char → Option Nat
  | [] => none
  | c :: rest => if isTooLong (c :: rest) then none else do readDigits (← digit? c) rest

/-- Reads an integer. -/
def readInt (cs : List Char) : Option Int :=
  match trim isPadding cs with
  | '-' :: rest => (readNat rest).map fun n => -(n : Int)
  | '+' :: rest => (readNat rest).map fun n => (n : Int)
  | rest => (readNat rest).map fun n => (n : Int)

/-! ### Writing -/

/-- How many digits a number is written with. -/
def width (n : Nat) : Nat := (Nat.toDigits 10 n).length

/-- Why an integer was not written. -/
inductive WriteError
  /-- It has more digits than are allowed. -/
  | tooLong
  deriving DecidableEq, Repr

/-- The wording of a refusal. -/
def WriteError.message : WriteError → String
  | .tooLong =>
    s!"Exceeds the limit ({maxDigits} digits) for integer string conversion; "
      ++ "use sys.set_int_max_str_digits() to increase the limit"

/-- Writes an integer. -/
def writeInt (l : Int) : Except WriteError String :=
  if maxDigits < width l.natAbs then .error .tooLong else .ok (toString l)

/-- A refusal that names an integer, or why the integer cannot be written. -/
def refusalNaming {ε : Type} (l : Int) (refusal : ε) (unwritten : WriteError → ε) : ε :=
  match writeInt l with
  | .ok _ => refusal
  | .error e => unwritten e

end SoftLogic.Text
