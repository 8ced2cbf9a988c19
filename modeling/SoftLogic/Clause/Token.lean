import SoftLogic.Clause.Error
import SoftLogic.Text.Digit

/-!
# Clause tokens

A clause is written with variables, the connectives, a prefix negation and parentheses:

* `$k` is variable `k`, written with at least one ASCII digit and at most `Text.maxDigits` of them;
* `^` and `v` are conjunction and disjunction, `~` is negation;
* `(` and `)` group.

Any other character only separates.  So digits that follow no variable sign mean nothing, and after the
digits of a variable have been read they can be passed over like separators.
-/

namespace SoftLogic

/-- What a token is. -/
inductive Symbol
  | variable (index : Nat)
  | connective (op : Connective)
  | not
  | openGroup
  | closeGroup
  deriving DecidableEq, Repr

/-- A symbol with the place of its first character, counted from zero. -/
structure Token where
  symbol : Symbol
  column : Nat
  deriving DecidableEq, Repr

namespace Token

/-- The one-character symbols. -/
def sign? : Char → Option Symbol
  | '^' => some (.connective .and)
  | 'v' => some (.connective .or)
  | '~' => some .not
  | '(' => some .openGroup
  | ')' => some .closeGroup
  | _ => none

/-- The tokens of the rest of a clause from a column on; the first fault from the left is reported. -/
def scanFrom (clause : String) (declared : Int) : Nat → List Char → Except ClauseError (List Token)
  | _, [] => .ok []
  | column, c :: rest =>
    if c = '$' then
      let digits := rest.takeWhile Char.isDigit
      let index := Text.ofDigits digits
      if digits = [] then .error (.malformed .bareSign (some column) clause)
      else if Text.maxDigits < digits.length then .error (.longIndex digits.length)
      else if declared ≤ index then
        .error (Text.refusalNaming declared (.undeclared index declared) .unwritten)
      else return ⟨.variable index, column⟩ :: (← scanFrom clause declared (column + 1) rest)
    else
      match sign? c with
      | some symbol => return ⟨symbol, column⟩ :: (← scanFrom clause declared (column + 1) rest)
      | none => scanFrom clause declared (column + 1) rest

/-- The tokens of a clause over the variables below `declared`. -/
def scan (clause : String) (declared : Int) : Except ClauseError (List Token) :=
  scanFrom clause declared 0 clause.toList

end Token

end SoftLogic
