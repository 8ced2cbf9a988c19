import SoftLogic.Netlist.Gate
import SoftLogic.Text.Integer
import SoftLogic.Text.Quoted

/-!
# Clause errors

Why a clause was rejected: it names a variable that is not declared, or by an index that is too long to be
read, or it has a flaw in its form.  A flaw is reported with the clause and, where one place is to blame,
with the column, counted from zero.
-/

namespace SoftLogic

/-- What is wrong with the form of a clause. -/
inductive Flaw
  /-- A variable sign without an index. -/
  | bareSign
  /-- A connective with nothing on its left. -/
  | noLeftOperand (op : Connective)
  /-- A gate whose operand does not come; the gate is named by its tag. -/
  | noOperand (symbol : Char)
  /-- A closing parenthesis without an opening one. -/
  | unmatchedClose
  /-- An opening parenthesis without a closing one. -/
  | unclosedOpen
  /-- No operand at all. -/
  | noOperands
  /-- More than one operand with nothing between them. -/
  | unconnected (count : Nat)
  deriving DecidableEq, Repr

/-- The wording of a flaw. -/
def Flaw.message : Flaw → String
  | .bareSign => "'$' is not followed by a variable index"
  | .noLeftOperand op => s!"'{op.symbol}' has no left operand"
  | .noOperand symbol => s!"'{symbol}' has no operand"
  | .unmatchedClose => "')' without a matching '('"
  | .unclosedOpen => "Clause ends with an unclosed '('"
  | .noOperands => "Clause has no operands"
  | .unconnected count => s!"Clause leaves {count} unconnected operands"

/-- Why a clause was rejected. -/
inductive ClauseError
  /-- The clause is not well formed, at a column if one is to blame. -/
  | malformed (flaw : Flaw) (column : Option Nat) (clause : String)
  /-- The clause names a variable beyond those declared. -/
  | undeclared (index : Nat) (declared : Int)
  /-- The clause names a variable by an index with more digits than an integer may have. -/
  | longIndex (digits : Nat)
  /-- The clause names a variable beyond those declared, whose number is too long to be written. -/
  | unwritten (error : Text.WriteError)
  deriving DecidableEq, Repr

/-- The wording of a rejection. -/
def ClauseError.message : ClauseError → String
  | .malformed flaw (some column) clause =>
    s!"{flaw.message} at column {column} in clause {Text.quoted clause}"
  | .malformed flaw none clause => s!"{flaw.message} in clause {Text.quoted clause}"
  | .undeclared index declared =>
    s!"Variable ${index} out of range: circuit declares {declared} variable(s)"
  | .longIndex digits =>
    s!"Exceeds the limit ({Text.maxDigits} digits) for integer string conversion: "
      ++ s!"value has {digits} digits; use sys.set_int_max_str_digits() to increase the limit"
  | .unwritten e => e.message

end SoftLogic
