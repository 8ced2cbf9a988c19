import SoftLogic.Text.Integer
import SoftLogic.Text.Quoted

/-!
# Program texts

The text of a problem: the variable count on the first line that is not blank, then one clause per line.
-/

namespace SoftLogic

/-- A variable count, which may still be negative, and the lines that hold clauses. -/
structure Program where
  declared : Int
  clauses : List String
  deriving DecidableEq, Repr

/-- Why a program text was not read. -/
inductive ProgramError
  /-- Every line is blank. -/
  | emptyInput
  /-- The first line is no integer. -/
  | header (line : String)
  deriving DecidableEq, Repr

/-- The wording of a refusal. -/
def ProgramError.message : ProgramError → String
  | .emptyInput => "Input is empty: expected the variable count on the first line"
  | .header line => s!"First line must be the variable count, got {Text.quoted line}"

namespace Program

/-- Writes a program, one line for the count and one for each clause. -/
def render (p : Program) : Except Text.WriteError String := do
  let declared ← Text.writeInt p.declared
  return String.intercalate "\n" (declared :: p.clauses) ++ "\n"

/-- Whether a line has nothing but blanks. -/
def isBlankLine (line : List Char) : Bool := line.all Text.isBlank

/-- Reads a program. -/
def parse (text : String) : Except ProgramError Program :=
  match (Text.lines text.toList).dropWhile isBlankLine with
  | [] => .error .emptyInput
  | header :: clauses =>
    match Text.readInt (Text.strip header) with
    | some n => .ok ⟨n, clauses.map .ofList⟩
    | none => .error (.header (.ofList (Text.strip header)))

end Program

end SoftLogic
