import SoftLogic.Program

/-!
# Formulas in conjunctive normal form

A formula with numbered variables, counted from one: a clause is a list of literals, and a negative literal
is a negated variable.  As a program a clause becomes a disjunction over variables counted from zero.
-/

namespace SoftLogic

/-- A formula in conjunctive normal form, with the number of clauses that its document announced. -/
structure Cnf where
  numVars : Nat
  announced : Nat
  clauses : List (List Int)
  deriving DecidableEq, Repr

namespace Cnf

/-- A literal as it stands in a clause expression. -/
def literalText (l : Int) : String :=
  if l < 0 then s!"~${-l - 1}" else s!"${l - 1}"

/-- A clause as an expression. -/
def clauseText (literals : List Int) : String := String.intercalate " v " (literals.map literalText)

/-- The formula as a program. -/
def toProgram (cnf : Cnf) : Program := ⟨cnf.numVars, cnf.clauses.map clauseText⟩

end Cnf

end SoftLogic
