/-!
# Warnings

What is reported beside a result that is given all the same.
-/

namespace SoftLogic

/-- A remark on a run that did not stop it. -/
inductive Warning
  /-- A document announced another number of clauses than it has. -/
  | clauseCount (announced read : Nat)
  /-- A cost or a gradient stopped being finite, for the first time at that iteration. -/
  | notFinite (iteration : Nat)
  deriving DecidableEq, Repr

/-- What kind of warning it is. -/
def Warning.category : Warning → String
  | .clauseCount .. => "UserWarning"
  | .notFinite _ => "RuntimeWarning"

/-- The wording of a warning. -/
def Warning.message : Warning → String
  | .clauseCount announced read => s!"Header declares {announced} clause(s) but {read} were read"
  | .notFinite iteration =>
    s!"Non-finite cost or gradient at iteration {iteration}; some clause truth value underflowed to 0"

end SoftLogic
