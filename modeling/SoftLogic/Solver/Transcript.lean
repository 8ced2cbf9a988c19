import SoftLogic.Decimal.Shortest
import SoftLogic.Solver.Search

/-!
# Transcripts

What a verbose run prints: a heading, a line of progress after every so many costs, and the result.
-/

namespace SoftLogic

/-- A truth value as it is printed. -/
def truthText (b : Bool) : String := if b then "True" else "False"

/-- Lines with a line feed at the end of each. -/
def linesText (lines : List String) : String := String.join (lines.map (· ++ "\n"))

namespace Procedure

/-- The size of the circuit. -/
def sizeLine (c : Circuit) : String := s!"  Variables: {c.numVars}, clauses: {c.roots.length}"

/-- The lines before the first cost. -/
def heading (p : Procedure) (c : Circuit) (config : Config Float) : List String :=
  match p with
  | .descent =>
    let rate := Decimal.shortest config.learningRate
    [ "", "Running gradient descent...", sizeLine c,
      s!"  Learning rate: {rate}, iterations: {config.iterations}" ]
  | .search => ["", s!"Running {config.optimizer} optimization...", sizeLine c]
  | .nothing => []

/-- What a cost is counted by. -/
def countName : Procedure → String
  | .descent => "Iteration"
  | _ => "Evaluation"

/-- The line of progress after a cost, if there is one after that many costs. -/
def progressLine (p : Procedure) (config : Config Float) (count : Nat) (cost : Float) : List String :=
  if count % config.logEvery = 0 then [s!"  {p.countName} {count}: Cost = {Decimal.scientific 6 cost}"] else []

/-- The lines of progress after some costs. -/
def progress (p : Procedure) (config : Config Float) (costs : List Float) : List String :=
  costs.zipIdx.flatMap fun (cost, k) => p.progressLine config (k + 1) cost

end Procedure

/-- The lines after the last cost. -/
def closingLines (message : String) (iterations : Nat) (cost : Float) (satisfied : Bool) : List String :=
  [ "", "Solve Complete:",
    s!"  Status: {message}",
    s!"  Iterations: {iterations}",
    s!"  Final cost: {Decimal.scientific 6 cost}",
    s!"  Rounded assignment satisfies all clauses: {truthText satisfied}" ]

namespace Outcome

/-- The lines after the last cost. -/
def closing (o : Outcome Float) : List String := closingLines o.message o.iterations o.cost o.satisfied

/-- What a run prints: nothing, unless it is verbose. -/
def transcript (o : Outcome Float) (c : Circuit) (config : Config Float) : String :=
  if config.verbose then
    linesText (o.procedure.heading c config ++ o.procedure.progress config o.history ++ o.closing)
  else ""

end Outcome

end SoftLogic
