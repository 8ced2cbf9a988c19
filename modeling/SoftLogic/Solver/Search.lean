import SoftLogic.Solver.Steepest

/-!
# Searches

A search asks for the cost and gradient at one point after the other, each chosen in view of the answers so
far, and ends with a point of its choice.  `Search` is the tree of its questions; nothing is assumed about
how it chooses, so what holds for every `Search` holds whatever the method.
-/

namespace SoftLogic

/-- A search for a point of low cost. -/
inductive Search (R : Type)
  /-- Ends at a point, after a number of iterations, with a remark. -/
  | finish (x : List R) (iterations : Nat) (message : String)
  /-- Asks for the cost and gradient at a point and goes on with the answer. -/
  | probe (x : List R) (next : R → List R → Search R)

/-- Where a search ended, and the costs it was told on the way. -/
structure Search.Result (R : Type) where
  x : List R
  iterations : Nat
  message : String
  history : Array R

namespace Solver

variable {R : Type} [Numeric R]

/-- Carries out a search on a circuit, after the costs that are given. -/
def runSearch (c : Circuit) : Search R → Array R → SolveM R (Search.Result R)
  | .finish x iterations message, history => return ⟨x, iterations, message, history⟩
  | .probe x next, history => do
    let cost ← onCircuit (c.costAt (.vector x))
    let gradient ← onCircuit c.gradient
    runSearch c (next cost gradient) (history.push cost)

/-- Minimises the total cost with the search that `method` makes of a configuration and a start. -/
def minimize (method : Config R → List R → Search R) (c : Circuit) (config : Option (Config R))
    (start : Option (Tensor R)) (entropy : Nat) : SolveM R (Outcome R) := do
  let config := config.getD .defaultSearch
  if config.isDescent then throw .noSearch
  match startValues c config entropy start with
  | .error e => throw e
  | .ok x =>
    if c.numVars = 0 then
      finish c .nothing x [] 0 "Nothing to optimize: circuit has no variables" []
    else if !Settings.isSearchable config.optimizer then throw (.unknownMethod config.optimizer)
    else do
      let result ← runSearch c (method config x) #[]
      finish c .search result.x result.history.toList result.iterations result.message []

/-- Runs the optimizer that the configuration names. -/
def solve (method : Config R → List R → Search R) (c : Circuit) (config : Option (Config R))
    (start : Option (Tensor R)) (entropy : Nat) : SolveM R (Outcome R) :=
  let config := config.getD .default
  if config.isDescent then descend c config start entropy
  else minimize method c config start entropy

end Solver

end SoftLogic
