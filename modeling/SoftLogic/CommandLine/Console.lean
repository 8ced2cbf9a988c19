import SoftLogic.CommandLine.Files
import SoftLogic.Solver.Search
import SoftLogic.Solver.Transcript

/-!
# The console

A command prints on one channel and warns on another as it goes, and what it has printed stays printed when it fails.

A run of a solver on the console computes what `Solver.solve` does.  If it is verbose, it prints its heading before the
first cost, lines of progress between the costs, and the result after the last one.  How a search chooses its points and
what the arithmetic warns of is not laid down here: both belong to the surroundings of a run.
-/

namespace SoftLogic

/-- Why a command failed. -/
inductive CommandError
  | file (error : FileError)
  | circuit (error : CircuitError)
  | settings (error : SettingsError Float)
  | solve (error : SolveError)
  | fault (fault : Fault)

/-- The wording of a failure. -/
def CommandError.message : CommandError → String
  | .file e => e.message
  | .circuit e => e.message
  | .settings e => e.message
  | .solve e => e.message
  | .fault f => f.message

/-- What comes out on the error channel. -/
inductive Diagnostic
  /-- A warning of the program. -/
  | warning (w : Warning)
  /-- A warning of the arithmetic, in its own words. -/
  | arithmetic (text : String)
  /-- Why the command failed. -/
  | failure (message : String)
  deriving DecidableEq, Repr

/-- The text of a diagnostic, apart from the place in the program that gives a warning. -/
def Diagnostic.text : Diagnostic → String
  | .warning w => s!"{w.category}: {w.message}\n"
  | .arithmetic text => s!"RuntimeWarning: {text}\n"
  | .failure message => s!"error: {message}\n"

/-- What a run depends on beside its input. -/
structure Surroundings where
  /-- The seed of the starting values if none is asked for. -/
  entropy : Nat
  /-- How a search chooses its points. -/
  search : Config Float → List Float → Search Float
  /-- What the arithmetic warns of between the end of one computation on the circuit and the end of the next one, for
  each computation of the run in order. -/
  remarks : Nat → List String

/-- Where a command has got to: what is known at the nodes of its circuit, how often something was computed there, and
what has come out on either channel. -/
structure Console where
  signals : Signals Float
  computations : Nat
  printed : String
  diagnostics : List Diagnostic

/-- A command on the console. -/
abbrev ConsoleM := EStateM CommandError Console

namespace Console

/-- Before a command. -/
def start : Console := ⟨⟨#[]⟩, 0, "", []⟩

/-- Takes over what was computed apart, with the failure in other words. -/
def accept {ε α : Type} (failure : ε → CommandError) : Except ε α → ConsoleM α
  | .error e => throw (failure e)
  | .ok a => pure a

/-- Prints a text. -/
def write (text : String) : ConsoleM Unit := modify fun s => { s with printed := s.printed ++ text }

/-- Prints a line. -/
def print (line : String) : ConsoleM Unit := write (line ++ "\n")

/-- Prints lines, if the run is verbose. -/
def tell (config : Config Float) (lines : List String) : ConsoleM Unit :=
  if config.verbose then lines.forM print else pure ()

/-- Warns. -/
def warn (w : Warning) : ConsoleM Unit := modify fun s => { s with diagnostics := s.diagnostics ++ [.warning w] }

/-- After a computation that leaves the signals as given. -/
def computed (world : Surroundings) (s : Console) (signals : Signals Float) : Console where
  signals := signals
  computations := s.computations + 1
  printed := s.printed
  diagnostics := s.diagnostics ++ (world.remarks s.computations).map .arithmetic

/-- Runs a computation on a circuit. -/
def onCircuit {α : Type} (world : Surroundings) (x : CircuitM Float α) : ConsoleM α := fun s =>
  match x s.signals with
  | .ok a signals => .ok a (s.computed world signals)
  | .error r signals => .error (.solve (.refused r)) (s.computed world signals)

/-- One step of gradient descent, after `count` others; `warned` says whether one of those was warned of. -/
def descentStep (world : Surroundings) (c : Circuit) (config : Config Float) (count : Nat) (warned : Bool)
    (x : List Float) : ConsoleM (Bool × List Float) := do
  let cost ← onCircuit world (c.costAt (.vector x))
  let gradient ← onCircuit world c.gradient
  let isFinite := Numeric.isFinite cost && gradient.all Numeric.isFinite
  if !warned && !isFinite then warn (.notFinite (count + 1))
  tell config (Procedure.descent.progressLine config (count + 1) cost)
  return (warned || !isFinite, x.zipWith (fun a g => a - config.learningRate * g) gradient)

/-- Takes the given number of steps from `x`, after `count` others. -/
def descentSteps (world : Surroundings) (c : Circuit) (config : Config Float) :
    Nat → Nat → Bool → List Float → ConsoleM (List Float)
  | 0, _, _, x => return x
  | left + 1, count, warned, x => do
    let (warned, x) ← descentStep world c config count warned x
    descentSteps world c config left (count + 1) warned x

/-- Carries out a search, after `count` costs. -/
def runSearch (world : Surroundings) (c : Circuit) (config : Config Float) :
    Search Float → Nat → ConsoleM (List Float × Nat × String)
  | .finish x iterations message, _ => return (x, iterations, message)
  | .probe x next, count => do
    let cost ← onCircuit world (c.costAt (.vector x))
    let gradient ← onCircuit world c.gradient
    tell config (Procedure.search.progressLine config (count + 1) cost)
    runSearch world c config (next cost gradient) (count + 1)

/-- Finishes a run at its last values and returns the truth values there. -/
def finish (world : Surroundings) (c : Circuit) (config : Config Float) (values : List Float) (iterations : Nat)
    (message : String) : ConsoleM (List Float) := do
  let cost ← onCircuit world (c.costAt (.vector values))
  onCircuit world c.reset
  let truths := Circuit.squash values
  let satisfied ← onCircuit world (c.satisfiedBy (.vector (Solver.rounded truths)))
  tell config (closingLines message iterations cost satisfied)
  return truths

/-- Runs gradient descent. -/
def descend (world : Surroundings) (c : Circuit) (config : Config Float) : ConsoleM (List Float) := do
  let x ← accept .solve (Solver.startValues c config world.entropy none)
  tell config (Procedure.descent.heading c config)
  let x ← descentSteps world c config config.iterations 0 false x
  finish world c config x config.iterations s!"Completed {config.iterations} gradient steps"

/-- Minimises the total cost with a search. -/
def minimize (world : Surroundings) (c : Circuit) (config : Config Float) : ConsoleM (List Float) := do
  let x ← accept .solve (Solver.startValues c config world.entropy none)
  if c.numVars = 0 then
    finish world c config x 0 "Nothing to optimize: circuit has no variables"
  else do
    tell config (Procedure.search.heading c config)
    if !Settings.isSearchable config.optimizer then throw (.solve (.unknownMethod config.optimizer))
    let (x, iterations, message) ← runSearch world c config (world.search config x) 0
    finish world c config x iterations message

/-- Runs the optimizer that the configuration names and returns the last truth values. -/
def solve (world : Surroundings) (c : Circuit) (config : Config Float) : ConsoleM (List Float) :=
  if config.isDescent then descend world c config else minimize world c config

end Console

end SoftLogic
