import SoftLogic.Decimal.Shortest
import SoftLogic.Scalar
import SoftLogic.Text.Integer
import SoftLogic.Text.Quoted

/-!
# Settings of a solver run

`Settings` is what a caller asks for, and `Config` is what was accepted.  Settings are checked in a fixed
order, and the first bad one is reported.  Three of them may have been left blank, which is as bad as a
value that is not allowed.
-/

namespace SoftLogic

/-- The settings of a run, unchecked. -/
structure Settings (R : Type) where
  /-- Plain gradient descent, or the name of a search method. -/
  optimizer : Option String
  /-- The step size of gradient descent. -/
  learningRate : Option R
  /-- The number of gradient steps, or the most iterations of a search. -/
  iterations : Option Int
  /-- The gradient at which a search stops. -/
  tolerance : R
  /-- Starting values lie between zero and this. -/
  initScale : R
  /-- The seed of the starting values; without one they are arbitrary. -/
  seed : Option Int
  verbose : Bool
  /-- How many iterations pass between two lines of progress. -/
  logEvery : Int
  deriving Repr

/-- The settings of a run, accepted. -/
structure Config (R : Type) where
  optimizer : String
  learningRate : R
  iterations : Nat
  tolerance : R
  initScale : R
  seed : Option Int
  verbose : Bool
  logEvery : Nat
  deriving Repr

/-- The settings that may have been left blank. -/
inductive Setting
  | optimizer
  | learningRate
  | iterations
  deriving DecidableEq, Repr

/-- Why settings were not accepted. -/
inductive SettingsError (R : Type)
  | blank (setting : Setting)
  | optimizer (name : String)
  | learningRate (rate : R)
  | iterations (count : Int)
  | initScale (scale : R)
  | logEvery (count : Int)
  /-- A number that is not allowed is too long to be written. -/
  | unwritten (error : Text.WriteError)
  deriving Repr

namespace Settings

/-- The optimizer that takes a fixed number of gradient steps. -/
def descent : String := "gd"

/-- The search methods. -/
def methods : List String := ["CG", "BFGS", "L-BFGS-B", "SLSQP"]

/-- A character with its case left aside; the long s counts as an s. -/
def foldCase (c : Char) : Char := if c = 'ſ' then 'S' else c.toUpper

/-- Whether a name, in whatever case, is a search method. -/
def isMethod (name : String) : Bool := methods.contains (name.map foldCase)

/-- Whether there is a search for a method.  With a long s in its name there is none. -/
def isSearchable (name : String) : Bool := methods.contains (name.map Char.toUpper)

variable {R : Type} [Numeric R]

/-- Checks the optimizer. -/
def checkOptimizer : Option String → Except (SettingsError R) String
  | none => .error (.blank .optimizer)
  | some name => if name ≠ descent ∧ !isMethod name then .error (.optimizer name) else .ok name

/-- Checks the step size. -/
def checkLearningRate : Option R → Except (SettingsError R) R
  | none => .error (.blank .learningRate)
  | some rate => if Numeric.nonpos rate then .error (.learningRate rate) else .ok rate

/-- Checks the number of iterations. -/
def checkIterations : Option Int → Except (SettingsError R) Nat
  | none => .error (.blank .iterations)
  | some count =>
    if count < 0 then .error (Text.refusalNaming count (.iterations count) .unwritten) else .ok count.toNat

/-- Checks the scale of the starting values. -/
def checkInitScale (scale : R) : Except (SettingsError R) R :=
  if Numeric.lt scale 0 then .error (.initScale scale) else .ok scale

/-- Checks the distance between two lines of progress. -/
def checkLogEvery (count : Int) : Except (SettingsError R) Nat :=
  if count < 1 then .error (Text.refusalNaming count (.logEvery count) .unwritten) else .ok count.toNat

/-- Checks settings. -/
def check (s : Settings R) : Except (SettingsError R) (Config R) := do
  let optimizer ← checkOptimizer s.optimizer
  let learningRate ← checkLearningRate s.learningRate
  let iterations ← checkIterations s.iterations
  let initScale ← checkInitScale s.initScale
  let logEvery ← checkLogEvery s.logEvery
  return { s with optimizer, learningRate, iterations, initScale, logEvery }

end Settings

/-- The wording of a refusal. -/
def SettingsError.message : SettingsError Float → String
  | .blank .optimizer => "'list' object has no attribute 'upper'"
  | .blank .learningRate => "'<=' not supported between instances of 'list' and 'int'"
  | .blank .iterations => "'<' not supported between instances of 'list' and 'int'"
  | .optimizer name =>
    let methods := String.intercalate ", " Settings.methods
    s!"Unknown optimizer: {Text.quoted name} (expected 'gd' or one of {methods})"
  | .learningRate rate => s!"learning_rate must be positive, got {Decimal.shortest rate}"
  | .iterations count => s!"iterations must be non-negative, got {count}"
  | .initScale scale => s!"init_scale must be non-negative, got {Decimal.shortest scale}"
  | .logEvery count => s!"log_every must be >= 1, got {count}"
  | .unwritten e => e.message

namespace Config

variable {R : Type} [Numeric R]

/-- The configuration of a gradient descent for which nothing was asked. -/
def default : Config R where
  optimizer := Settings.descent
  learningRate := Numeric.decimal 1 1
  iterations := 4000
  tolerance := Numeric.decimal 1 9
  initScale := Numeric.decimal 1 1
  seed := none
  verbose := false
  logEvery := 500

/-- The configuration of a search for which nothing was asked. -/
def defaultSearch : Config R := { default with optimizer := "L-BFGS-B" }

/-- The settings that ask for a configuration. -/
def settings (config : Config R) : Settings R where
  optimizer := some config.optimizer
  learningRate := some config.learningRate
  iterations := some config.iterations
  tolerance := config.tolerance
  initScale := config.initScale
  seed := config.seed
  verbose := config.verbose
  logEvery := config.logEvery

/-- Whether the optimizer is plain gradient descent. -/
def isDescent (config : Config R) : Bool := config.optimizer == Settings.descent

end Config

/-- The settings of a caller who asks for nothing. -/
def Settings.default {R : Type} [Numeric R] : Settings R := Config.default.settings

end SoftLogic
