import Mathlib.Tactic.SplitIfs
import SoftLogic.Proofs.Effect
import SoftLogic.Proofs.Text.Number
import SoftLogic.Solver.Config

/-!
# Checked settings

Settings that are accepted are those of the configuration (`Settings.of_check_ok`), and a setting that is refused as
blank was left blank (`Settings.leavesBlank_of_check`).
-/

namespace SoftLogic.Settings

open Effect Text

variable {R : Type}

/-! ### Accepted settings -/

theorem of_checkOptimizer_ok {optimizer : Option String} {name : String}
    (h : checkOptimizer (R := R) optimizer = .ok name) : some name = optimizer := by
  unfold checkOptimizer at h
  split at h
  · cases h
  · split_ifs at h
    cases h
    rfl

theorem of_checkLearningRate_ok [Numeric R] {given : Option R} {rate : R} (h : checkLearningRate given = .ok rate) :
    some rate = given := by
  unfold checkLearningRate at h
  split at h
  · cases h
  · split_ifs at h
    cases h
    rfl

theorem of_checkIterations_ok {given : Option Int} {count : Nat} (h : checkIterations (R := R) given = .ok count) :
    some (count : Int) = given := by
  unfold checkIterations at h
  split at h
  · cases h
  · split_ifs at h
    cases h
    exact congrArg some (Int.toNat_of_nonneg (by omega))

theorem of_checkInitScale_ok [Numeric R] {given scale : R} (h : checkInitScale given = .ok scale) : scale = given := by
  unfold checkInitScale at h
  split_ifs at h
  cases h
  rfl

theorem of_checkLogEvery_ok {given : Int} {count : Nat} (h : checkLogEvery (R := R) given = .ok count) :
    (count : Int) = given := by
  unfold checkLogEvery at h
  split_ifs at h
  cases h
  exact Int.toNat_of_nonneg (by omega)

/-- Settings that are accepted are those of the configuration. -/
theorem of_check_ok [Numeric R] {settings : Settings R} {config : Config R} (h : settings.check = .ok config) :
    config.settings = settings := by
  obtain ⟨optimizer, hoptimizer, h⟩ := of_except_bind_ok h
  obtain ⟨learningRate, hlearningRate, h⟩ := of_except_bind_ok h
  obtain ⟨iterations, hiterations, h⟩ := of_except_bind_ok h
  obtain ⟨initScale, hinitScale, h⟩ := of_except_bind_ok h
  obtain ⟨logEvery, hlogEvery, h⟩ := of_except_bind_ok h
  cases h
  simp only [Config.settings, of_checkOptimizer_ok hoptimizer, of_checkLearningRate_ok hlearningRate,
    of_checkIterations_ok hiterations, of_checkInitScale_ok hinitScale, of_checkLogEvery_ok hlogEvery]

/-! ### Blank settings -/

/-- The setting was left blank. -/
def LeavesBlank (settings : Settings R) : Setting → Prop
  | .optimizer => settings.optimizer = none
  | .learningRate => settings.learningRate = none
  | .iterations => settings.iterations = none

variable {setting : Setting}

theorem of_checkOptimizer_blank {optimizer : Option String}
    (h : checkOptimizer (R := R) optimizer = .error (.blank setting)) : setting = .optimizer ∧ optimizer = none := by
  unfold checkOptimizer at h
  split at h
  · cases h
    exact ⟨rfl, rfl⟩
  · split_ifs at h
    cases h

theorem of_checkLearningRate_blank [Numeric R] {given : Option R}
    (h : checkLearningRate given = .error (.blank setting)) : setting = .learningRate ∧ given = none := by
  unfold checkLearningRate at h
  split at h
  · cases h
    exact ⟨rfl, rfl⟩
  · split_ifs at h
    cases h

theorem refusalNaming_ne_blank {count : Int} {refusal : SettingsError R} (h : refusal ≠ .blank setting) :
    refusalNaming count refusal .unwritten ≠ .blank setting := by
  refine refusalNaming_all (P := fun e => e ≠ SettingsError.blank setting) h fun _ hunwritten => ?_
  cases hunwritten

theorem of_checkIterations_blank {given : Option Int}
    (h : checkIterations (R := R) given = .error (.blank setting)) : setting = .iterations ∧ given = none := by
  unfold checkIterations at h
  split at h
  · cases h
    exact ⟨rfl, rfl⟩
  · split_ifs at h
    exact absurd (Except.error.inj h) (refusalNaming_ne_blank nofun)

theorem checkInitScale_ne_blank [Numeric R] (scale : R) : checkInitScale scale ≠ .error (.blank setting) := by
  unfold checkInitScale
  split <;> nofun

theorem checkLogEvery_ne_blank (count : Int) : checkLogEvery (R := R) count ≠ .error (.blank setting) := by
  unfold checkLogEvery
  split
  · exact fun h => absurd (Except.error.inj h) (refusalNaming_ne_blank nofun)
  · nofun

/-- A setting that is refused as blank was left blank. -/
theorem leavesBlank_of_check [Numeric R] {settings : Settings R} (h : settings.check = .error (.blank setting)) :
    settings.LeavesBlank setting := by
  rcases of_except_bind_error h with h | ⟨optimizer, -, h⟩
  · obtain ⟨rfl, hnone⟩ := of_checkOptimizer_blank h
    exact hnone
  rcases of_except_bind_error h with h | ⟨learningRate, -, h⟩
  · obtain ⟨rfl, hnone⟩ := of_checkLearningRate_blank h
    exact hnone
  rcases of_except_bind_error h with h | ⟨iterations, -, h⟩
  · obtain ⟨rfl, hnone⟩ := of_checkIterations_blank h
    exact hnone
  rcases of_except_bind_error h with h | ⟨initScale, -, h⟩
  · exact absurd h (checkInitScale_ne_blank _)
  rcases of_except_bind_error h with h | ⟨logEvery, -, h⟩
  · exact absurd h (checkLogEvery_ne_blank _)
  · cases h

end SoftLogic.Settings
