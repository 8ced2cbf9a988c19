import SoftLogic.Proofs.Circuit.Differences
import SoftLogic.Proofs.Tensor
import SoftLogic.Solver.Steepest

/-!
# Gradient descent as a recurrence

Gradient descent evaluates one and the same circuit over and over.  Every step starts from clean signals and leaves
them clean, so the points are those of the recurrence `x - rate * gradient x`, where the gradient is what an untouched
copy of the circuit answers: `Solver.trajectory`, `Solver.descend_trajectory`.  No law of arithmetic is used, so this
is an equality in double precision too, also where costs and gradients are not finite.
-/

namespace SoftLogic

open Effect

/-! ### From clean signals to clean signals -/

namespace Circuit

variable {R : Type} [Numeric R] {c : Circuit} {lines : List String} {s : Signals R} {xs : List R}
  {cost : List R → R} {gradient : List R → List R}

theorem Complete.clean_signals (h : c.Complete lines) : c.Clean (c.signals : Signals R) :=
  ⟨h.fits c.size_signals, c.pristine_signals⟩

theorem Answers.length_gradient (h : c.Answers cost gradient) (hxs : xs.length = c.numVars) :
    (gradient xs).length = c.numVars := by
  obtain ⟨_, _, -, hgradient⟩ := h.answer xs hxs
  exact length_of_gradient hgradient

/-- A computation that restores the signals leaves them clean. -/
theorem Restores.clean {α : Type} {x : CircuitM R α} (hx : c.Restores x) {a : α} {s' : Signals R}
    (hs : s.Fits c.net) (hok : x s = .ok a s') : c.Clean s' :=
  ⟨hx.keeps.ok hs hok, hx.pristine a s s' hs hok⟩

/-- What an assignment is judged as does not depend on clean signals. -/
theorem Complete.satisfiedBy_of_clean (h : c.Complete lines) {bits : List Bool} (hbits : bits.length = c.numVars) :
    ∃ satisfied, ∀ s : Signals R, c.Clean s →
      ∃ s', c.satisfiedBy (.vector bits) s = .ok satisfied s' ∧ c.Clean s' := by
  let values : List R := bits.map Numeric.certain
  refine ⟨(c.roots.map (c.clauseTruth fun k => values.getD k 0)).all (· == 1), fun s hs => ?_⟩
  obtain ⟨s', htruths⟩ := h.clauseValues_ok ((length_certain bits).trans hbits) (hs.2.blank hs.1.size)
  have hok := satisfiedBy_of_clauseValues htruths
  exact ⟨s', hok, (h.wired.restores_satisfiedBy _).clean hs.1 hok⟩

end Circuit

namespace Solver

/-! ### Computations on the circuit -/

section OnCircuit

variable {R α : Type} {x : CircuitM R α} {a : α} {s s' : Signals R}

theorem onCircuit_of_ok (h : x s = .ok a s') : onCircuit x s = .ok a s' := adaptExcept_of_ok h

theorem of_onCircuit_ok (h : onCircuit x s = .ok a s') : x s = .ok a s' := of_adaptExcept_ok h

theorem keeps_onCircuit {I : Signals R → Prop} (hx : Keeps I x) : Keeps I (onCircuit x) := hx.adaptExcept _

end OnCircuit

variable {R : Type} [Numeric R] {c : Circuit} {lines : List String} {s : Signals R} {xs : List R}
  {cost : List R → R} {gradient : List R → List R}

/-! ### The recurrence -/

/-- A step from a point against its gradient. -/
def descended (gradient : List R → List R) (rate : R) (x : List R) : List R :=
  x.zipWith (fun a g => a - rate * g) (gradient x)

/-- The points of gradient descent from `xs`. -/
def trajectory (gradient : List R → List R) (rate : R) (xs : List R) : Nat → List R
  | 0 => xs
  | k + 1 => descended gradient rate (trajectory gradient rate xs k)

/-- The cost and every entry of the gradient at a point are finite. -/
def FiniteAt (cost : List R → R) (gradient : List R → List R) (x : List R) : Prop :=
  Numeric.isFinite (cost x) = true ∧ ∀ g ∈ gradient x, Numeric.isFinite g = true

/-- The first of the points that is not finite is warned about, by its number counted from one, and nothing else
is. -/
def WarnsOf (cost : List R → R) (gradient : List R → List R) (points : Nat → List R) (count : Nat)
    (warnings : List Warning) : Prop :=
  (∃ k < count, ¬FiniteAt cost gradient (points k) ∧ (∀ j < k, FiniteAt cost gradient (points j)) ∧
      warnings = [.notFinite (k + 1)]) ∨
    (∀ k < count, FiniteAt cost gradient (points k)) ∧ warnings = []

/-- The outcome of a run is that of `count` steps of the recurrence from `xs`. -/
structure Traces (cost : List R → R) (gradient : List R → List R) (rate : R) (count : Nat) (xs : List R)
    (o : Outcome R) : Prop where
  values_eq : o.values = trajectory gradient rate xs count
  cost_eq : o.cost = cost (trajectory gradient rate xs count)
  truths_eq : o.truths = (trajectory gradient rate xs count).map Scalar.sigmoid
  history_eq : o.history = (List.range count).map fun k => cost (trajectory gradient rate xs k)
  iterations_eq : o.iterations = count
  warns : WarnsOf cost gradient (trajectory gradient rate xs) count o.warnings

/-- The recurrence may also be unrolled from its start. -/
theorem trajectory_succ (gradient : List R → List R) (rate : R) (xs : List R) (k : Nat) :
    trajectory gradient rate xs (k + 1) = trajectory gradient rate (descended gradient rate xs) k := by
  induction k with
  | zero => rfl
  | succ k ih => exact congrArg (descended gradient rate) ih

theorem length_trajectory (hanswers : c.Answers cost gradient) (hxs : xs.length = c.numVars) (k : Nat) :
    (trajectory gradient rate xs k).length = c.numVars := by
  induction k with
  | zero => exact hxs
  | succ k ih => rw [trajectory, descended, List.length_zipWith, hanswers.length_gradient ih, ih, Nat.min_self]

/-! ### The steps -/

/-- The sample of a point, from what an untouched copy answers. -/
def sampleAt (cost : List R → R) (gradient : List R → List R) (x : List R) : Sample R :=
  ⟨cost x, Numeric.isFinite (cost x) && (gradient x).all Numeric.isFinite⟩

theorem sampleAt_isFinite (cost : List R → R) (gradient : List R → List R) (x : List R) :
    (sampleAt cost gradient x).isFinite = true ↔ FiniteAt cost gradient x := by
  simp [sampleAt, FiniteAt, List.all_eq_true]

/-- A step from clean signals is one of the recurrence and leaves the signals clean. -/
theorem descentStep_ok (h : c.Complete lines) (hanswers : c.Answers cost gradient) (rate : R)
    (hxs : xs.length = c.numVars) (hs : c.Clean s) : ∃ s', descentStep c rate xs s =
      .ok (sampleAt cost gradient xs, descended gradient rate xs) s' ∧ c.Clean s' := by
  obtain ⟨s₁, s₂, hcost, hsize₁, hgradient⟩ := h.costAt_of_clean hanswers hxs hs
  refine ⟨s₂, ?_, h.wired.restores_gradient.clean (h.fits hsize₁) hgradient⟩
  unfold descentStep
  rw [bind_of_ok (onCircuit_of_ok hcost), bind_of_ok (onCircuit_of_ok hgradient)]
  rfl

/-- Steps from clean signals are those of the recurrence. -/
theorem descentSteps_ok (h : c.Complete lines) (hanswers : c.Answers cost gradient) (rate : R) (count : Nat)
    (hxs : xs.length = c.numVars) (samples : Array (Sample R)) (hs : c.Clean s) :
    ∃ s', descentSteps c rate count xs samples s = .ok (trajectory gradient rate xs count,
      samples ++ (List.range count).map fun k => sampleAt cost gradient (trajectory gradient rate xs k)) s' ∧
      c.Clean s' := by
  induction count generalizing xs samples s with
  | zero => exact ⟨s, by simp [descentSteps, trajectory]; rfl, hs⟩
  | succ count ih =>
    obtain ⟨s₁, hstep, hs₁⟩ := descentStep_ok h hanswers rate hxs hs
    have hnext : (descended gradient rate xs).length = c.numVars := length_trajectory hanswers hxs 1
    obtain ⟨s₂, hrest, hs₂⟩ := ih hnext (samples.push (sampleAt cost gradient xs)) hs₁
    refine ⟨s₂, ?_, hs₂⟩
    have hsamples : (List.range (count + 1)).map (fun k => sampleAt cost gradient (trajectory gradient rate xs k)) =
        sampleAt cost gradient xs :: (List.range count).map fun k =>
          sampleAt cost gradient (trajectory gradient rate (descended gradient rate xs) k) := by
      simp only [List.range_succ_eq_map, List.map_cons, List.map_map, Function.comp_def, trajectory_succ]
      rfl
    unfold descentSteps
    rw [bind_of_ok hstep, trajectory_succ, hsamples]
    exact hrest.trans (by simp)

/-- Warnings are about the first sample that is not finite. -/
theorem warnsOf_samples (points : Nat → List R) (count : Nat) :
    WarnsOf cost gradient points count
      (sampleWarnings ((List.range count).map fun k => sampleAt cost gradient (points k))) := by
  have hfinite : ∀ k, (!(sampleAt cost gradient (points k)).isFinite) = true ↔
      ¬FiniteAt cost gradient (points k) := by
    intro k
    rw [← sampleAt_isFinite, Bool.not_eq_true', Bool.not_eq_true]
  unfold sampleWarnings
  cases hfirst : ((List.range count).map fun k => sampleAt cost gradient (points k)).findIdx? (!·.isFinite) with
  | some k =>
    obtain ⟨hk, hbad, hbefore⟩ := List.findIdx?_eq_some_iff_getElem.mp hfirst
    rw [List.length_map, List.length_range] at hk
    refine .inl ⟨k, hk, (hfinite k).mp (by simpa using hbad), fun j hj => ?_, rfl⟩
    have hgood := hbefore j hj
    simp only [List.getElem_map, List.getElem_range] at hgood
    exact not_not.mp fun hnot => hgood ((hfinite j).mpr hnot)
  | none =>
    refine .inr ⟨fun k hk => ?_, rfl⟩
    have hgood := List.findIdx?_eq_none_iff.mp hfirst _ (List.mem_map_of_mem (List.mem_range.mpr hk))
    exact not_not.mp fun hnot => Bool.false_ne_true (hgood.symm.trans ((hfinite k).mpr hnot))

/-! ### Runs -/

/-- There is a bit for each value. -/
theorem length_rounded (xs : List R) : (rounded (Circuit.squash xs)).length = xs.length := by
  rw [rounded, List.length_map, Circuit.squash, List.length_map]

/-- The outcome of a run that ends at `x`. -/
def outcomeAt (procedure : Procedure) (x : List R) (total : R) (satisfied : Bool) (history : List R)
    (iterations : Nat) (message : String) (warnings : List Warning) : Outcome R :=
  ⟨procedure, x, Circuit.squash x, total, rounded (Circuit.squash x), satisfied, iterations, message, history,
    warnings⟩

/-- A run is finished with the cost and the verdict that the circuit gives. -/
theorem finish_of_ok {s₁ s₂ : Signals R} {total : R} {satisfied : Bool}
    (hcost : c.costAt (.vector xs) s = .ok total s₁)
    (hjudged : c.satisfiedBy (.vector (rounded (Circuit.squash xs))) (c.net.reset c.inputs s₁) = .ok satisfied s₂)
    (procedure : Procedure) (history : List R) (iterations : Nat) (message : String) (warnings : List Warning) :
    finish c procedure xs history iterations message warnings s =
      .ok (outcomeAt procedure xs total satisfied history iterations message warnings) s₂ := by
  unfold finish
  rw [bind_of_ok (onCircuit_of_ok hcost)]
  exact bind_of_ok (onCircuit_of_ok hjudged) _

/-- From clean signals, a run is finished with the cost of an untouched copy and a verdict that does not depend on
the signals.  They are left clean. -/
theorem finish_ok (h : c.Complete lines) (hanswers : c.Answers cost gradient) (hxs : xs.length = c.numVars)
    (procedure : Procedure) (history : List R) (iterations : Nat) (message : String) (warnings : List Warning) :
    ∃ satisfied, ∀ s : Signals R, c.Clean s → ∃ s',
      finish c procedure xs history iterations message warnings s =
        .ok (outcomeAt procedure xs (cost xs) satisfied history iterations message warnings) s' ∧ c.Clean s' := by
  obtain ⟨satisfied, hsatisfied⟩ := h.satisfiedBy_of_clean (R := R) ((length_rounded xs).trans hxs)
  refine ⟨satisfied, fun s hs => ?_⟩
  obtain ⟨s₁, -, hcost, hsize₁, -⟩ := h.costAt_of_clean hanswers hxs hs
  obtain ⟨_, ⟨⟩, hs₂⟩ := h.clean_reset hsize₁
  obtain ⟨s₃, hjudged, hs₃⟩ := hsatisfied _ hs₂
  exact ⟨s₃, finish_of_ok hcost hjudged _ _ _ _ _, hs₃⟩

theorem startValues_vector (config : Config R) (entropy : Nat) (hxs : xs.length = c.numVars) :
    startValues c config entropy (some (.vector xs)) = .ok xs := by
  simp [startValues, hxs]

/-- From clean signals, gradient descent has an outcome that does not depend on them and follows the recurrence. -/
theorem descend_ok (h : c.Complete lines) (hanswers : c.Answers cost gradient) (hxs : xs.length = c.numVars)
    (config : Config R) :
    ∃ o : Outcome R, Traces cost gradient config.learningRate config.iterations xs o ∧
      ∀ (entropy : Nat) (s : Signals R), c.Clean s →
        ∃ s', descend c (some config) (some (.vector xs)) entropy s = .ok o s' ∧ c.Clean s' := by
  let points := trajectory gradient config.learningRate xs
  let samples := (List.range config.iterations).map fun k => sampleAt cost gradient (points k)
  have hlength : (points config.iterations).length = c.numVars := length_trajectory hanswers hxs config.iterations
  let message := s!"Completed {config.iterations} gradient steps"
  obtain ⟨satisfied, hfinish⟩ := finish_ok h hanswers hlength .descent (samples.map Sample.cost) config.iterations
    message (sampleWarnings samples)
  have htraces : Traces cost gradient config.learningRate config.iterations xs
      (outcomeAt .descent (points config.iterations) (cost (points config.iterations)) satisfied
        (samples.map Sample.cost) config.iterations message (sampleWarnings samples)) :=
    ⟨rfl, rfl, rfl, List.map_map, rfl, warnsOf_samples points config.iterations⟩
  refine ⟨_, htraces, fun entropy s hs => ?_⟩
  obtain ⟨s₁, hsteps, hs₁⟩ := descentSteps_ok h hanswers config.learningRate config.iterations hxs #[] hs
  obtain ⟨s₂, hok, hs₂⟩ := hfinish s₁ hs₁
  refine ⟨s₂, ?_, hs₂⟩
  unfold descend
  rw [Option.getD_some, startValues_vector config entropy hxs]
  refine (bind_of_ok hsteps _).trans ?_
  simpa [samples, points, message] using hok

/-- On the circuit of a program, untouched copies answer a cost and a gradient, and from any clean signals gradient
descent follows their recurrence.  It leaves the signals clean, so it does the same again. -/
theorem descend_trajectory {p : Program} (hc : Circuit.ofProgram p = .ok c) :
    ∃ (cost : List R → R) (gradient : List R → List R), c.Answers cost gradient ∧
      ∀ (config : Config R) (xs : List R), xs.length = c.numVars →
        ∃ o : Outcome R, Traces cost gradient config.learningRate config.iterations xs o ∧
          ∀ (entropy again : Nat) (s : Signals R), c.Clean s → ∃ s' s'',
            descend c (some config) (some (.vector xs)) entropy s = .ok o s' ∧ c.Clean s' ∧
            descend c (some config) (some (.vector xs)) again s' = .ok o s'' ∧ c.Clean s'' := by
  obtain ⟨hcomplete, -⟩ := Circuit.complete_of_ofProgram hc
  obtain ⟨cost, gradient, hanswers⟩ := hcomplete.exists_answers (R := R)
  refine ⟨cost, gradient, hanswers, fun config xs hxs => ?_⟩
  obtain ⟨o, htraces, hdescend⟩ := descend_ok hcomplete hanswers hxs config
  refine ⟨o, htraces, fun entropy again s hs => ?_⟩
  obtain ⟨s', hok, hs'⟩ := hdescend entropy s hs
  obtain ⟨s'', hagain, hs''⟩ := hdescend again s' hs'
  exact ⟨s', s'', hok, hs', hagain, hs''⟩

/-- At minus infinity the gradient of the clause `$0` is undefined, and of two steps from there only the first is
warned about. -/
theorem descend_trajectory_warns : ∃ (c : Circuit) (cost : List Extended → Extended)
    (gradient : List Extended → List Extended) (config : Config Extended) (o : Outcome Extended)
    (s s' : Signals Extended), Circuit.ofProgram ⟨1, ["$0"]⟩ = .ok c ∧ c.Answers cost gradient ∧
      config.iterations = 2 ∧ Traces cost gradient config.learningRate 2 [.infinite true] o ∧
      o.warnings = [.notFinite 1] ∧
      descend c (some config) (some (.vector [.infinite true])) 0 c.signals = .ok o s ∧
      descend c (some config) (some (.vector [.infinite true])) 0 s = .ok o s' := by
  obtain ⟨hcomplete, -⟩ := Circuit.complete_of_ofProgram Circuit.ofProgram_atom
  obtain ⟨cost, gradient, hanswers, htrajectory⟩ := descend_trajectory (R := Extended) Circuit.ofProgram_atom
  obtain ⟨o, htraces, hdescend⟩ := htrajectory { Config.default with iterations := 2 } [.infinite true] rfl
  obtain ⟨s, s', hok, -, hagain, -⟩ := hdescend 0 0 Circuit.atom.signals hcomplete.clean_signals
  have hbad : ¬FiniteAt cost gradient [.infinite true] := by
    obtain ⟨s₁, s₂, hcost, hgradient⟩ := hanswers.answer [.infinite true] rfl
    have hpulled : answer ((Circuit.atom.costAt (.vector [.infinite true]) >>= fun _ => Circuit.atom.gradient)
        (Circuit.atom.signals : Signals Extended)) = some [.undefined] := by
      simp only [Circuit.costAt]
      rw [Circuit.write_vector rfl]
      decide +kernel
    rw [bind_of_ok hcost, hgradient] at hpulled
    have hundefined : gradient [.infinite true] = [.undefined] := Option.some.inj hpulled
    intro hfinite
    exact absurd (hfinite.2 .undefined (hundefined ▸ List.mem_singleton_self _)) (by decide)
  refine ⟨_, cost, gradient, _, o, s, s', Circuit.ofProgram_atom, hanswers, rfl, htraces, ?_, hok, hagain⟩
  rcases htraces.warns with ⟨k, hk, -, hbefore, hwarnings⟩ | ⟨hall, -⟩
  · cases k with
    | zero => exact hwarnings
    | succ k => exact absurd (hbefore 0 (Nat.succ_pos k)) hbad
  · exact absurd (hall 0 (by decide)) hbad

end Solver

end SoftLogic
