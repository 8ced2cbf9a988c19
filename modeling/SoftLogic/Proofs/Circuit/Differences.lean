import Mathlib.Tactic.Choose
import SoftLogic.Proofs.Circuit.Propagation
import SoftLogic.Proofs.Circuit.Session
import SoftLogic.Proofs.Scalar

/-!
# Checking gradients in any session

The gradient and the difference quotients are taken after a reset each, so the past of a circuit does not matter:
`Session.gradient_checks_forget`.  This is an equality of scalars and holds for any `Numeric`, double precision
included, as every evaluation starts from the signals that an untouched circuit has when it holds the same
values.
-/

namespace SoftLogic

open Effect

namespace Circuit

variable {R : Type} [Numeric R] {c : Circuit} {lines : List String} {s s' : Signals R} {xs : List R}

/-- The quotient of the difference of a function at place `i`, over twice the step. -/
def centralQuotient (cost : List R → R) (xs : List R) (eps : R) (i : Nat) : R :=
  (cost (xs.zipWith (· + ·) (stepVector xs.length i eps)) -
    cost (xs.zipWith (· - ·) (stepVector xs.length i eps))) / (Numeric.two * eps)

/-- The largest distance between the entries of two vectors. -/
def largestGap (pulled numeric : List R) : R :=
  match pulled.zipWith (fun a b => Numeric.abs (a - b)) numeric with
  | [] => 0
  | gap :: gaps => gaps.foldl Numeric.peak gap

/-- What an untouched copy of a circuit answers: the cost at each vector and then, without a reset, the
gradient. -/
structure Answers (c : Circuit) (cost : List R → R) (gradient : List R → List R) : Prop where
  answer : ∀ xs : List R, xs.length = c.numVars → ∃ s₁ s₂, c.costAt (.vector xs) c.signals = .ok (cost xs) s₁ ∧
    c.gradient s₁ = .ok (gradient xs) s₂

/-- An untouched copy of a complete circuit answers at every vector. -/
theorem Complete.exists_answers (h : c.Complete lines) :
    ∃ (cost : List R → R) (gradient : List R → List R), c.Answers cost gradient := by
  have hreturns : ∀ xs : List R, xs.length = c.numVars → ∃ answer : R × List R, ∃ s₁ s₂,
      c.costAt (.vector xs) c.signals = .ok answer.1 s₁ ∧ c.gradient s₁ = .ok answer.2 s₂ := by
    intro xs hxs
    obtain ⟨s₁, hcost, hs₁, -⟩ := h.costAt_ok hxs (c.pristine_signals.blank c.size_signals)
    obtain ⟨entries, s₂, hgradient, -⟩ := h.gradient_returns hs₁.grounded
    exact ⟨(_, entries), s₁, s₂, hcost, hgradient⟩
  choose! answer hanswer using hreturns
  exact ⟨fun xs => (answer xs).1, fun xs => (answer xs).2, ⟨hanswer⟩⟩

/-- The signals fit and are pristine. -/
def Clean (c : Circuit) (s : Signals R) : Prop := s.Fits c.net ∧ s.Pristine c.net

theorem Complete.clean_reset (h : c.Complete lines) (hsize : s.cells.size = c.net.size) :
    ∃ s', c.reset s = .ok () s' ∧ c.Clean s' :=
  ⟨_, rfl, (h.fits hsize).reset c.inputs, (h.fits hsize).pristine_reset h.net_closed.sound⟩

/-- From clean signals, the cost is that of an untouched copy. -/
theorem Complete.costAt_of_clean (h : c.Complete lines) {cost : List R → R} {gradient : List R → List R}
    (hanswers : c.Answers cost gradient) (hxs : xs.length = c.numVars) (hs : c.Clean s) :
    ∃ s₁ s₂, c.costAt (.vector xs) s = .ok (cost xs) s₁ ∧ s₁.cells.size = c.net.size ∧
      c.gradient s₁ = .ok (gradient xs) s₂ := by
  obtain ⟨s₁, s₂, hcost, hgradient⟩ := hanswers.answer xs hxs
  have hcost' : c.costAt (.vector xs) s = .ok (cost xs) s₁ :=
    (h.costAt_of_pristine hxs hs.1.size hs.2).trans hcost
  exact ⟨s₁, s₂, hcost', ((h.wired.fits_costAt _).ok hs.1 hcost').size, hgradient⟩

/-- Wherever a circuit is, the cost and the gradient are those of an untouched copy. -/
theorem Complete.costAndGradient_eq (h : c.Complete lines) {cost : List R → R} {gradient : List R → List R}
    (hanswers : c.Answers cost gradient) (hxs : xs.length = c.numVars) (hsize : s.cells.size = c.net.size) :
    ∃ s', c.costAndGradient (.vector xs) s = .ok (cost xs, gradient xs) s' ∧ s'.cells.size = c.net.size := by
  obtain ⟨s₁, hreset, hs₁⟩ := h.clean_reset hsize
  obtain ⟨s₂, s₃, hcost, -, hgradient⟩ := h.costAt_of_clean hanswers hxs hs₁
  have hok : c.costAndGradient (.vector xs) s = .ok (cost xs, gradient xs) s₃ := by
    unfold costAndGradient
    rw [bind_of_ok hreset, bind_of_ok hcost, bind_of_ok hgradient]
    rfl
  exact ⟨s₃, hok, ((h.wired.restores_costAndGradient _).keeps.ok (h.fits hsize) hok).size⟩

/-- From clean signals to clean signals, a quotient is that of the costs of untouched copies. -/
theorem Complete.centralDifference_ok (h : c.Complete lines) {cost : List R → R}
    {gradient : List R → List R} (hanswers : c.Answers cost gradient) (hxs : xs.length = c.numVars) {eps : R}
    (heps : (Numeric.two * eps == 0) = false) (i : Nat) (hs : c.Clean s) :
    ∃ s', c.centralDifference xs eps i s = .ok (centralQuotient cost xs eps i) s' ∧ c.Clean s' := by
  have hstepped : ∀ f : R → R → R, (xs.zipWith f (stepVector xs.length i eps)).length = c.numVars :=
    fun f => (length_stepped f xs i eps).trans hxs
  obtain ⟨s₁, -, hcost₁, hsize₁, -⟩ := h.costAt_of_clean hanswers (hstepped (· + ·)) hs
  obtain ⟨s₂, hreset₂, hs₂⟩ := h.clean_reset hsize₁
  obtain ⟨s₃, -, hcost₃, hsize₃, -⟩ := h.costAt_of_clean hanswers (hstepped (· - ·)) hs₂
  obtain ⟨s₄, hreset₄, hs₄⟩ := h.clean_reset hsize₃
  refine ⟨s₄, ?_, hs₄⟩
  unfold centralDifference
  rw [bind_of_ok hcost₁, bind_of_ok hreset₂, bind_of_ok hcost₃, bind_of_ok hreset₄]
  unfold quotient centralQuotient
  rw [heps]
  rfl

/-- Wherever a circuit is, the difference quotients are those of the costs of untouched copies. -/
theorem Complete.differenceGradient_eq (h : c.Complete lines) {cost : List R → R}
    {gradient : List R → List R} (hanswers : c.Answers cost gradient) (hxs : xs.length = c.numVars) {eps : R}
    (heps : (Numeric.two * eps == 0) = false) (hsize : s.cells.size = c.net.size) :
    ∃ s', c.differenceGradient (.vector xs) eps s =
      .ok ((List.range c.numVars).map (centralQuotient cost xs eps)) s' := by
  obtain ⟨s₁, hreset, hs₁⟩ := h.clean_reset hsize
  obtain ⟨s₂, hloop, -⟩ := mapM_ok (l := List.range xs.length) (f := c.centralDifference xs eps)
    (P := c.Clean) (fun i _ s hs => h.centralDifference_ok hanswers hxs heps i hs) hs₁
  rw [hxs] at hloop
  unfold differenceGradient
  simp only [Tensor.shape_vector, Tensor.entries_vector, vector?_vector hxs]
  rw [bind_of_ok hreset]
  by_cases hempty : xs.isEmpty = true
  · -- without values there are no places, so the empty answer is that of the empty range
    have hzero : c.numVars = 0 := by rw [← hxs, List.isEmpty_iff.mp hempty, List.length_nil]
    exact ⟨s₁, by rw [if_pos hempty, hzero]; rfl⟩
  · refine ⟨s₂, ?_⟩
    rw [if_neg hempty, if_neg (List.cons_ne_nil _ _), hxs]
    exact hloop

/-- Wherever a circuit is, the largest gap is that between the two gradients of untouched copies. -/
theorem Complete.gradientGap_eq (h : c.Complete lines) {cost : List R → R} {gradient : List R → List R}
    (hanswers : c.Answers cost gradient) (hxs : xs.length = c.numVars) {eps : R}
    (heps : (Numeric.two * eps == 0) = false) (hsize : s.cells.size = c.net.size) :
    ∃ s', c.gradientGap (.vector xs) eps s =
      .ok (largestGap (gradient xs) ((List.range c.numVars).map (centralQuotient cost xs eps))) s' := by
  obtain ⟨s₁, hpulled, hsize₁⟩ := h.costAndGradient_eq hanswers hxs hsize
  obtain ⟨s₂, hnumeric⟩ := h.differenceGradient_eq hanswers hxs heps hsize₁
  refine ⟨s₂, ?_⟩
  unfold gradientGap
  rw [bind_of_ok hpulled]
  simp only
  rw [bind_of_ok hnumeric]
  unfold largestGap
  cases (gradient xs).zipWith (fun a b => Numeric.abs (a - b))
      ((List.range c.numVars).map (centralQuotient cost xs eps)) with
  | nil => rfl
  | cons gap gaps => rfl

end Circuit

namespace Session

variable {R : Type} [Numeric R]

/-- After any calls on the signals of an accepted circuit, the cost and gradient at a vector are what an untouched
copy answers, the difference quotients are those of the costs of untouched copies, and the largest gap is the one
between these. -/
theorem gradient_checks_forget {p : Program} {c : Circuit} (hc : Circuit.ofProgram p = .ok c) :
    ∃ (cost : List R → R) (gradient : List R → List R), c.Answers cost gradient ∧
      ∀ calls : List (Call R), (∀ call ∈ calls, call.onSignals = true) →
        ((start c).after calls).circuit = c ∧ ∀ xs : List R, xs.length = c.numVars →
          (∃ s, c.costAndGradient (.vector xs) ((start c).after calls).signals =
            .ok (cost xs, gradient xs) s) ∧
          ∀ eps : R, (Numeric.two * eps == 0) = false →
            (∃ s, c.differenceGradient (.vector xs) eps ((start c).after calls).signals =
              .ok ((List.range c.numVars).map (Circuit.centralQuotient cost xs eps)) s) ∧
            ∃ s, c.gradientGap (.vector xs) eps ((start c).after calls).signals =
              .ok (Circuit.largestGap (gradient xs)
                ((List.range c.numVars).map (Circuit.centralQuotient cost xs eps))) s := by
  obtain ⟨hcomplete, -⟩ := Circuit.complete_of_ofProgram hc
  obtain ⟨cost, gradient, hanswers⟩ := hcomplete.exists_answers (R := R)
  refine ⟨cost, gradient, hanswers, fun calls hcalls => ?_⟩
  have hcircuit : ((start c : Session R).after calls).circuit = c := circuit_after _ hcalls
  have hsize := ((ready_start (R := R) hcomplete.wired).after calls).fits.size
  rw [hcircuit] at hsize
  refine ⟨hcircuit, fun xs hxs => ⟨?_, fun eps heps => ⟨?_, ?_⟩⟩⟩
  · obtain ⟨s, hok, -⟩ := hcomplete.costAndGradient_eq hanswers hxs hsize
    exact ⟨s, hok⟩
  · exact hcomplete.differenceGradient_eq hanswers hxs heps hsize
  · exact hcomplete.gradientGap_eq hanswers hxs heps hsize

/-- A cost at one that was never reset does not show in the checks at two. -/
theorem gradient_checks_forget_forward : ∃ (c : Circuit) (cost : List Extended → Extended)
    (gradient : List Extended → List Extended) (t : Session Extended) (s₁ s₂ s₃ : Signals Extended),
    Circuit.ofProgram ⟨1, ["$0"]⟩ = .ok c ∧ c.Answers cost gradient ∧
      t = (start c).after [.forward (.vector [.finite 1])] ∧
      c.costAndGradient (.vector [.finite 2]) t.signals = .ok (cost [.finite 2], gradient [.finite 2]) s₁ ∧
      c.differenceGradient (.vector [.finite 2]) (.finite 1) t.signals =
        .ok [Circuit.centralQuotient cost [.finite 2] (.finite 1) 0] s₂ ∧
      c.gradientGap (.vector [.finite 2]) (.finite 1) t.signals =
        .ok (Circuit.largestGap (gradient [.finite 2])
          [Circuit.centralQuotient cost [.finite 2] (.finite 1) 0]) s₃ := by
  obtain ⟨cost, gradient, hanswers, hafter⟩ := gradient_checks_forget (R := Extended) Circuit.ofProgram_atom
  obtain ⟨-, hchecks⟩ := hafter [.forward (.vector [.finite 1])] (by simp [Call.onSignals])
  obtain ⟨⟨s₁, hpulled⟩, hquotients⟩ := hchecks [.finite 2] rfl
  obtain ⟨⟨s₂, hnumeric⟩, s₃, hgap⟩ := hquotients (.finite 1) (by decide +kernel)
  exact ⟨_, cost, gradient, _, s₁, s₂, s₃, Circuit.ofProgram_atom, hanswers, rfl, hpulled, hnumeric, hgap⟩

end Session

end SoftLogic
