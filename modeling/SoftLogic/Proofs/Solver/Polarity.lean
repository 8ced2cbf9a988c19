import Mathlib.Algebra.Order.BigOperators.Group.List
import SoftLogic.Proofs.Circuit.Bounds
import SoftLogic.Proofs.Solver.Descent

/-!
# Variables on one side

A negation turns the sign of a derivative round, and the connectives keep it, since their slopes are positive strictly
between zero and one.  So the derivative of a formula by a variable that occurs only under an even number of negations
is positive, and by one that occurs only under an odd number it is negative (`Formula.derivative_heading`).  Costs fall
where truth values rise: gradient descent takes such a variable further to its side at every step, and leaves alone what
no clause reads (`Solver.descend_heading`).
-/

namespace SoftLogic

open Effect

/-- The direction in which the truth value of a variable goes to speak for a bit. -/
def heading {K : Type} [ExactScalar K] (b : Bool) : K := if b then 1 else -1

/-- Variable `i` occurs in some formula, and in all of them only under an even number of negations if `b` is true, and
under an odd number if it is false. -/
structure OccursOnly (fs : List Formula) (i : ℕ) (b : Bool) : Prop where
  occurs : ∃ f ∈ fs, (i, b) ∈ f.occurrences
  only : ∀ f ∈ fs, (i, !b) ∉ f.occurrences

section Formulas

variable {K : Type} [ExactScalar K] {f : Formula} {i : ℕ} {σ : ℕ → K} {b : Bool}

theorem heading_not (b : Bool) : heading (!b) = (-heading b : K) := by
  cases b <;> simp [heading]

/-- A formula does not depend on a variable that does not occur in it. -/
theorem Formula.derivative_eq_zero (hi : i ∉ f.leaves) : f.derivative i σ = 0 := by
  induction f with
  | var k => rw [derivative_var, if_neg fun hk => hi (Multiset.mem_singleton.mpr hk.symm)]
  | not f ih =>
    rw [leaves_not] at hi
    rw [derivative_not, ih hi, mul_zero]
  | binary op f g ihf ihg =>
    rw [leaves_binary, Multiset.mem_add, not_or] at hi
    rw [derivative_binary, ihf hi.1, ihg hi.2, mul_zero, mul_zero, add_zero]

variable [LinearOrder K] [IsStrictOrderedRing K]

theorem Connective.slope_pos (op : Connective) {x : K} (hx : 0 < x ∧ x < 1) : 0 < op.slope x := by
  cases op with
  | and => exact hx.1
  | or => exact sub_pos.mpr hx.2

/-- By a variable on one side, a formula rises in the direction of that side. -/
theorem Formula.derivative_heading (hσ : ∀ k ∈ f.leaves, 0 < σ k ∧ σ k < 1) (hi : i ∈ f.leaves)
    (hside : (i, !b) ∉ f.occurrences) : 0 < heading b * f.derivative i σ := by
  induction f generalizing b with
  | var k =>
    obtain rfl : i = k := Multiset.mem_singleton.mp hi
    have hb : b = true := by simpa [occurrences] using hside
    rw [derivative_var, if_pos rfl, hb]
    simp [heading]
  | not f ih =>
    rw [leaves_not] at hσ hi
    rw [mem_occurrences_not] at hside
    have hrest := ih hσ hi hside
    rw [heading_not] at hrest
    rw [derivative_not]
    linarith
  | binary op f g ihf ihg =>
    obtain ⟨hf, hg⟩ := forall_leaves_binary.mp hσ
    rw [mem_occurrences_binary, not_or] at hside
    have hslopef := op.slope_pos (value_mem_open hf)
    have hslopeg := op.slope_pos (value_mem_open hg)
    have hsplit : heading b * (binary op f g).derivative i σ = op.slope (g.value σ) * (heading b * f.derivative i σ) +
        op.slope (f.value σ) * (heading b * g.derivative i σ) := by
      rw [derivative_binary]
      ring
    -- an operand without the variable adds nothing
    have hf₀ : 0 ≤ heading b * f.derivative i σ := by
      by_cases hif : i ∈ f.leaves
      · exact (ihf hf hif hside.1).le
      · rw [derivative_eq_zero hif, mul_zero]
    have hg₀ : 0 ≤ heading b * g.derivative i σ := by
      by_cases hig : i ∈ g.leaves
      · exact (ihg hg hig hside.2).le
      · rw [derivative_eq_zero hig, mul_zero]
    rw [hsplit]
    rcases Multiset.mem_add.mp (leaves_binary ▸ hi) with hif | hig
    · exact add_pos_of_pos_of_nonneg (mul_pos hslopeg (ihf hf hif hside.1)) (mul_nonneg hslopef.le hg₀)
    · exact add_pos_of_nonneg_of_pos (mul_nonneg hslopeg.le hf₀) (mul_pos hslopef (ihg hg hig hside.2))

/-- A formula does not fall in the direction of a side if the variable does not occur on the other one. -/
theorem Formula.derivative_heading_nonneg (hσ : ∀ k ∈ f.leaves, 0 < σ k ∧ σ k < 1) (hside : (i, !b) ∉ f.occurrences) :
    0 ≤ heading b * f.derivative i σ := by
  by_cases hi : i ∈ f.leaves
  · exact (derivative_heading hσ hi hside).le
  · rw [derivative_eq_zero hi, mul_zero]

end Formulas

/-! ### Gradients -/

section Gradients

variable {K : Type} [ExactScalar K] {fs : List Formula} {σ : ℕ → K} {i : ℕ} {b : Bool}

theorem gradientEntry_eq_zero (h : ∀ f ∈ fs, i ∉ f.leaves) : gradientEntry fs σ i = 0 := by
  have hterms : (fs.map fun f => -(1 / MvPolynomial.eval σ f.polynomial) *
      MvPolynomial.eval σ (MvPolynomial.pderiv i f.polynomial)).sum = 0 := by
    refine List.sum_eq_zero fun y hy => ?_
    obtain ⟨f, hf, rfl⟩ := List.mem_map.mp hy
    have hzero : f.derivative i σ = 0 := Formula.derivative_eq_zero (h f hf)
    unfold Formula.derivative at hzero
    rw [hzero, mul_zero]
  rw [gradientEntry, hterms, mul_zero]

variable [LinearOrder K] [IsStrictOrderedRing K]

/-- By a variable on one side, the sum of the costs falls in the direction of that side. -/
theorem OccursOnly.gradientEntry_heading (h : OccursOnly fs i b)
    (hσ : ∀ f ∈ fs, ∀ k ∈ f.leaves, 0 < σ k ∧ σ k < 1) : heading b * gradientEntry fs σ i < 0 := by
  have hterms : heading b * gradientEntry fs σ i =
      -(σ i * (1 - σ i) * (fs.map fun f => 1 / f.value σ * (heading b * f.derivative i σ)).sum) := by
    have hsum : (fs.map fun f => 1 / f.value σ * (heading b * f.derivative i σ)).sum =
        -heading b * (fs.map fun f => -(1 / f.value σ) * f.derivative i σ).sum := by
      rw [← List.sum_map_mul_left]
      refine congrArg List.sum (List.map_congr_left fun f _ => ?_)
      ring
    rw [hsum, gradientEntry]
    simp only [Formula.eval_polynomial, Formula.derivative]
    ring
  have hvalue : ∀ f ∈ fs, 0 < 1 / f.value σ := fun f hf => one_div_pos.mpr (Formula.value_mem_open (hσ f hf)).1
  -- no term is negative, and that of a formula with the variable is positive
  have hnonneg : ∀ y ∈ fs.map fun f => 1 / f.value σ * (heading b * f.derivative i σ), 0 ≤ y := by
    intro y hy
    obtain ⟨f, hf, rfl⟩ := List.mem_map.mp hy
    exact mul_nonneg (hvalue f hf).le (Formula.derivative_heading_nonneg (hσ f hf) (h.only f hf))
  obtain ⟨f, hf, hocc⟩ := h.occurs
  have hi : i ∈ f.leaves := (Formula.mem_leaves_iff b).mpr (.inl hocc)
  have hterm : 0 < 1 / f.value σ * (heading b * f.derivative i σ) :=
    mul_pos (hvalue f hf) (Formula.derivative_heading (hσ f hf) hi (h.only f hf))
  have hle := List.single_le_sum hnonneg _ (List.mem_map_of_mem hf)
  have hσi : 0 < σ i * (1 - σ i) := mul_pos (hσ f hf i hi).1 (sub_pos.mpr (hσ f hf i hi).2)
  rw [hterms]
  exact neg_neg_of_pos (mul_pos hσi (hterm.trans_le hle))

end Gradients

/-- The entries of a gradient have the signs that the sides of their variables ask for. -/
structure Heads {K : Type} [ExactScalar K] [LinearOrder K] (fs : List Formula) (entries : List K) : Prop where
  neg : ∀ i, OccursOnly fs i true → entries.getD i 0 < 0
  pos : ∀ i, OccursOnly fs i false → 0 < entries.getD i 0
  zero : ∀ i, (∀ f ∈ fs, i ∉ f.leaves) → entries.getD i 0 = 0

/-- From point to point, variables go further to the side that they are on, and what does not occur stays where it
is. -/
structure Drifts {K : Type} [ExactScalar K] [LinearOrder K] (fs : List Formula) (points : ℕ → List K) : Prop where
  up : ∀ i, OccursOnly fs i true → StrictMono fun k => (points k).getD i 0
  down : ∀ i, OccursOnly fs i false → StrictAnti fun k => (points k).getD i 0
  still : ∀ i, (∀ f ∈ fs, i ∉ f.leaves) → ∀ k, (points k).getD i 0 = (points 0).getD i 0

/-- At truth values strictly between zero and one, the gradient of a circuit has the signs of its variables. -/
theorem Circuit.HasFormulas.heads {K : Type} [ExactScalar K] [LinearOrder K] [IsStrictOrderedRing K] {c : Circuit}
    {lines : List String} {fs : List Formula} {xs : List K} (h : c.HasFormulas lines fs) (hxs : xs.length = c.numVars)
    (hunit : ∀ x ∈ xs, 0 < Scalar.sigmoid x ∧ Scalar.sigmoid x < 1) :
    Heads fs ((List.range c.numVars).map (gradientEntry fs (truths xs))) := by
  have hσ : ∀ f ∈ fs, ∀ k ∈ f.leaves, 0 < truths xs k ∧ truths xs k < 1 :=
    fun f hf => forall_truths (P := fun t => 0 < t ∧ t < 1) hunit (hxs ▸ h.lt_of_mem_leaves hf)
  have hentry : ∀ i b, OccursOnly fs i b → ((List.range c.numVars).map (gradientEntry fs (truths xs))).getD i 0 =
      gradientEntry fs (truths xs) i := by
    intro i b hside
    obtain ⟨f, hf, hocc⟩ := hside.occurs
    have hlt := h.lt_of_mem_leaves hf i ((Formula.mem_leaves_iff b).mpr (.inl hocc))
    simp [hlt]
  refine ⟨fun i hside => ?_, fun i hside => ?_, fun i habsent => ?_⟩
  · have hsign := hside.gradientEntry_heading hσ
    rw [hentry i true hside]
    simpa [heading] using hsign
  · have hsign := hside.gradientEntry_heading hσ
    rw [hentry i false hside]
    simpa [heading] using hsign
  · by_cases hlt : i < c.numVars
    · simp [hlt, gradientEntry_eq_zero habsent]
    · simp [hlt]

/-! ### Descent -/

namespace Solver

variable {K : Type} [LinearOrder K] [OrderedScalar K] {fs : List Formula} {gradient : List K → List K} {rate : K}
  {xs : List K} {i : ℕ}

theorem getD_descended (hlength : (gradient xs).length = xs.length) :
    (descended gradient rate xs).getD i 0 = xs.getD i 0 - rate * (gradient xs).getD i 0 := by
  unfold descended
  by_cases hi : i < xs.length
  · simp [hlength, hi]
  · simp [hlength, hi]

variable [IsStrictOrderedRing K]

/-- Where all gradients have the signs of the variables, the points of gradient descent drift. -/
theorem drifts_trajectory (hrate : 0 < rate) (hlength : ∀ k, (gradient (trajectory gradient rate xs k)).length =
    (trajectory gradient rate xs k).length) (hheads : ∀ k, Heads fs (gradient (trajectory gradient rate xs k))) :
    Drifts fs (trajectory gradient rate xs) := by
  have hstep : ∀ i k, (trajectory gradient rate xs (k + 1)).getD i 0 =
      (trajectory gradient rate xs k).getD i 0 - rate * (gradient (trajectory gradient rate xs k)).getD i 0 :=
    fun i k => getD_descended (hlength k)
  constructor
  · intro i hside
    refine strictMono_nat_of_lt_succ fun k => ?_
    have := mul_neg_of_pos_of_neg hrate ((hheads k).neg i hside)
    rw [hstep]
    linarith
  · intro i hside
    refine strictAnti_nat_of_succ_lt fun k => ?_
    have := mul_pos hrate ((hheads k).pos i hside)
    rw [hstep]
    linarith
  · intro i habsent k
    induction k with
    | zero => rfl
    | succ k ih => rw [hstep, (hheads k).zero i habsent, mul_zero, sub_zero, ih]

/-- In the circuit of a program whose lines are derived, at truth values strictly between zero and one, the gradient is
negative by variables that occur under an even number of negations only, positive by those that occur under an odd
number only, and zero by those that do not occur.  So where truth values always are strictly between zero and one,
gradient descent drifts at every step. -/
theorem descend_heading {p : Program} {n : Nat} (hdeclared : p.declared = n) {es : List Expression}
    (hderived : List.Forall₂ (fun line e => Expression.Derives e n line) (Circuit.significant p.clauses) es) :
    ∃ c, Circuit.ofProgram p = .ok c ∧ c.numVars = n ∧
      (∀ xs : List K, xs.length = n → (∀ x ∈ xs, 0 < Scalar.sigmoid x ∧ Scalar.sigmoid x < 1) →
        ∀ s : Signals K, s.cells.size = c.net.size → s.Pristine c.net → ∃ cost entries s₁ s₂,
          c.costAt (.vector xs) s = .ok cost s₁ ∧ c.gradient s₁ = .ok entries s₂ ∧ entries.length = n ∧
          Heads (es.map Expression.formula) entries) ∧
      ((∀ x : K, 0 < Scalar.sigmoid x ∧ Scalar.sigmoid x < 1) → ∀ (config : Config K) (xs : List K),
        0 < config.learningRate → xs.length = n → ∃ points : ℕ → List K, points 0 = xs ∧
          Drifts (es.map Expression.formula) points ∧
          (∀ k, ∀ s : Signals K, c.Clean s → ∃ sample s',
            descentStep c config.learningRate (points k) s = .ok (sample, points (k + 1)) s' ∧ c.Clean s') ∧
          ∃ o : Outcome K, o.values = points config.iterations ∧ ∀ (entropy : Nat) (s : Signals K), c.Clean s →
            ∃ s', descend c (some config) (some (.vector xs)) entropy s = .ok o s' ∧ c.Clean s') := by
  obtain ⟨c, hc, rfl⟩ := Circuit.ofProgram_ok hdeclared hderived
  obtain ⟨hcomplete, -⟩ := Circuit.complete_of_ofProgram hc
  have hformulas := hcomplete.hasFormulas hderived
  have hgradient : ∀ xs : List K, xs.length = c.numVars →
      (∀ x ∈ xs, 0 < Scalar.sigmoid x ∧ Scalar.sigmoid x < 1) → ∀ s : Signals K, s.cells.size = c.net.size →
      s.Pristine c.net → ∃ cost entries s₁ s₂, c.costAt (.vector xs) s = .ok cost s₁ ∧
        c.gradient s₁ = .ok entries s₂ ∧ entries.length = c.numVars ∧ Heads (es.map Expression.formula) entries := by
    intro xs hxs hunit s hsize hs
    obtain ⟨cost, s₁, hcost, hpulled⟩ := hcomplete.pulled_of_costAt hxs hsize hs
    obtain ⟨-, s₂, hok⟩ := hcomplete.exact_of_pulled hformulas hpulled
    exact ⟨cost, _, s₁, s₂, hcost, hok, by simp, hformulas.heads hxs hunit⟩
  refine ⟨c, hc, rfl, hgradient, fun hunit config xs hrate hxs => ?_⟩
  obtain ⟨cost, gradient, hanswers⟩ := hcomplete.exists_answers (R := K)
  have hheads : ∀ ys : List K, ys.length = c.numVars → Heads (es.map Expression.formula) (gradient ys) := by
    intro ys hys
    obtain ⟨s₁, s₂, hcost, hpulled⟩ := hanswers.answer ys hys
    obtain ⟨cost', entries, s₁', s₂', hcost', hpulled', -, hsigns⟩ :=
      hgradient ys hys (fun x _ => hunit x) c.signals c.size_signals c.pristine_signals
    cases hcost.symm.trans hcost'
    cases hpulled.symm.trans hpulled'
    exact hsigns
  have hlength : ∀ k, (trajectory gradient config.learningRate xs k).length = c.numVars :=
    length_trajectory hanswers hxs
  refine ⟨trajectory gradient config.learningRate xs, rfl, ?_, fun k s hs => ?_, ?_⟩
  · refine drifts_trajectory hrate (fun k => ?_) fun k => hheads _ (hlength k)
    rw [hanswers.length_gradient (hlength k), hlength k]
  · obtain ⟨s', hstep, hs'⟩ := descentStep_ok hcomplete hanswers config.learningRate (hlength k) hs
    exact ⟨_, s', hstep, hs'⟩
  · obtain ⟨o, htraces, hdescend⟩ := descend_ok hcomplete hanswers hxs config
    exact ⟨o, htraces.values_eq, hdescend⟩

/-- From zero, two steps on the clause `~$0 v $1` over three variables take the first one down and the second one up, and
leave the third one where it is. -/
theorem descend_heading_implication : ∃ (c : Circuit) (config : Config ℝ) (o : Outcome ℝ) (s : Signals ℝ),
    Circuit.ofProgram ⟨3, ["~$0 v $1"]⟩ = .ok c ∧ config.learningRate = 1 ∧ config.iterations = 2 ∧
      descend c (some config) (some (.vector [0, 0, 0])) 0 c.signals = .ok o s ∧
      o.values.getD 0 0 < 0 ∧ 0 < o.values.getD 1 0 ∧ o.values.getD 2 0 = 0 := by
  have hscan : Token.scan "~$0 v $1" 3 =
      .ok [⟨.not, 0⟩, ⟨.variable 0, 1⟩, ⟨.connective .or, 4⟩, ⟨.variable 1, 6⟩] := by decide
  have hderives : Expression.Derives (.chain (.operand (.not (.var 0))) .or (.var 1)) 3 "~$0 v $1" := ⟨_, hscan, rfl⟩
  obtain ⟨c, hc, hn, -, hdescend⟩ :=
    descend_heading (K := ℝ) (p := ⟨3, ["~$0 v $1"]⟩) rfl (hderives.singleton (by decide))
  have hunit : ∀ x : ℝ, 0 < Scalar.sigmoid x ∧ Scalar.sigmoid x < 1 :=
    fun x => ⟨Real.sigmoid_pos x, Real.sigmoid_lt_one x⟩
  obtain ⟨points, hstart, hdrifts, -, o, hvalues, hrun⟩ :=
    hdescend hunit { Config.default with learningRate := 1, iterations := 2 } [0, 0, 0] one_pos rfl
  obtain ⟨hcomplete, -⟩ := Circuit.complete_of_ofProgram hc
  obtain ⟨s, hok, -⟩ := hrun 0 c.signals hcomplete.clean_signals
  let f : Formula := .binary .or (.not (.var 0)) (.var 1)
  have hdown : OccursOnly [f] 0 false := ⟨⟨f, by simp, by decide⟩, by decide⟩
  have hup : OccursOnly [f] 1 true := ⟨⟨f, by simp, by decide⟩, by decide⟩
  have hstill : ∀ g ∈ [f], 2 ∉ g.leaves := by decide
  have hzero : ∀ i, (points 0).getD i 0 = 0 := by
    intro i
    rw [hstart]
    rcases i with _ | _ | _ | i <;> rfl
  have hvalues : o.values = points 2 := hvalues
  refine ⟨c, _, o, s, hc, rfl, rfl, hok, ?_, ?_, ?_⟩
  · have hlt : (points 2).getD 0 0 < (points 0).getD 0 0 := hdrifts.down 0 hdown two_pos
    rwa [hzero, ← hvalues] at hlt
  · have hlt : (points 0).getD 1 0 < (points 2).getD 1 0 := hdrifts.up 1 hup two_pos
    rwa [hzero, ← hvalues] at hlt
  · rw [hvalues, hdrifts.still 2 hstill, hzero]

end Solver

end SoftLogic
