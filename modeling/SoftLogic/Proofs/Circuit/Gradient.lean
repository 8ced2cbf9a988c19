import Mathlib.Algebra.MvPolynomial.PDeriv
import SoftLogic.Proofs.Circuit.Propagation
import SoftLogic.Proofs.Netlist.Derivative

/-!
# The gradient of a circuit

`Circuit.gradient_exact`: over a field, the circuit of a program pulls the gradient of its total cost, entry
by entry, in whatever order and however often its inputs are asked.  The clauses enter through the formulas
of their expressions.
-/

namespace SoftLogic

open Effect Finset

variable {K : Type} [ExactScalar K]

/-- Entry `i` of the gradient of the sum of the costs `-log t` of formulas, where variable `k` has truth value
`σ k` and `t` runs over the polynomials of the formulas. -/
noncomputable def gradientEntry (fs : List Formula) (σ : ℕ → K) (i : ℕ) : K :=
  σ i * (1 - σ i) * (fs.map fun f => -(1 / MvPolynomial.eval σ f.polynomial) *
    MvPolynomial.eval σ (MvPolynomial.pderiv i f.polynomial)).sum

/-- The truth values of raw values. -/
def truths (xs : List K) (k : ℕ) : K := Scalar.sigmoid (xs.getD k 0)

namespace Circuit

/-- From `s` every sequence of questions to inputs is answered with entries of the gradient, and so is the
question for all of it. -/
def Exact (c : Circuit) (fs : List Formula) (xs : List K) (s : Signals K) : Prop :=
  (∀ pulls : List Nat, (∀ i ∈ pulls, i < c.numVars) →
    ∃ s', pulls.mapM c.net.inputGradient s = .ok (pulls.map (gradientEntry fs (truths xs))) s') ∧
  ∃ s', c.gradient s = .ok ((List.range c.numVars).map (gradientEntry fs (truths xs))) s'

variable {c : Circuit} {lines : List String} {fs : List Formula} {s s' : Signals K}

/-! ### Entries of the gradient -/

/-- The baselines are one at the roots and zero elsewhere. -/
theorem Complete.sum_baseline (h : c.Complete lines) (T : Nat → K) :
    ∑ p ∈ range c.net.size, (c.net.gate p).baseline * T p = (c.roots.map T).sum := by
  have hroot : ∀ p ∈ c.roots.toFinset, (c.net.gate p).baseline * T p = T p := by
    intro p hp
    obtain ⟨a, ha⟩ := (h.mem_roots p).mp (List.mem_toFinset.mp hp)
    rw [ha]
    exact one_mul (T p)
  rw [← List.sum_toFinset T h.nodup, ← sum_congr rfl hroot]
  refine (sum_subset ?_ ?_).symm
  · intro p hp
    obtain ⟨a, ha⟩ := (h.mem_roots p).mp (List.mem_toFinset.mp hp)
    exact mem_range.mpr (Netlist.lt_size_of_gate (by simp [ha]))
  · intro p _ hp
    have hbaseline : (c.net.gate p).baseline = (0 : K) := by
      unfold Gate.baseline
      split
      · next a ha => exact absurd (List.mem_toFinset.mpr ((h.mem_roots p).mpr ⟨a, ha⟩)) hp
      · rfl
    rw [hbaseline, zero_mul]

/-- The tangents at the roots are the derivatives of the costs. -/
theorem HasFormulas.sum_tangent (h : c.HasFormulas lines fs) (xs : Nat → K) (i : Nat) :
    (c.roots.map (c.net.tangent c.numVars xs i)).sum =
      (fs.map fun f => -(1 / MvPolynomial.eval (fun k => Scalar.sigmoid (xs k)) f.polynomial) *
        MvPolynomial.eval (fun k => Scalar.sigmoid (xs k)) (MvPolynomial.pderiv i f.polynomial)).sum := by
  have hsum : ∀ {roots : List Ref} {fs : List Formula},
      List.Forall₂ (c.net.CostOf c.numVars) roots fs →
      (roots.map (c.net.tangent c.numVars xs i)).sum =
      (fs.map fun f => -(1 / MvPolynomial.eval (fun k => Scalar.sigmoid (xs k)) f.polynomial) *
        MvPolynomial.eval (fun k => Scalar.sigmoid (xs k)) (MvPolynomial.pderiv i f.polynomial)).sum := by
    intro roots fs hall
    induction hall with
    | nil => rfl
    | @cons root f _ _ hroot _ ih =>
      obtain ⟨a, hgate, hd⟩ := hroot
      rw [List.map_cons, List.map_cons, List.sum_cons, List.sum_cons, ih, Netlist.tangent_of_root hgate hd,
        Netlist.tangent_of_denotes hd, Netlist.meaning_of_denotes hd, Formula.eval_polynomial]
      rfl
  exact hsum h.denoted

/-- What an input has gathered is an entry of the gradient, wherever settling keeps the gradients those of a pull. -/
theorem Complete.inputGradient_exact (h : c.Complete lines) (hformulas : c.HasFormulas lines fs)
    {xs : List K} {J : Signals K → Prop} (hJ : c.net.Settles c.numVars J)
    (hpulled : ∀ s, J s → ∃ t : Signals K, (t.Pulled c.net c.numVars fun k => xs.getD k 0) ∧ s.SameGradients t)
    {i : Nat} (hi : i < c.numVars) (hs : J s) :
    ∃ s', c.net.inputGradient i s = .ok (gradientEntry fs (truths xs) i) s' ∧ J s' := by
  obtain ⟨s', hok, hs', hpushed⟩ := h.net_closed.inputGradient_ok hJ hs hi
  obtain ⟨t, ht, hsame⟩ := hpulled s' hs'
  refine ⟨s', ?_, hs'⟩
  rw [← (hsame _).2] at hpushed
  rw [hok, ← (hsame i).1, Netlist.gradient_input h.net_closed ht hi hpushed, h.sum_baseline, hformulas.sum_tangent]
  rfl

/-- Wherever settling keeps the gradients those of a pull, pulling gives the gradient. -/
theorem Complete.exact_of_settles (h : c.Complete lines) (hformulas : c.HasFormulas lines fs) {xs : List K}
    {J : Signals K → Prop} (hJ : c.net.Settles c.numVars J)
    (hpulled : ∀ s, J s → ∃ t : Signals K, (t.Pulled c.net c.numVars fun k => xs.getD k 0) ∧ s.SameGradients t)
    (hs : J s) : c.Exact fs xs s := by
  constructor
  · intro pulls hpulls
    obtain ⟨s', hok, -⟩ := mapM_ok (l := pulls) (f := c.net.inputGradient)
      (fun i hi s hs => h.inputGradient_exact hformulas hJ hpulled (hpulls i hi) hs) hs
    exact ⟨s', hok⟩
  · obtain ⟨s', hok, -⟩ := mapM_ok (l := c.inputs) (f := fun leaf => lift (c.net.inputGradient leaf))
      (g := gradientEntry fs (truths xs)) (P := J)
      (fun i hi s hs => by
        obtain ⟨s', hok, hs'⟩ := h.inputGradient_exact hformulas hJ hpulled (List.mem_range.mp hi) hs
        exact ⟨s', adaptExcept_of_ok hok, hs'⟩) hs
    refine ⟨c.net.reset c.inputs s', ?_⟩
    unfold gradient
    rw [bind_of_ok hok]
    rfl

/-- Wherever nodes have pushed after their consumers, pulling gives the gradient. -/
theorem Complete.exact_of_pulled (h : c.Complete lines) (hformulas : c.HasFormulas lines fs) {xs : List K}
    (hs : s.Pulled c.net c.numVars fun k => xs.getD k 0) : c.Exact fs xs s :=
  h.exact_of_settles hformulas (Netlist.settles_pulled h.net_closed) (fun t ht => ⟨t, ht, .refl t⟩) hs

/-! ### Where pulling may start -/

/-- Nothing has pushed in pristine signals, so nothing but the baselines has been gathered. -/
theorem pulled_of_pristine {xs : Nat → K} (h : c.net.Sound c.numVars) (hsize : s.cells.size = c.net.size)
    (hs : s.Pristine c.net) (hheld : ∀ k < c.numVars, (s.cell k).signal = some (xs k)) :
    s.Pulled c.net c.numVars xs := by
  have hpushed : ∀ r : Nat, (s.cell r).pushed = false := by
    intro r
    by_cases hr : r < c.net.size
    · exact hs.pushed r hr
    · rw [Signals.cell, Array.getD_eq_getD_getElem?, Array.getElem?_eq_none (by omega)]
      rfl
  refine ⟨(hs.blank hsize).shows h hheld, ?_, ?_⟩
  · intro r d hr
    rw [hpushed r] at hr
    cases hr
  · intro p hp
    rw [hs.gradient p hp]
    simp [hpushed]

/-- Evaluating changes nothing about what was gathered. -/
theorem pulled_of_same {xs : Nat → K} (hs : s.Pulled c.net c.numVars xs)
    (hshows : s'.Shows c.net c.numVars xs) (hsame : s.SameGradients s') : s'.Pulled c.net c.numVars xs := by
  refine ⟨hshows, ?_, ?_⟩
  · intro r d hr hd
    rw [(hsame r).2] at hr
    rw [(hsame d).2]
    exact hs.after r d hr hd
  · intro p hp
    rw [(hsame p).1, hs.gradient p hp]
    simp only [(hsame _).1, (hsame _).2]

/-- From pristine signals, the cost at a vector of the right length is evaluated. -/
theorem Complete.pulled_of_costAt (h : c.Complete lines) {xs : List K} (hxs : xs.length = c.numVars)
    (hsize : s.cells.size = c.net.size) (hs : s.Pristine c.net) :
    ∃ cost s', c.costAt (.vector xs) s = .ok cost s' ∧ s'.Pulled c.net c.numVars fun k => xs.getD k 0 := by
  have hsound := h.net_closed.sound
  obtain ⟨s', hcost, hshows, hsame⟩ := h.costAt_ok hxs (hs.blank hsize)
  have hpulled := pulled_of_pristine hsound (by rw [Signals.size_holding, hsize])
    (hs.holding hsize hsound xs) (Signals.signal_holding hsound hsize xs)
  exact ⟨_, s', hcost, pulled_of_same hpulled hshows hsame⟩

/-- The circuit of a program pulls exact gradients: after a reset and the evaluation of the cost, which
succeed, and from pristine signals whose inputs hold the values.  In a field the reciprocal of zero is zero,
so no truth value has to be excluded. -/
theorem gradient_exact {p : Program} (hc : ofProgram p = .ok c) :
    ∃ fs, c.HasFormulas (significant p.clauses) fs ∧ ∀ xs : List K, xs.length = c.numVars →
      (∀ s₀ : Signals K, s₀.cells.size = c.net.size → ∃ s₁ cost s, c.reset s₀ = .ok () s₁ ∧
        c.costAt (.vector xs) s₁ = .ok cost s ∧ c.Exact fs xs s) ∧
      ∀ s : Signals K, s.cells.size = c.net.size → s.Pristine c.net →
        (∀ k < c.numVars, (s.cell k).signal = some (xs.getD k 0)) → c.Exact fs xs s := by
  obtain ⟨hcomplete, -⟩ := complete_of_ofProgram hc
  obtain ⟨fs, hformulas⟩ := hcomplete.exists_formulas
  refine ⟨fs, hformulas, fun xs hxs => ⟨fun s₀ hsize => ?_, fun s hsize hs hheld => ?_⟩⟩
  · have hfits := hcomplete.fits hsize
    obtain ⟨cost, s, hcost, hs⟩ := hcomplete.pulled_of_costAt hxs (hfits.reset c.inputs).size
      (hfits.pristine_reset hcomplete.net_closed.sound)
    exact ⟨_, cost, s, rfl, hcost, hcomplete.exact_of_pulled hformulas hs⟩
  · exact hcomplete.exact_of_pulled hformulas
      (pulled_of_pristine hcomplete.net_closed.sound hsize hs hheld)

/-- The rational numbers, where a raw value is its own truth value. -/
instance : ExactScalar ℚ where
  sigmoid x := x
  log _ := 0

/-- At `$0 = 3` the clause `$0 ^ $0` has truth value `9` and derivative `6`, which makes
`3 * (1 - 3) * (-6 / 9) = 4`. -/
theorem gradient_square : ∃ (c : Circuit) (cost : ℚ) (s s₁ s₂ : Signals ℚ),
    ofProgram ⟨1, ["$0 ^ $0"]⟩ = .ok c ∧ c.reset c.signals = .ok () s ∧
      c.costAt (.vector [3]) s = .ok cost s₁ ∧ c.gradient s₁ = .ok [4] s₂ := by
  have hc : ofProgram ⟨1, ["$0 ^ $0"]⟩ = .ok ⟨1, ⟨⟨#[⟨0, .input, [1]⟩, ⟨1, .sigmoid 0, [2, 2]⟩,
      ⟨2, .binary .and 1 (some 1), [3]⟩, ⟨3, .cost 2, []⟩]⟩, 4⟩, ["$0 ^ $0"], [3]⟩ := by decide +kernel
  obtain ⟨fs, hformulas, hexact⟩ := gradient_exact (K := ℚ) hc
  obtain ⟨s, cost, s₁, hreset, hcost, -, s₂, hgradient⟩ :=
    (hexact [3] rfl).1 (Signals.fresh _) (Signals.size_fresh _)
  refine ⟨_, cost, s, s₁, s₂, hc, hreset, hcost, ?_⟩
  have hlines : significant ["$0 ^ $0"] = ["$0 ^ $0"] := by decide
  have hderived := hformulas.derived
  rw [hlines] at hderived
  obtain ⟨f, fs, ⟨tokens, hscan, hformula⟩, hnil, rfl⟩ := List.forall₂_cons_left_iff.mp hderived
  cases hnil
  have htokens : Token.scan "$0 ^ $0" 1 =
      .ok [⟨.variable 0, 0⟩, ⟨.connective .and, 3⟩, ⟨.variable 0, 5⟩] := by decide
  cases htokens.symm.trans hscan
  have hf : f = .binary .and (.var 0) (.var 0) :=
    (hformula (.chain (.operand (.var 0)) .and (.var 0)) rfl).symm
  rw [hgradient, hf]
  have htruth : truths ([3] : List ℚ) 0 = 3 := rfl
  have hentry : gradientEntry [.binary .and (.var 0) (.var 0)] (truths [3]) 0 = (4 : ℚ) := by
    simp [gradientEntry, Formula.polynomial, htruth]
    norm_num
  simp only [List.range_one, List.map_cons, List.map_nil, hentry]

end Circuit

end SoftLogic
