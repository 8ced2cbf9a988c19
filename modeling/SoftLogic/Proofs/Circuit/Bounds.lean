import Mathlib.Algebra.Order.BigOperators.Ring.Multiset
import Mathlib.Tactic.Linarith
import SoftLogic.Proofs.Circuit.Gradient
import SoftLogic.Proofs.Circuit.Satisfaction
import SoftLogic.Proofs.Clause.Occurrences
import SoftLogic.Proofs.Ordered
import SoftLogic.Solver.Outcome

/-!
# What a truth value says about an assignment

Over an ordered field a truth value speaks for one bit or the other: `agreement true t` is `t` and `agreement false t`
is `1 - t`.  A negation swaps the two, and what speaks for the operands of a connective speaks, multiplied, for its entry
in the boolean table (`Connective.mul_le_agreement`).  So both bounds of a formula go up together by induction:

* every formula keeps away from zero and from one as its variables do (`Formula.margin_le_agreement`);
* a truth value speaks for what the formula says of the rounded variables (`Formula.half_pow_le_agreement`), and near
  one it decides it (`Circuit.satisfiedBy_rounded`).
-/

namespace SoftLogic

open Effect

/-- How far a truth value speaks for a bit. -/
def agreement {K : Type} [ExactScalar K] (b : Bool) (t : K) : K := if b then t else 1 - t

section Agreement

variable {K : Type} [ExactScalar K]

@[simp] theorem agreement_true (t : K) : agreement true t = t := rfl

@[simp] theorem agreement_false (t : K) : agreement false t = 1 - t := rfl

theorem agreement_not (b : Bool) (t : K) : agreement b (1 - t) = agreement (!b) t := by
  cases b <;> simp

/-- On two equal bits a connective is idle. -/
theorem Connective.holds_self (op : Connective) (b : Bool) : op.holds b b = b := by
  cases op <;> cases b <;> rfl

end Agreement

section Formulas

variable {K : Type} [ExactScalar K] [LinearOrder K] [IsStrictOrderedRing K] {x y c d t : K} {b b' : Bool}
  {f : Formula} {σ : ℕ → K}

theorem agreement_nonneg (ht : 0 ≤ t ∧ t ≤ 1) (b : Bool) : 0 ≤ agreement b t := by
  cases b with
  | false => exact sub_nonneg.mpr ht.2
  | true => exact ht.1

/-- What speaks for the operands speaks for the connective. -/
theorem Connective.mul_le_agreement (op : Connective) (hx : 0 ≤ x ∧ x ≤ 1) (hy : 0 ≤ y ∧ y ≤ 1) (hd : 0 ≤ d)
    (hcx : c ≤ agreement b x) (hdy : d ≤ agreement b' y) : c * d ≤ agreement (op.holds b b') (op.apply x y) := by
  have hmul : agreement b x * agreement b' y ≤ agreement (op.holds b b') (op.apply x y) := by
    -- each of the eight cases comes down to the four ways of agreeing with both operands
    have htt : 0 ≤ x * y := mul_nonneg hx.1 hy.1
    have htf : 0 ≤ x * (1 - y) := mul_nonneg hx.1 (sub_nonneg.mpr hy.2)
    have hft : 0 ≤ (1 - x) * y := mul_nonneg (sub_nonneg.mpr hx.2) hy.1
    have hff : 0 ≤ (1 - x) * (1 - y) := mul_nonneg (sub_nonneg.mpr hx.2) (sub_nonneg.mpr hy.2)
    cases op <;> cases b <;> cases b' <;>
      simp only [agreement_true, agreement_false, holds, apply, Bool.and_true, Bool.and_false, Bool.or_true,
        Bool.or_false] <;> linarith
  exact (mul_le_mul hcx hdy hd (agreement_nonneg hx b)).trans hmul

/-! ### Away from zero and one -/

/-- The product of the distances of variables from zero and one. -/
def margin (σ : ℕ → K) (m : Multiset ℕ) : K := (m.map fun k => min (σ k) (1 - σ k)).prod

theorem margin_nonneg {m : Multiset ℕ} (hσ : ∀ k ∈ m, 0 ≤ σ k ∧ σ k ≤ 1) : 0 ≤ margin σ m := by
  refine Multiset.prod_nonneg fun t ht => ?_
  obtain ⟨k, hk, rfl⟩ := Multiset.mem_map.mp ht
  exact le_min (hσ k hk).1 (sub_nonneg.mpr (hσ k hk).2)

theorem margin_pos {m : Multiset ℕ} (hσ : ∀ k ∈ m, 0 < σ k ∧ σ k < 1) : 0 < margin σ m := by
  refine Multiset.prod_pos fun t ht => ?_
  obtain ⟨k, hk, rfl⟩ := Multiset.mem_map.mp ht
  exact lt_min (hσ k hk).1 (sub_pos.mpr (hσ k hk).2)

/-- A truth value that speaks for both bits is in the unit interval. -/
theorem mem_unit_of_le_agreement (hc : 0 ≤ c) (h : ∀ b, c ≤ agreement b t) : 0 ≤ t ∧ t ≤ 1 :=
  ⟨hc.trans (h true), sub_nonneg.mp (hc.trans (h false))⟩

/-- A formula keeps as far from zero and from one as the product of what its variables keep. -/
theorem Formula.margin_le_agreement (hσ : ∀ k ∈ f.leaves, 0 ≤ σ k ∧ σ k ≤ 1) (b : Bool) :
    margin σ f.leaves ≤ agreement b (f.value σ) := by
  induction f generalizing b with
  | var k =>
    simp only [margin, leaves_var, Multiset.map_singleton, Multiset.prod_singleton, value]
    cases b with
    | false => exact min_le_right _ _
    | true => exact min_le_left _ _
  | not f ih =>
    rw [leaves_not] at hσ ⊢
    rw [value, agreement_not]
    exact ih hσ (!b)
  | binary op f g ihf ihg =>
    obtain ⟨hf, hg⟩ := forall_leaves_binary.mp hσ
    rw [margin, leaves_binary, Multiset.map_add, Multiset.prod_add, value]
    -- both bounds of both operands put their truth values into the unit interval
    have := op.mul_le_agreement (mem_unit_of_le_agreement (margin_nonneg hf) (ihf hf))
      (mem_unit_of_le_agreement (margin_nonneg hg) (ihg hg)) (margin_nonneg hg) (ihf hf b) (ihg hg b)
    rwa [op.holds_self] at this

/-- The truth value of a formula is in the unit interval. -/
theorem Formula.value_mem_unit (hσ : ∀ k ∈ f.leaves, 0 ≤ σ k ∧ σ k ≤ 1) : 0 ≤ f.value σ ∧ f.value σ ≤ 1 :=
  mem_unit_of_le_agreement (margin_nonneg hσ) (margin_le_agreement hσ)

/-- Strictly between zero and one, if its variables are. -/
theorem Formula.value_mem_open (hσ : ∀ k ∈ f.leaves, 0 < σ k ∧ σ k < 1) : 0 < f.value σ ∧ f.value σ < 1 := by
  have hle := margin_le_agreement fun k hk => ⟨(hσ k hk).1.le, (hσ k hk).2.le⟩
  have hpos := margin_pos hσ
  exact ⟨hpos.trans_le (hle true), sub_pos.mp (hpos.trans_le (hle false))⟩

/-! ### Rounding -/

/-- If no variable speaks for less than half of its bit, a formula speaks for what it says of the bits, by half for
each occurrence of a variable. -/
theorem Formula.half_pow_le_agreement {a : ℕ → Bool} (hσ : ∀ k ∈ f.leaves, 0 ≤ σ k ∧ σ k ≤ 1)
    (ha : ∀ k ∈ f.leaves, 1 / 2 ≤ agreement (a k) (σ k)) :
    (1 / 2) ^ f.leaves.card ≤ agreement (f.holds a) (f.value σ) := by
  induction f with
  | var k => simpa [holds, value] using ha k (Multiset.mem_singleton_self k)
  | not f ih =>
    rw [leaves_not] at hσ ha ⊢
    rw [value, holds, agreement_not, Bool.not_not]
    exact ih hσ ha
  | binary op f g ihf ihg =>
    obtain ⟨hσf, hσg⟩ := forall_leaves_binary.mp hσ
    obtain ⟨haf, hag⟩ := forall_leaves_binary.mp ha
    rw [leaves_binary, Multiset.card_add, pow_add, value, holds]
    exact op.mul_le_agreement (value_mem_unit hσf) (value_mem_unit hσg) (by positivity) (ihf hσf haf) (ihg hσg hag)

/-- Near one, the truth value of a formula decides what it says of the bits; where this is true, it is not near zero. -/
theorem Formula.decides_of_half {a : ℕ → Bool} (hσ : ∀ k ∈ f.leaves, 0 ≤ σ k ∧ σ k ≤ 1)
    (ha : ∀ k ∈ f.leaves, 1 / 2 ≤ agreement (a k) (σ k)) :
    (1 - (1 / 2) ^ f.leaves.card < f.value σ → f.holds a = true) ∧
      (f.holds a = true → (1 / 2) ^ f.leaves.card ≤ f.value σ) := by
  have hle := half_pow_le_agreement hσ ha
  constructor
  · intro hlt
    by_contra hfalse
    rw [Bool.not_eq_true] at hfalse
    rw [hfalse, agreement_false] at hle
    linarith
  · intro htrue
    rwa [htrue] at hle

end Formulas

/-! ### Assignments that truth values are rounded to -/

/-- The variables of a formula are declared. -/
theorem Netlist.Denotes.lt_of_mem_leaves {net : Netlist} {n r : Nat} {f : Formula} (h : net.Denotes n r f) :
    ∀ k ∈ f.leaves, k < n := by
  induction h with
  | var hk _ _ =>
    intro k' hk'
    rwa [Multiset.mem_singleton.mp hk']
  | not _ _ ih => rwa [Formula.leaves_not]
  | binary _ _ _ ihf ihg => exact Formula.forall_leaves_binary.mpr ⟨ihf, ihg⟩

/-- One half to the power of the number of occurrences of variables in a clause. -/
def Expression.grain {K : Type} [ExactScalar K] (e : Expression) : K := 1 / (2 ^ (indices e.symbols).length : ℕ)

theorem Expression.grain_eq {K : Type} [ExactScalar K] (e : Expression) :
    e.grain = ((1 / 2) ^ e.formula.leaves.card : K) := by
  rw [grain, Formula.leaves_of_read (Formula.read_symbols e), Multiset.coe_card, one_div_pow]
  push_cast
  rfl

/-- Within its grain of one a truth value makes a clause true, and where the clause is true it is no less than the
grain. -/
structure Expression.DecidedBy {K : Type} [ExactScalar K] [LinearOrder K] (e : Expression) (a : ℕ → Bool) (t : K) :
    Prop where
  holds_of_near : 1 - e.grain < t → e.formula.holds a = true
  grain_le : e.formula.holds a = true → e.grain ≤ t

namespace Circuit

theorem HasFormulas.lt_of_mem_leaves {c : Circuit} {lines : List String} {fs : List Formula}
    (h : c.HasFormulas lines fs) {f : Formula} (hf : f ∈ fs) : ∀ k ∈ f.leaves, k < c.numVars := by
  have hdeclared : ∀ f ∈ fs, ∀ k ∈ f.leaves, k < c.numVars := by
    refine forall_of_forall₂ h.denoted.flip ?_
    rintro f root ⟨a, -, hd⟩
    exact hd.lt_of_mem_leaves
  exact hdeclared f hf

/-- What holds of the truth values of all raw values holds of those of the variables of a formula. -/
theorem forall_truths {K : Type} [ExactScalar K] {xs : List K} {P : K → Prop} (hxs : ∀ x ∈ xs, P (Scalar.sigmoid x))
    {f : Formula} (hf : ∀ k ∈ f.leaves, k < xs.length) : ∀ k ∈ f.leaves, P (truths xs k) := by
  intro k hk
  have hlt := hf k hk
  rw [truths, List.getD_eq_getElem?_getD, List.getElem?_eq_getElem hlt]
  exact hxs _ (List.getElem_mem hlt)

section Rounding

variable {K : Type} [LinearOrder K] [OrderedScalar K] [IsStrictOrderedRing K] {xs : List K}

/-- A truth value speaks at least by half for the bit that it is rounded to. -/
theorem half_le_agreement_rounded {k : Nat} (hk : k < xs.length) :
    1 / 2 ≤ agreement ((Solver.rounded (squash xs)).getD k false) (truths xs k) := by
  have hbit : (Solver.rounded (squash xs)).getD k false = Numeric.lt Numeric.half (truths xs k) := by
    simp [Solver.rounded, squash, truths, hk]
  rw [hbit]
  cases hlt : Numeric.lt Numeric.half (truths xs k) with
  | false =>
    rw [← Bool.not_eq_true, Numeric.lt_iff, Numeric.half_eq, not_lt] at hlt
    rw [agreement_false]
    linarith
  | true =>
    rw [Numeric.lt_iff, Numeric.half_eq] at hlt
    exact hlt.le

end Rounding

/-- A program whose lines are derived has a circuit.  At truth values in the unit interval, the truth value of a clause
decides it, within its grain, under the assignment that they are rounded to.  So if all clauses come as near to one as
that, this assignment is judged to satisfy them, in any arithmetic that is exact on zero and one. -/
theorem satisfiedBy_rounded {K : Type} [LinearOrder K] [OrderedScalar K] [IsStrictOrderedRing K] {p : Program} {n : Nat}
    (hdeclared : p.declared = n) {es : List Expression}
    (hderived : List.Forall₂ (fun line e => Expression.Derives e n line) (significant p.clauses) es) :
    ∃ c, ofProgram p = .ok c ∧ c.numVars = n ∧ ∀ xs : List K, xs.length = n →
      (∀ x ∈ xs, 0 ≤ Scalar.sigmoid x ∧ Scalar.sigmoid x ≤ 1) →
      (∀ s : Signals K, s.Blank c.net → ∃ s', c.clauseValues (.vector xs) s =
        .ok (es.map fun e => e.formula.value (truths xs)) s') ∧
      (∀ e ∈ es, e.DecidedBy (fun k => (Solver.rounded (squash xs)).getD k false) (e.formula.value (truths xs))) ∧
      ((∀ e ∈ es, 1 - e.grain < e.formula.value (truths xs)) →
        ∀ {R : Type} [Numeric R] [BooleanTables R] (u : Signals R), u.Blank c.net →
          ∃ u', c.satisfiedBy (.vector (Solver.rounded (squash xs))) u = .ok true u') := by
  obtain ⟨c, hc, rfl⟩ := ofProgram_ok hdeclared hderived
  obtain ⟨hcomplete, -⟩ := complete_of_ofProgram hc
  have hformulas := hcomplete.hasFormulas hderived
  refine ⟨c, hc, rfl, fun xs hxs hunit => ?_⟩
  have hdecided : ∀ e ∈ es,
      e.DecidedBy (fun k => (Solver.rounded (squash xs)).getD k false) (e.formula.value (truths xs)) := by
    intro e he
    have hleaves : ∀ k ∈ e.formula.leaves, k < xs.length := by
      rw [hxs]
      exact hformulas.lt_of_mem_leaves (List.mem_map_of_mem he)
    have hhalf := fun k hk => half_le_agreement_rounded (hleaves k hk)
    obtain ⟨hnear, hle⟩ := Formula.decides_of_half (forall_truths (P := fun t => 0 ≤ t ∧ t ≤ 1) hunit hleaves) hhalf
    rw [← e.grain_eq] at hnear hle
    exact ⟨hnear, hle⟩
  refine ⟨fun s hs => ?_, hdecided, fun hnear R _ _ u hu => ?_⟩
  · obtain ⟨s', hok⟩ := hcomplete.clauseValues_ok hxs hs
    rw [hformulas.map_clauseTruth_eq fun _ _ _ => rfl, List.map_map] at hok
    exact ⟨s', hok⟩
  · have hbits : (Solver.rounded (squash xs)).length = c.numVars := by
      rw [Solver.rounded, squash, List.length_map, List.length_map, hxs]
    obtain ⟨u', hok⟩ := hcomplete.satisfiedBy_ok hformulas hu hbits
    have hall : (es.map Expression.formula).all
        (fun f => f.holds fun k => (Solver.rounded (squash xs)).getD k false) = true := by
      rw [List.all_map, List.all_eq_true]
      exact fun e he => (hdecided e he).holds_of_near (hnear e he)
    rw [hall] at hok
    exact ⟨u', hok⟩

/-- At raw values `log 9` and `0` the clause `$0 v $1` has the truth value `9/10 + 1/2 - 9/20`, which is above `3/4`.  So
it holds when the first variable does, although the second one, at one half, counts as false. -/
theorem satisfiedBy_rounded_tie : ∃ (c : Circuit) (u : Signals Extended), ofProgram ⟨2, ["$0 v $1"]⟩ = .ok c ∧
    Solver.rounded (squash [Real.log 9, 0]) = [true, false] ∧
    c.satisfiedBy (.vector [true, false]) c.signals = .ok true u := by
  have hscan : Token.scan "$0 v $1" 2 =
      .ok [⟨.variable 0, 0⟩, ⟨.connective .or, 3⟩, ⟨.variable 1, 5⟩] := by decide
  have hderives : Expression.Derives (.chain (.operand (.var 0)) .or (.var 1)) 2 "$0 v $1" := ⟨_, hscan, rfl⟩
  obtain ⟨c, hc, -, hrounded⟩ :=
    satisfiedBy_rounded (K := ℝ) (p := ⟨2, ["$0 v $1"]⟩) rfl (hderives.singleton (by decide))
  have hnine : Real.sigmoid (Real.log 9) = 9 / 10 := by
    rw [Real.sigmoid_def, Real.exp_neg, Real.exp_log (by norm_num)]
    norm_num
  have hhalf : Real.sigmoid 0 = 1 / 2 := by
    rw [Real.sigmoid_zero]
    norm_num
  have hunit : ∀ x ∈ [Real.log 9, 0], 0 ≤ Scalar.sigmoid x ∧ Scalar.sigmoid x ≤ 1 :=
    fun x _ => ⟨Real.sigmoid_nonneg x, Real.sigmoid_le_one x⟩
  obtain ⟨-, -, hjudged⟩ := hrounded [Real.log 9, 0] rfl hunit
  have hbits : Solver.rounded (squash [Real.log 9, 0]) = [true, false] := by
    have hnine' : Numeric.lt Numeric.half (9 / 10 : ℝ) = true := by
      rw [Numeric.lt_iff, Numeric.half_eq]
      norm_num
    have hhalf' : Numeric.lt Numeric.half (1 / 2 : ℝ) = false := by
      rw [← Bool.not_eq_true, Numeric.lt_iff, Numeric.half_eq]
      norm_num
    simp only [Solver.rounded, squash, List.map_cons, List.map_nil, sigmoid_real, hnine, hhalf, hnine', hhalf']
  have hnear : ∀ e ∈ [Expression.chain (.operand (.var 0)) .or (.var 1)],
      1 - e.grain < e.formula.value (truths [Real.log 9, 0]) := by
    intro e he
    rw [List.mem_singleton.mp he]
    have hfirst : truths [Real.log 9, 0] 0 = 9 / 10 := hnine
    have hsecond : truths [Real.log 9, 0] 1 = 1 / 2 := hhalf
    have hgrain : ((.chain (.operand (.var 0)) .or (.var 1) : Expression).grain : ℝ) = 1 / (2 ^ 2 : ℕ) := rfl
    rw [hgrain, Expression.formula, Expression.formula, Operand.formula, Operand.formula]
    simp only [Formula.value, Connective.apply, hfirst, hsecond]
    norm_num
  rw [hbits] at hjudged
  obtain ⟨u, hok⟩ := hjudged hnear c.signals (c.pristine_signals.blank (R := Extended) c.size_signals)
  exact ⟨c, u, hc, hbits, hok⟩

end Circuit

end SoftLogic
