import Mathlib.Algebra.MvPolynomial.PDeriv
import Mathlib.Tactic.LinearCombination
import SoftLogic.Proofs.Netlist.Gradient

/-!
# Gradients are derivatives

A formula is a polynomial in the truth values of its variables.  `Netlist.tangent` is the derivative of what a
node carries with respect to one of them.  Tangents go from operands to consumers by the chain rule, gradients
the other way, and the two are adjoint: `Closed.gradient_sigmoid` compares the sums of gradient times tangent
on both sides, and what is left is the gradient of the sigmoid.  No order of pulling enters the argument, only
that a node which depends on the sigmoid has pushed.
-/

namespace SoftLogic

open Finset

variable {K : Type} [ExactScalar K]

/-- The polynomial in the truth values of the variables that a formula denotes. -/
noncomputable def Formula.polynomial : Formula → MvPolynomial ℕ K
  | .var k => .X k
  | .not f => 1 - f.polynomial
  | .binary .and f g => f.polynomial * g.polynomial
  | .binary .or f g => f.polynomial + g.polynomial - f.polynomial * g.polynomial

theorem Formula.eval_polynomial (σ : ℕ → K) (f : Formula) :
    MvPolynomial.eval σ f.polynomial = f.value σ := by
  induction f with
  | var k => simp [polynomial, value]
  | not f ih => simp [polynomial, value, ih]
  | binary op f g ihf ihg => cases op <;> simp [polynomial, value, Connective.apply, ihf, ihg]

/-- The formal derivative of a formula by the truth value of a variable, evaluated. -/
noncomputable def Formula.derivative (f : Formula) (i : ℕ) (σ : ℕ → K) : K :=
  MvPolynomial.eval σ (MvPolynomial.pderiv i f.polynomial)

namespace Formula

variable (σ : ℕ → K) (i : ℕ)

theorem derivative_var (k : ℕ) : (var k).derivative i σ = if k = i then 1 else 0 := by
  unfold derivative polynomial
  rw [MvPolynomial.pderiv_X]
  by_cases h : k = i
  · subst h
    simp
  · simp [h]

theorem derivative_not (f : Formula) : (not f).derivative i σ = -1 * f.derivative i σ := by
  unfold derivative
  simp [polynomial]

theorem derivative_binary (op : Connective) (f g : Formula) : (binary op f g).derivative i σ =
    op.slope (g.value σ) * f.derivative i σ + op.slope (f.value σ) * g.derivative i σ := by
  unfold derivative
  cases op
  · simp only [polynomial, MvPolynomial.pderiv_mul, map_add, map_mul, eval_polynomial, Connective.slope]
    ring
  · simp only [polynomial, MvPolynomial.pderiv_mul, map_add, map_sub, map_mul, eval_polynomial,
      Connective.slope]
    ring

end Formula

namespace Netlist

/-! ### Tangents -/

/-- The derivative, by the truth value of variable `i`, of the formula that a node stands for. -/
noncomputable def flow (net : Netlist) (n : Nat) (xs : Nat → K) (i : Nat) (r : Ref) : K :=
  ((net.formula? n r).map fun f => f.derivative i fun k => Scalar.sigmoid (xs k)).getD 0

/-- The derivative, by the truth value of variable `i`, of what a node carries. -/
noncomputable def tangent (net : Netlist) (n : Nat) (xs : Nat → K) (i : Nat) (r : Ref) : K :=
  match net.gate r with
  | .cost a => -(1 / net.meaning n xs a) * net.flow n xs i a
  | _ => net.flow n xs i r

variable {net : Netlist} {n : Nat} {xs : Nat → K} {s : Signals K} {i r c : Nat} {f : Formula}

theorem flow_of_denotes (h : net.Denotes n r f) :
    net.flow n xs i r = f.derivative i fun k => Scalar.sigmoid (xs k) := by
  rw [flow, formula?_of_denotes h]
  rfl

theorem tangent_of_denotes (h : net.Denotes n r f) :
    net.tangent n xs i r = f.derivative i fun k => Scalar.sigmoid (xs k) := by
  rw [← flow_of_denotes h]
  unfold tangent
  cases h with
  | var _ _ hg => simp only [hg]
  | not hg _ => simp only [hg]
  | binary hg _ _ => simp only [hg]

theorem tangent_of_root {a : Ref} (hg : net.gate r = .cost a) (ha : net.Denotes n a f) :
    net.tangent n xs i r = -(1 / net.meaning n xs a) * net.tangent n xs i a := by
  rw [tangent_of_denotes ha, ← flow_of_denotes ha]
  unfold tangent
  rw [hg]

theorem tangent_input (h : net.Sound n) (hr : r < n) : net.tangent n xs i r = 0 := by
  unfold tangent
  rw [h.input r hr]
  simp only [flow, h.formula?_input hr]
  rfl

/-- The chain rule at a node: the sigmoid of the variable is where the derivative comes in. -/
theorem sum_partials_tangent (h : net.Closed n) (hi : i < n) (hn : n ≤ c) (hc : c < net.size) :
    ((net.partials (net.meaning n xs) c).map fun e => e.2 * net.tangent n xs i e.1).sum =
      net.tangent n xs i c - if c = Circuit.sigmoidOf n i then 1 else 0 := by
  have hsigmoid : ∀ {gate : Gate}, net.gate c = gate → (∀ k, gate ≠ .sigmoid k) →
      c ≠ Circuit.sigmoidOf n i := by
    rintro gate hg hne rfl
    exact hne i (hg.symm.trans (h.sound.sigmoid i hi))
  unfold partials
  cases h.readable hc with
  | input hk => omega
  | @root a f hg ha =>
    rw [if_neg (hsigmoid hg (by simp)), tangent_of_root hg ha, hg]
    simp
  | @formula f hf =>
    rw [tangent_of_denotes hf]
    cases hf with
    | @var _ k hk hck hg =>
      have hiff : c = Circuit.sigmoidOf n i ↔ k = i := by
        rw [hck]
        unfold Circuit.sigmoidOf
        omega
      rw [Formula.derivative_var, hg]
      simp [tangent_input h.sound hk, hiff]
    | @not _ a g hg ha =>
      rw [if_neg (hsigmoid hg (by simp)), Formula.derivative_not, ← tangent_of_denotes ha, hg]
      simp
    | @binary _ a b op f g hg ha hb =>
      rw [if_neg (hsigmoid hg (by simp)), Formula.derivative_binary, ← tangent_of_denotes ha,
        ← tangent_of_denotes hb, ← meaning_of_denotes ha, ← meaning_of_denotes hb, hg]
      simp

theorem sum_slope_tangent (h : net.Closed n) (hi : i < n) (hn : n ≤ c) (hc : c < net.size) :
    ∑ p ∈ range net.size, net.slope (net.meaning n xs) c p * net.tangent n xs i p =
      net.tangent n xs i c - if c = Circuit.sigmoidOf n i then 1 else 0 := by
  unfold slope
  rw [sum_portion_mul (fun e he => ?_), sum_partials_tangent h hi hn hc]
  exact ((h.readable hc).operand h.sound (mem_operands_of_partials he)).1

/-- A node that depends on a sigmoid that has pushed has pushed as well. -/
theorem pushed_of_tangent_ne_zero (h : net.Closed n) (hs : s.Pulled net n xs) (hi : i < n)
    (hpushed : (s.cell (Circuit.sigmoidOf n i)).pushed = true) (hr : r < net.size)
    (hne : net.tangent n xs i r ≠ 0) : (s.cell r).pushed = true := by
  induction hrank : net.rank n r using Nat.strongRecOn generalizing r with
  | _ k ih =>
    subst hrank
    have hn : n ≤ r := by
      by_contra hlt
      exact hne (tangent_input h.sound (Nat.lt_of_not_le hlt))
    by_cases hri : r = Circuit.sigmoidOf n i
    · rw [hri, hpushed]
    · -- by the chain rule the node depends on the sigmoid through one of its operands
      have hsum : ∑ p ∈ range net.size, net.slope (net.meaning n xs) r p * net.tangent n xs i p =
          net.tangent n xs i r - if r = Circuit.sigmoidOf n i then 1 else 0 :=
        sum_slope_tangent h hi hn hr
      rw [if_neg hri, sub_zero] at hsum
      rw [← hsum] at hne
      obtain ⟨p, hp, hterm⟩ := exists_ne_zero_of_sum_ne_zero hne
      have hmem : p ∈ net.operands r := by
        by_contra hmem
        exact hterm (by rw [slope_eq_zero hmem, zero_mul])
      have hpp := ih _ (h.sound.rank_lt hmem) (mem_range.mp hp) (right_ne_zero_of_mul hterm) rfl
      exact hs.after p r hpp (h.sound.mem_operands_iff.mp hmem)

/-! ### Adjoints -/

/-- What the sigmoid of a variable has gathered when it has pushed: the derivative of the sum of the costs. -/
theorem gradient_sigmoid (h : net.Closed n) (hs : s.Pulled net n xs) (hi : i < n)
    (hpushed : (s.cell (Circuit.sigmoidOf n i)).pushed = true) :
    (s.cell (Circuit.sigmoidOf n i)).gradient =
      ∑ p ∈ range net.size, (net.gate p).baseline * net.tangent n xs i p := by
  let G : Nat → K := fun c => if (s.cell c).pushed then (s.cell c).gradient else 0
  let T : Nat → K := net.tangent n xs i
  let w : Nat → Nat → K := net.slope (net.meaning n xs)
  have hT : ∀ p < net.size, (s.cell p).pushed = false → T p = 0 := by
    intro p hp hfalse
    by_contra hne
    rw [pushed_of_tangent_ne_zero h hs hi hpushed hp hne] at hfalse
    cases hfalse
  -- both sides of the gathering, summed against the tangents
  have hleft : ∀ p ∈ range net.size, G p * T p =
      (net.gate p).baseline * T p + ∑ c ∈ range net.size, G c * (w c p * T p) := by
    intro p hp
    have hlt := mem_range.mp hp
    cases hpp : (s.cell p).pushed with
    | false => simp [hT p hlt hpp]
    | true =>
      have hG : G p = (s.cell p).gradient := if_pos hpp
      rw [hG, hs.gradient p hlt, add_mul, sum_mul]
      refine congrArg _ (sum_congr rfl fun c _ => ?_)
      simp only [G, w]
      split
      · ring
      · simp
  have hright : ∀ c ∈ range net.size, ∑ p ∈ range net.size, G c * (w c p * T p) =
      G c * T c - if c = Circuit.sigmoidOf n i then G c else 0 := by
    intro c hc
    rw [← mul_sum]
    by_cases hn : n ≤ c
    · rw [sum_slope_tangent h hi hn (mem_range.mp hc), mul_sub, mul_ite, mul_one, mul_zero]
    · have hc : c < n := Nat.lt_of_not_le hn
      have hne : c ≠ Circuit.sigmoidOf n i := by
        unfold Circuit.sigmoidOf
        omega
      have hzero : ∀ p, w c p = 0 := fun p => slope_eq_zero (by simp [operands, h.sound.input c hc])
      rw [if_neg hne, show T c = 0 from tangent_input h.sound hc]
      simp [hzero]
  have hmem : Circuit.sigmoidOf n i ∈ range net.size := by
    have hle := h.sound.le_size
    rw [mem_range]
    unfold Circuit.sigmoidOf
    omega
  have hsum : ∑ p ∈ range net.size, G p * T p = ∑ p ∈ range net.size, (net.gate p).baseline * T p +
      ∑ p ∈ range net.size, ∑ c ∈ range net.size, G c * (w c p * T p) := by
    rw [sum_congr rfl hleft, sum_add_distrib]
  have hswap : ∑ p ∈ range net.size, ∑ c ∈ range net.size, G c * (w c p * T p) =
      ∑ c ∈ range net.size, G c * T c - G (Circuit.sigmoidOf n i) := by
    rw [sum_comm, sum_congr rfl hright, sum_sub_distrib, sum_ite_eq', if_pos hmem]
  have hG : G (Circuit.sigmoidOf n i) = (s.cell (Circuit.sigmoidOf n i)).gradient := if_pos hpushed
  rw [← hG]
  linear_combination hsum + hswap

/-- What an input has gathered when its sigmoid has pushed. -/
theorem gradient_input (h : net.Closed n) (hs : s.Pulled net n xs) (hi : i < n)
    (hpushed : (s.cell (Circuit.sigmoidOf n i)).pushed = true) :
    (s.cell i).gradient = Scalar.sigmoid (xs i) * (1 - Scalar.sigmoid (xs i)) *
      ∑ p ∈ range net.size, (net.gate p).baseline * net.tangent n xs i p := by
  have hle := h.sound.le_size
  have hlt : Circuit.sigmoidOf n i < net.size := by
    show n + i < net.size
    omega
  have hd := h.sound.denotes_sigmoid hi
  -- the sigmoid is all that reads the input
  have hterm : ∀ c ∈ range net.size,
      (if (s.cell c).pushed then (s.cell c).gradient * net.slope (net.meaning n xs) c i else 0) =
      if c = Circuit.sigmoidOf n i then (s.cell c).gradient *
        (Scalar.sigmoid (xs i) * (1 - Scalar.sigmoid (xs i))) else 0 := by
    intro c hc
    by_cases hci : c = Circuit.sigmoidOf n i
    · rw [hci, if_pos hpushed, if_pos rfl]
      unfold slope partials
      rw [h.sound.sigmoid i hi, meaning_of_denotes hd]
      simp [Formula.value]
    · rw [if_neg hci, slope_eq_zero (fun hmem => hci ?_), mul_zero, ite_self]
      exact h.reader_of_input hi hmem
  rw [hs.gradient i (by omega), sum_congr rfl hterm, sum_ite_eq', if_pos (mem_range.mpr hlt),
    gradient_sigmoid h hs hi hpushed, h.sound.input i hi]
  show 0 + _ = _
  ring

end Netlist

end SoftLogic
