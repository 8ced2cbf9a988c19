import Mathlib.Algebra.BigOperators.Group.Finset.Piecewise
import Mathlib.Algebra.BigOperators.Ring.Finset
import Mathlib.Algebra.Field.Basic
import Mathlib.Tactic.Ring
import SoftLogic.Proofs.Netlist.Totality

/-!
# What pulling gathers

In a field, a pull can be followed exactly.  `Signals.Pulled` says at any moment what each node has gathered:
its baseline, and from every node that has pushed, that node's gradient times the local derivative.  A node
pushes after its consumers, so what a node has gathered when it pushes is final.  `Netlist.settles_pulled`:
in closed wiring, settling a node keeps this, and so does every pull.
-/

namespace SoftLogic

open Effect Finset

/-- A field, with any two functions as sigmoid and logarithm. -/
class ExactScalar (K : Type) extends Field K, Scalar K

variable {K : Type} [ExactScalar K] {net : Netlist} {n : Nat} {xs : Nat → K} {s s' s'' : Signals K}

namespace Netlist

/-! ### Local derivatives -/

/-- The derivatives of the value of a node with respect to its operands, slot by slot, where `val` gives the
values of the nodes. -/
def partials (net : Netlist) (val : Ref → K) (c : Ref) : List (Ref × K) :=
  match net.gate c with
  | .sigmoid a => [(a, val c * (1 - val c))]
  | .not (some a) => [(a, -1)]
  | .binary op a (some b) => [(a, op.slope (val b)), (b, op.slope (val a))]
  | .cost a => [(a, -(1 / val a))]
  | _ => []

/-- The part that the slots with node `p` have in a list of slots. -/
def portion (slots : List (Ref × K)) (p : Ref) : K := (slots.map fun e => if p = e.1 then e.2 else 0).sum

/-- The derivative of the value of a node with respect to an operand, for all slots that the operand is in. -/
def slope (net : Netlist) (val : Ref → K) (c p : Ref) : K := portion (net.partials val c) p

@[simp] theorem portion_nil (p : Ref) : portion ([] : List (Ref × K)) p = 0 := rfl

@[simp] theorem portion_cons (e : Ref × K) (slots : List (Ref × K)) (p : Ref) :
    portion (e :: slots) p = (if p = e.1 then e.2 else 0) + portion slots p := by
  simp [portion]

theorem mem_operands_of_partials {val : Ref → K} {c : Ref} {e : Ref × K} (he : e ∈ net.partials val c) :
    e.1 ∈ net.operands c := by
  unfold partials at he
  unfold operands
  match hg : net.gate c with
  | .plain | .input | .not none | .binary _ _ none => simp [hg] at he
  | .sigmoid a | .not (some a) | .cost a =>
    simp only [hg, List.mem_singleton] at he
    simp [he]
  | .binary op a (some b) =>
    simp only [hg, List.mem_cons, List.not_mem_nil, or_false] at he
    rcases he with rfl | rfl <;> simp

/-- A node has no derivative with respect to what it does not read. -/
theorem slope_eq_zero {val : Ref → K} {c p : Ref} (hp : p ∉ net.operands c) : net.slope val c p = 0 := by
  unfold slope portion
  refine List.sum_eq_zero fun y hy => ?_
  obtain ⟨e, he, rfl⟩ := List.mem_map.mp hy
  rw [if_neg]
  rintro rfl
  exact hp (mem_operands_of_partials he)

/-- A sum over all nodes, weighted by the slots of a list, is a sum over the slots. -/
theorem sum_portion_mul {slots : List (Ref × K)} {size : Nat} (h : ∀ e ∈ slots, e.1 < size) (T : Ref → K) :
    ∑ p ∈ range size, portion slots p * T p = (slots.map fun e => e.2 * T e.1).sum := by
  induction slots with
  | nil => simp
  | cons e slots ih =>
    have hmem : e.1 ∈ range size := mem_range.mpr (h e List.mem_cons_self)
    have hterm : ∀ p, (if p = e.1 then e.2 else 0) * T p = if p = e.1 then e.2 * T e.1 else 0 := by
      intro p
      split
      · next hp => rw [hp]
      · rw [zero_mul]
    simp only [portion_cons, add_mul, sum_add_distrib, hterm, sum_ite_eq', if_pos hmem, List.map_cons,
      List.sum_cons]
    rw [ih fun e' he' => h e' (List.mem_cons_of_mem e he')]

end Netlist

/-! ### Pushing -/

/-- From `s` to `s'` each node gathers `d`; signals stay right and nothing else is pushed. -/
structure Signals.Adds (net : Netlist) (n : Nat) (xs : Nat → K) (d : Ref → K) (s s' : Signals K) : Prop where
  shows : s'.Shows net n xs
  gradient : ∀ p, (s'.cell p).gradient = (s.cell p).gradient + d p
  pushed : ∀ p, (s'.cell p).pushed = (s.cell p).pushed

namespace Netlist

variable {d d' : Ref → K} {a c : Nat}

theorem adds_trans (h : s.Adds net n xs d s') (h' : s'.Adds net n xs d' s'') :
    s.Adds net n xs (fun p => d p + d' p) s'' := by
  refine ⟨h'.shows, fun p => ?_, fun p => (h'.pushed p).trans (h.pushed p)⟩
  rw [h'.gradient p, h.gradient p, add_assoc]

theorem adds_congr (h : s.Adds net n xs d s') (hd : ∀ p, d p = d' p) : s.Adds net n xs d' s' :=
  ⟨h.shows, fun p => by rw [h.gradient p, hd p], h.pushed⟩

/-- Evaluating adds nothing. -/
theorem evaluate_adds (h : net.Sound n) (hs : s.Shows net n xs) (hr : net.Readable n a) :
    ∃ s', net.evaluate a s = .ok (net.meaning n xs a) s' ∧ s.Adds net n xs (fun _ => 0) s' := by
  obtain ⟨s', hok, hs', hsame⟩ := evaluate_ok h hs hr
  exact ⟨s', hok, hs', fun p => by rw [(hsame p).1, add_zero], fun p => (hsame p).2⟩

/-- A gradient is added to any node but a cost. -/
theorem addGradient_adds (hs : s.Shows net n xs) (ha : a < net.size) (hcost : ∀ b, net.gate a ≠ .cost b)
    (x : K) : ∃ s', net.addGradient a x s = .ok () s' ∧
      s.Adds net n xs (fun p => if p = a then x else 0) s' := by
  have hcell : ∀ p, (s.update a fun c => { c with gradient := c.gradient + x }).cell p =
      if p = a then { s.cell p with gradient := (s.cell p).gradient + x } else s.cell p :=
    fun p => Signals.cell_update s a p _ (hs.size ▸ ha)
  refine ⟨s.update a fun c => { c with gradient := c.gradient + x }, ?_, hs.update a fun _ => rfl, ?_, ?_⟩
  · unfold addGradient
    cases hg : net.gate a with
    | cost b => exact absurd hg (hcost b)
    | _ => rfl
  · intro p
    rw [hcell]
    split
    · rfl
    · rw [add_zero]
  · intro p
    rw [hcell]
    split <;> rfl

/-- A node pushes its gradient, times the local derivatives, into its operands. -/
theorem pushGradient_ok (h : net.Sound n) (hs : s.Shows net n xs) (hc : net.Readable n c) (hn : n ≤ c) :
    ∃ s', net.pushGradient c s = .ok () s' ∧
      s.Adds net n xs (fun p => (s.cell c).gradient * net.slope (net.meaning n xs) c p) s' := by
  have hself : c ∉ net.operands c := fun hmem => Nat.lt_irrefl _ (h.rank_lt hmem)
  have hread := hc.operands h
  have hnode := fun a ha => hc.operand h (a := a) ha
  unfold pushGradient slope partials
  cases hc with
  | input hk => omega
  | @root a f hg ha =>
    have hmem : a ∈ net.operands c := by simp [operands, hg]
    obtain ⟨s₁, heval, h₁⟩ := evaluate_adds h hs (hread a hmem)
    obtain ⟨s₂, hadd, h₂⟩ := addGradient_adds h₁.shows (hnode a hmem).1 (hnode a hmem).2
      ((s₁.cell c).gradient * -(1 / net.meaning n xs a))
    refine ⟨s₂, ?_, adds_congr (adds_trans h₁ h₂) ?_⟩
    · simp only [hg]
      rw [bind_of_ok heval, bind_of_ok (SignalM.gradient_apply c s₁)]
      exact hadd
    · intro p
      simp only [hg, h₁.gradient c, portion_cons, portion_nil, add_zero, zero_add, mul_ite, mul_zero]
  | @formula f hf =>
    cases hf with
    | @var _ k hk hck hg =>
      have hmem : k ∈ net.operands c := by simp [operands, hg]
      obtain ⟨s₁, heval, h₁⟩ := evaluate_adds h hs (.formula (.var hk hck hg))
      obtain ⟨s₂, hadd, h₂⟩ := addGradient_adds h₁.shows (hnode k hmem).1 (hnode k hmem).2
        ((s₁.cell c).gradient * net.meaning n xs c * (1 - net.meaning n xs c))
      refine ⟨s₂, ?_, adds_congr (adds_trans h₁ h₂) ?_⟩
      · simp only [hg]
        rw [bind_of_ok heval, bind_of_ok (SignalM.gradient_apply c s₁)]
        exact hadd
      · intro p
        simp only [hg, h₁.gradient c, portion_cons, portion_nil, add_zero, zero_add, mul_ite, mul_zero,
          mul_assoc]
    | @not _ a g hg ha =>
      have hmem : a ∈ net.operands c := by simp [operands, hg]
      obtain ⟨s₂, hadd, h₂⟩ := addGradient_adds hs (hnode a hmem).1 (hnode a hmem).2 (-(s.cell c).gradient)
      refine ⟨s₂, ?_, adds_congr h₂ ?_⟩
      · simp only [hg]
        rw [bind_of_ok (SignalM.gradient_apply c s)]
        exact hadd
      · intro p
        simp only [hg, portion_cons, portion_nil, add_zero, mul_ite, mul_zero, mul_neg, mul_one]
    | @binary _ a b op f g hg ha hb =>
      have hmema : a ∈ net.operands c := by simp [operands, hg]
      have hmemb : b ∈ net.operands c := by simp [operands, hg]
      obtain ⟨s₁, hevala, h₁⟩ := evaluate_adds h hs (hread a hmema)
      obtain ⟨s₂, hevalb, h₂⟩ := evaluate_adds h h₁.shows (hread b hmemb)
      obtain ⟨s₃, hadda, h₃⟩ := addGradient_adds h₂.shows (hnode a hmema).1 (hnode a hmema).2
        ((s₂.cell c).gradient * op.slope (net.meaning n xs b))
      obtain ⟨s₄, haddb, h₄⟩ := addGradient_adds h₃.shows (hnode b hmemb).1 (hnode b hmemb).2
        ((s₃.cell c).gradient * op.slope (net.meaning n xs a))
      -- the gradient is read again for the second operand; the first one has not changed it
      have hca : c ≠ a := fun hca => hself (hca ▸ hmema)
      refine ⟨s₄, ?_, adds_congr (adds_trans (adds_trans (adds_trans h₁ h₂) h₃) h₄) ?_⟩
      · simp only [hg]
        rw [bind_of_ok hevala, bind_of_ok hevalb, bind_of_ok (SignalM.gradient_apply c s₂),
          bind_of_ok hadda, bind_of_ok (SignalM.gradient_apply c s₃)]
        exact haddb
      · intro p
        simp only [hg, h₃.gradient c, h₂.gradient c, h₁.gradient c, if_neg hca, portion_cons, portion_nil,
          add_zero, zero_add, mul_add, mul_ite, mul_zero]

end Netlist

/-! ### Pulling -/

/-- What has been gathered after some nodes have pushed, each after its consumers. -/
structure Signals.Pulled (net : Netlist) (n : Nat) (xs : Nat → K) (s : Signals K) : Prop where
  shows : s.Shows net n xs
  /-- A node pushes after its consumers. -/
  after : ∀ c d, (s.cell c).pushed = true → d ∈ net.consumers c → (s.cell d).pushed = true
  /-- A node has its baseline and what was pushed into it. -/
  gradient : ∀ p < net.size, (s.cell p).gradient = (net.gate p).baseline +
    ∑ c ∈ range net.size,
      if (s.cell c).pushed then (s.cell c).gradient * net.slope (net.meaning n xs) c p else 0

namespace Netlist

/-- A node that has pushed does not push again, and one that is about to push has gathered all it will. -/
theorem settles_pulled (h : net.Closed n) : net.Settles n (Signals.Pulled net n xs) := by
  intro r s hn hr hs hopen hall
  have hself : r ∉ net.operands r := fun hmem => Nat.lt_irrefl _ (h.sound.rank_lt hmem)
  have hcell : ∀ q, (s.update r fun c => { c with pushed := true }).cell q =
      if q = r then { s.cell q with pushed := true } else s.cell q :=
    fun q => Signals.cell_update s r q _ (hs.shows.size ▸ hr)
  have hshows : (s.update r fun c => { c with pushed := true }).Shows net n xs :=
    hs.shows.update r fun _ => rfl
  obtain ⟨s', hpush, hadds⟩ := pushGradient_ok h.sound hshows (h.readable hr) hn
  have hgradient : ∀ q, (s'.cell q).gradient =
      (s.cell q).gradient + (s.cell r).gradient * net.slope (net.meaning n xs) r q := by
    intro q
    rw [hadds.gradient q, hcell, hcell, if_pos rfl]
    split <;> rfl
  have hpushed : ∀ q, (s'.cell q).pushed = ((s.cell q).pushed || q == r) := by
    intro q
    rw [hadds.pushed q, hcell]
    split
    · next hq => simp [hq]
    · next hq => simp [hq]
  refine ⟨s', (bind_of_ok (SignalM.markPushed_apply r s) _).trans hpush, ⟨hadds.shows, ?_, ?_⟩, hpushed⟩
  · intro c d hc hd
    rw [hpushed] at hc ⊢
    by_cases hcr : c = r
    · rw [hall d (hcr ▸ hd), Bool.true_or]
    · have hc' : (s.cell c).pushed = true := by simpa [hcr] using hc
      rw [hs.after c d hc' hd, Bool.true_or]
  · -- what the others have pushed is unchanged, since `r` pushes into nodes that have not pushed
    intro p hp
    have hterm : ∀ c,
        (if (s'.cell c).pushed then (s'.cell c).gradient * net.slope (net.meaning n xs) c p else 0) =
        (if (s.cell c).pushed then (s.cell c).gradient * net.slope (net.meaning n xs) c p else 0) +
          if c = r then (s.cell r).gradient * net.slope (net.meaning n xs) r p else 0 := by
      intro c
      rw [hpushed, hgradient]
      by_cases hcr : c = r
      · subst hcr
        simp [hopen, slope_eq_zero hself]
      · by_cases hc : (s.cell c).pushed = true
        · have hnot : c ∉ net.operands r := by
            intro hmem
            have := hs.after c r hc (h.sound.mem_operands_iff.mp hmem)
            rw [hopen] at this
            cases this
          simp [hc, hcr, slope_eq_zero hnot]
        · simp [hc, hcr]
    rw [hgradient, hs.gradient p hp, sum_congr rfl fun c _ => hterm c, sum_add_distrib, sum_ite_eq',
      if_pos (mem_range.mpr hr), add_assoc]

end Netlist

end SoftLogic
