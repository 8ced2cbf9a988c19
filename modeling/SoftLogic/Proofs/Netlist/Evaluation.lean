import SoftLogic.Proofs.Netlist.Pristine

/-!
# What evaluating gives

In sound wiring every node has a rank above those of its operands, so a walk through operands comes to an end.
`Netlist.evaluate_ok`: where the signals that are known are right, evaluating a node gives the value of its
formula, keeps the known signals right and leaves the gradients alone.  This holds for any `Scalar`, as the
value of a formula is computed with the same operations.
-/

namespace SoftLogic

open Effect

/-- The number of variables, negations and connectives. -/
def Formula.size : Formula → Nat
  | .var _ => 1
  | .not f => f.size + 1
  | .binary _ f g => f.size + g.size + 1

theorem Formula.size_pos (f : Formula) : 0 < f.size := by
  cases f <;> simp [size]

namespace Netlist

/-! ### Ranks -/

open Classical in
/-- The formula that a node stands for, if there is one. -/
noncomputable def formula? (net : Netlist) (n : Nat) (r : Ref) : Option Formula :=
  if h : ∃ f, net.Denotes n r f then some h.choose else none

/-- The size of the formula that a node stands for. -/
noncomputable def weight (net : Netlist) (n : Nat) (r : Ref) : Nat :=
  ((net.formula? n r).map Formula.size).getD 0

/-- A measure that grows from a node to those that it feeds. -/
noncomputable def rank (net : Netlist) (n : Nat) (r : Ref) : Nat :=
  match net.gate r with
  | .cost a | .binary _ a none => net.weight n a + 1
  | _ => net.weight n r

section Rank

variable {net : Netlist} {n : Nat} {r a d : Nat} {f : Formula}

theorem formula?_of_denotes (h : net.Denotes n r f) : net.formula? n r = some f := by
  have hex : ∃ f, net.Denotes n r f := ⟨f, h⟩
  unfold formula?
  rw [dif_pos hex, hex.choose_spec.unique h]

theorem Sound.formula?_input (h : net.Sound n) (hr : r < n) : net.formula? n r = none := by
  unfold formula?
  rw [dif_neg]
  rintro ⟨f, hf⟩
  exact hf.gate_ne_input (h.input r hr)

theorem weight_of_denotes (h : net.Denotes n r f) : net.weight n r = f.size := by
  rw [weight, formula?_of_denotes h]
  rfl

theorem rank_of_denotes (h : net.Denotes n r f) : net.rank n r = f.size := by
  rw [← weight_of_denotes h]
  unfold rank
  cases h with
  | var _ _ hg => simp only [hg]
  | not hg _ => simp only [hg]
  | binary hg _ _ => simp only [hg]

theorem Sound.rank_input (h : net.Sound n) (hr : r < n) : net.rank n r = 0 := by
  unfold rank
  rw [h.input r hr]
  simp only [weight, h.formula?_input hr]
  rfl

theorem rank_of_root {a : Ref} (hg : net.gate r = .cost a) (ha : net.Denotes n a f) :
    net.rank n r = f.size + 1 := by
  unfold rank
  rw [hg]
  simp only [weight_of_denotes ha]

theorem rank_of_waiting {op : Connective} {a : Ref} (hg : net.gate r = .binary op a none)
    (ha : net.Denotes n a f) : net.rank n r = f.size + 1 := by
  unfold rank
  rw [hg]
  simp only [weight_of_denotes ha]

/-- The operands of a finished gate rank below it. -/
theorem Sound.rank_lt_of_denotes (h : net.Sound n) (hf : net.Denotes n r f) (hd : d ∈ net.operands r) :
    net.rank n d < f.size := by
  unfold operands at hd
  cases hf with
  | @var _ k hk _ hg =>
    rw [hg] at hd
    obtain rfl : d = k := List.mem_singleton.mp hd
    rw [h.rank_input hk]
    exact Formula.size_pos _
  | @not _ a g hg ha =>
    rw [hg] at hd
    obtain rfl : d = a := List.mem_singleton.mp hd
    rw [rank_of_denotes ha]
    exact Nat.lt_succ_self _
  | @binary _ a b op f g hg ha hb =>
    rw [hg] at hd
    rcases List.mem_cons.mp hd with rfl | hd
    · rw [rank_of_denotes ha]
      simp only [Formula.size]
      omega
    · obtain rfl : d = b := List.mem_singleton.mp hd
      rw [rank_of_denotes hb]
      simp only [Formula.size]
      omega

/-- The operands of a node rank below it. -/
theorem Sound.rank_lt (h : net.Sound n) (hd : d ∈ net.operands r) : net.rank n d < net.rank n r := by
  have hlt : r < net.size := lt_size_of_mem_operands hd
  have hr : n ≤ r := by
    by_contra hrn
    simp [operands, h.input r (Nat.lt_of_not_le hrn)] at hd
  cases h.stage_of_le hr hlt with
  | vacant hg _ => simp [operands, hg] at hd
  | @waiting op a f hg ha _ =>
    rw [operands, hg] at hd
    obtain rfl : d = a := List.mem_singleton.mp hd
    rw [rank_of_waiting hg ha, rank_of_denotes ha]
    exact Nat.lt_succ_self _
  | finished hf =>
    rw [rank_of_denotes hf]
    exact h.rank_lt_of_denotes hf hd
  | @root a f hg ha _ =>
    rw [operands, hg] at hd
    obtain rfl : d = a := List.mem_singleton.mp hd
    rw [rank_of_root hg ha, rank_of_denotes ha]
    exact Nat.lt_succ_self _

end Rank

/-! ### Values -/

variable {R : Type} [Scalar R]

/-- The value of the formula that a node stands for. -/
noncomputable def truthOf (net : Netlist) (n : Nat) (xs : Nat → R) (r : Ref) : R :=
  ((net.formula? n r).map (Formula.value fun k => Scalar.sigmoid (xs k))).getD 0

/-- What a node should carry when the inputs hold `xs`. -/
noncomputable def meaning (net : Netlist) (n : Nat) (xs : Nat → R) (r : Ref) : R :=
  match net.gate r with
  | .input => xs r
  | .cost a => -Scalar.log (net.truthOf n xs a)
  | _ => net.truthOf n xs r

/-- The node can be evaluated: it is an input, stands for a formula, or is the root of a clause. -/
inductive Readable (net : Netlist) (n : Nat) (r : Nat) : Prop
  | input : r < n → Readable net n r
  | formula {f : Formula} : net.Denotes n r f → Readable net n r
  | root {a : Ref} {f : Formula} : net.gate r = .cost a → net.Denotes n a f → Readable net n r

end Netlist

/-- The inputs hold `xs`, and what else is known is right. -/
structure Signals.Shows {R : Type} [Scalar R] (net : Netlist) (n : Nat) (xs : Nat → R) (s : Signals R) :
    Prop where
  size : s.cells.size = net.size
  held : ∀ k < n, (s.cell k).signal = some (xs k)
  known : ∀ r, net.Readable n r → ∀ y, (s.cell r).signal = some y → y = net.meaning n xs r

theorem Signals.signal_update {R : Type} [Scalar R] (s : Signals R) (r q : Ref) {f : Cell R → Cell R}
    (hf : ∀ c, (f c).signal = c.signal) : ((s.update r f).cell q).signal = (s.cell q).signal := by
  by_cases hq : q = r
  · subst hq
    simp only [Signals.cell, Signals.update, Array.getD_eq_getD_getElem?, Array.getElem?_modify]
    cases s.cells[q]? with
    | none => rfl
    | some c => simp [hf]
  · rw [Signals.cell_update_of_ne s f hq]

/-- What leaves the signals alone leaves them right. -/
theorem Signals.Shows.update {R : Type} [Scalar R] {net : Netlist} {n : Nat} {xs : Nat → R} {s : Signals R}
    (hs : s.Shows net n xs) (r : Ref) {f : Cell R → Cell R} (hf : ∀ c, (f c).signal = c.signal) :
    (s.update r f).Shows net n xs := by
  refine ⟨by rw [Signals.size_update, hs.size], ?_, ?_⟩
  · intro k hk
    rw [Signals.signal_update s r k hf, hs.held k hk]
  · intro q hq y hy
    rw [Signals.signal_update s r q hf] at hy
    exact hs.known q hq y hy

/-- `s'` has the gradients of `s`. -/
def Signals.SameGradients {R : Type} [Scalar R] (s s' : Signals R) : Prop :=
  ∀ r, (s'.cell r).gradient = (s.cell r).gradient ∧ (s'.cell r).pushed = (s.cell r).pushed

theorem Signals.SameGradients.refl {R : Type} [Scalar R] (s : Signals R) : s.SameGradients s :=
  fun _ => ⟨rfl, rfl⟩

namespace Netlist

section Evaluate

variable {R : Type} [Scalar R] {net : Netlist} {n : Nat} {xs : Nat → R} {s s₀ : Signals R} {r : Nat}
  {f : Formula}

theorem meaning_input (h : net.Sound n) (hr : r < n) : net.meaning n xs r = xs r := by
  unfold meaning
  rw [h.input r hr]

theorem meaning_of_denotes (h : net.Denotes n r f) :
    net.meaning n xs r = f.value fun k => Scalar.sigmoid (xs k) := by
  have htruth : net.truthOf n xs r = f.value fun k => Scalar.sigmoid (xs k) := by
    rw [truthOf, formula?_of_denotes h]
    rfl
  rw [← htruth]
  unfold meaning
  cases h with
  | var _ _ hg => simp only [hg]
  | not hg _ => simp only [hg]
  | binary hg _ _ => simp only [hg]

theorem meaning_of_root {a : Ref} (hg : net.gate r = .cost a) (ha : net.Denotes n a f) :
    net.meaning n xs r = -Scalar.log (net.meaning n xs a) := by
  have htruth : net.truthOf n xs a = net.meaning n xs a := by
    rw [meaning_of_denotes ha, truthOf, formula?_of_denotes ha]
    rfl
  rw [← htruth]
  unfold meaning
  rw [hg]

theorem Readable.lt_size (hr : net.Readable n r) (h : net.Sound n) : r < net.size := by
  have hle := h.le_size
  cases hr with
  | input hk => omega
  | formula hd => exact hd.lt_size
  | root hg _ => exact lt_size_of_gate (by rw [hg]; exact Gate.noConfusion)

theorem Readable.isOpen_eq_false (hr : net.Readable n r) (h : net.Sound n) :
    (net.gate r).isOpen = false := by
  cases hr with
  | input hk => rw [h.input r hk]; rfl
  | formula hd => exact hd.isOpen_eq_false
  | root hg _ => rw [hg]; rfl

/-- The operands of a node that can be evaluated can be evaluated, and they are all there. -/
theorem Readable.operands (hr : net.Readable n r) (h : net.Sound n) :
    ∀ d ∈ net.operands r, net.Readable n d := by
  intro d hd
  unfold Netlist.operands at hd
  cases hr with
  | input hk => simp [h.input r hk] at hd
  | formula hf =>
    cases hf with
    | @var _ k hk _ hg =>
      rw [hg] at hd
      obtain rfl : d = k := List.mem_singleton.mp hd
      exact .input hk
    | @not _ a g hg ha =>
      rw [hg] at hd
      obtain rfl : d = a := List.mem_singleton.mp hd
      exact .formula ha
    | @binary _ a b op f g hg ha hb =>
      rw [hg] at hd
      rcases List.mem_cons.mp hd with rfl | hd
      · exact .formula ha
      · obtain rfl : d = b := List.mem_singleton.mp hd
        exact .formula hb
  | @root a f hg ha =>
    rw [hg] at hd
    obtain rfl : d = a := List.mem_singleton.mp hd
    exact .formula ha

/-- Where all operands are known, the value of the node is computed. -/
theorem compute_ok (h : net.Sound n) (hs : s.Shows net n xs) (hr : net.Readable n r)
    (hopen : (s.cell r).signal = none) (hknown : ∀ d ∈ net.operands r, (s.cell d).signal.isSome = true) :
    net.compute r s = .ok (net.meaning n xs r) s := by
  have hoperand : ∀ d ∈ net.operands r, SignalM.known d s = .ok (net.meaning n xs d) s := by
    intro d hd
    obtain ⟨y, hy⟩ := Option.isSome_iff_exists.mp (hknown d hd)
    rw [SignalM.known_of_some hy, hs.known d (hr.operands h d hd) y hy]
  cases hr with
  | input hk =>
    rw [hs.held r hk] at hopen
    cases hopen
  | formula hf =>
    rw [meaning_of_denotes hf]
    cases hf with
    | @var _ k hk _ hg =>
      have hkk := hoperand k (by simp [operands, hg])
      unfold compute
      rw [hg]
      simp only
      rw [bind_of_ok hkk, meaning_input h hk]
      rfl
    | @not _ a g hg ha =>
      have haa := hoperand a (by simp [operands, hg])
      unfold compute
      rw [hg]
      simp only
      rw [bind_of_ok haa, meaning_of_denotes ha]
      rfl
    | @binary _ a b op f g hg ha hb =>
      have haa := hoperand a (by simp [operands, hg])
      have hbb := hoperand b (by simp [operands, hg])
      unfold compute
      rw [hg]
      simp only
      rw [bind_of_ok haa, bind_of_ok hbb, meaning_of_denotes ha, meaning_of_denotes hb]
      rfl
  | @root a f hg ha =>
    have haa := hoperand a (by simp [operands, hg])
    unfold compute
    rw [hg, meaning_of_root hg ha]
    simp only
    rw [bind_of_ok haa]
    rfl

/-- What storing the value of a node keeps, wherever its operands are known and it is not. -/
structure Stores (net : Netlist) (n : Nat) (I : Signals R → Prop) : Prop where
  size : ∀ s, I s → s.cells.size = net.size
  step : ∀ r s, net.Readable n r → I s → (s.cell r).signal = none →
    (∀ d ∈ net.operands r, (s.cell d).signal.isSome = true) →
    ∃ x, net.compute r s = .ok x s ∧ I (s.update r fun c => { c with signal := some x })

/-- The walk that evaluates goes down in rank. -/
theorem Stores.descends {I : Signals R → Prop} (hI : net.Stores n I) (h : net.Sound n) :
    net.evaluation.Descends I (net.Readable n) (net.rank n) net.size := by
  refine ⟨fun r hr => hr.lt_size h, fun r hr => ⟨_, rfl, fun d hd => ⟨hr.operands h d hd, h.rank_lt hd⟩⟩, ?_⟩
  intro r ds s hr hds hs hopen hall
  cases hds
  have hnone : (s.cell r).signal = none := by simpa [evaluation] using hopen
  have hlt : r < s.cells.size := hI.size s hs ▸ hr.lt_size h
  obtain ⟨x, hcompute, hs'⟩ := hI.step r s hr hs hnone hall
  refine ⟨_, bind_of_ok hcompute _, hs', fun q => ?_⟩
  show ((s.update r _).cell q).signal.isSome = ((s.cell q).signal.isSome || q == r)
  rw [Signals.cell_update s r q _ hlt]
  split
  · next hqr => simp [hqr]
  · next hqr => simp [hqr]

/-- Evaluating a node keeps what storing keeps, and nothing that was known is forgotten. -/
theorem Stores.evaluate {I : Signals R → Prop} (hI : net.Stores n I) (h : net.Sound n) (hs : I s)
    (hr : net.Readable n r) :
    ∃ x s', net.evaluate r s = .ok x s' ∧ I s' ∧ (s'.cell r).signal = some x ∧
      ∀ q, (s.cell q).signal.isSome = true → (s'.cell q).signal.isSome = true := by
  obtain ⟨s', hrun, hs', hsettled, hmono⟩ := (hI.descends h).run_ok hr hs
  obtain ⟨x, hx⟩ := Option.isSome_iff_exists.mp hsettled
  refine ⟨x, s', ?_, hs', hx, hmono⟩
  unfold Netlist.evaluate
  rw [bind_of_ok hrun, SignalM.known_of_some hx]

/-- What storing keeps on two counts, it keeps on both at once. -/
theorem Stores.and {I J : Signals R → Prop} (hI : net.Stores n I) (hJ : net.Stores n J) :
    net.Stores n fun s => I s ∧ J s := by
  refine ⟨fun s hs => hI.size s hs.1, fun r s hr hs hnone hall => ?_⟩
  obtain ⟨x, hx, hxI⟩ := hI.step r s hr hs.1 hnone hall
  obtain ⟨y, hy, hyJ⟩ := hJ.step r s hr hs.2 hnone hall
  cases hx.symm.trans hy
  exact ⟨x, hx, hxI, hyJ⟩

/-- Storing the right value keeps the signals right and leaves the gradients alone. -/
theorem stores_shows (h : net.Sound n) :
    net.Stores n fun s => s.Shows net n xs ∧ s₀.SameGradients s := by
  refine ⟨fun s hs => hs.1.size, ?_⟩
  rintro r s hr ⟨hs, hsame⟩ hnone hall
  have hlt : r < s.cells.size := hs.size ▸ hr.lt_size h
  have hcell : ∀ q, (s.update r fun c => { c with signal := some (net.meaning n xs r) }).cell q =
      if q = r then { s.cell q with signal := some (net.meaning n xs r) } else s.cell q :=
    fun q => Signals.cell_update s r q _ hlt
  refine ⟨_, compute_ok h hs hr hnone hall, ⟨?_, ?_, ?_⟩, ?_⟩
  · rw [Signals.size_update, hs.size]
  · intro k hk
    rw [hcell]
    split
    · next hkr => rw [← hkr, meaning_input h hk]
    · exact hs.held k hk
  · intro q hq y hy
    rw [hcell] at hy
    split at hy
    · next hqr =>
      cases hy
      rw [hqr]
    · exact hs.known q hq y hy
  · intro q
    rw [hcell]
    split <;> exact hsame q

/-- Evaluating a node gives its value and leaves the gradients alone. -/
theorem evaluate_ok (h : net.Sound n) (hs : s.Shows net n xs) (hr : net.Readable n r) :
    ∃ s', net.evaluate r s = .ok (net.meaning n xs r) s' ∧ s'.Shows net n xs ∧ s.SameGradients s' := by
  obtain ⟨x, s', hok, ⟨hs', hsame⟩, hx, -⟩ := (stores_shows h).evaluate h ⟨hs, .refl s⟩ hr
  exact ⟨s', by rw [hok, hs'.known r hr x hx], hs', hsame⟩

end Evaluate

end Netlist

end SoftLogic
