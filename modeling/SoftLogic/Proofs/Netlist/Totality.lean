import Mathlib.Order.Lattice.Nat
import SoftLogic.Proofs.Netlist.Evaluation

/-!
# Where propagation cannot fail

In closed wiring nothing waits for an operand and every node but the roots feeds another one.  Then a pull walks
up in rank, as evaluating walks down, and both come to an end wherever the inputs hold values, whatever other
signals are known and whether these are right or not: `Netlist.evaluate_returns`,
`Netlist.Closed.settles_grounded`.  What a pull keeps follows from what settling one node keeps
(`Netlist.Settles`, `Netlist.Closed.pull_ok`).
-/

namespace SoftLogic

open Effect Finset

/-- Nothing waits, and every node but the roots feeds another one. -/
structure Netlist.Closed (net : Netlist) (n : Nat) : Prop where
  sound : net.Sound n
  closed : net.ClosedFrom (2 * n)

/-- A cell for each node, and a value in each input. -/
structure Signals.Grounded {R : Type} [Scalar R] (net : Netlist) (n : Nat) (s : Signals R) : Prop where
  size : s.cells.size = net.size
  held : ∀ k < n, (s.cell k).signal.isSome = true

/-- The signals of `s'` are grounded, and the nodes that have pushed are those of `s`. -/
structure Signals.Follows {R : Type} [Scalar R] (net : Netlist) (n : Nat) (s s' : Signals R) : Prop where
  grounded : s'.Grounded net n
  pushed : ∀ q, (s'.cell q).pushed = (s.cell q).pushed

namespace Netlist

variable {R : Type} [Scalar R] {net : Netlist} {n : Nat} {r a c : Nat} {s s' s'' : Signals R}
  {I : Signals R → Prop}

/-! ### Closed wiring -/

theorem Readable.operand (hr : net.Readable n c) (h : net.Sound n) (ha : a ∈ net.operands c) :
    a < net.size ∧ ∀ b, net.gate a ≠ .cost b := by
  refine ⟨(hr.operands h a ha).lt_size h, fun b hb => ?_⟩
  have hmem := h.mem_operands_iff.mp ha
  rw [h.consumers_of_cost hb] at hmem
  cases hmem

theorem Closed.readable (h : net.Closed n) (hr : r < net.size) : net.Readable n r := by
  by_cases hrn : r < n
  · exact .input hrn
  · have hopen : (net.gate r).isOpen = false := by
      by_cases hle : 2 * n ≤ r
      · exact (h.closed r hle hr).1
      · rw [(h.sound.sigmoid_of_le (Nat.le_of_not_lt hrn) (Nat.lt_of_not_le hle)).2]
        rfl
    cases h.sound.stage_of_le (Nat.le_of_not_lt hrn) hr with
    | finished hd => exact .formula hd
    | root hg hd _ => exact .root hg hd
    | vacant hg _ =>
      rw [hg] at hopen
      cases hopen
    | waiting hg _ _ =>
      rw [hg] at hopen
      cases hopen

/-- What reads something is a node, and no input. -/
theorem Closed.consumer (h : net.Closed n) {d : Nat} (hd : d ∈ net.consumers r) : n ≤ d ∧ d < net.size := by
  have hmem := h.sound.mem_operands_iff.mpr hd
  refine ⟨?_, lt_size_of_gate fun hg => by simp [operands, hg, Gate.operands] at hmem⟩
  by_contra hdn
  simp [operands, h.sound.input d (Nat.lt_of_not_le hdn)] at hmem

/-- A finished negation or connective feeds another node. -/
theorem Closed.consumers_ne_nil (h : net.Closed n) {f : Formula} (hd : net.Denotes n r f)
    (hg : ∀ k, net.gate r ≠ .sigmoid k) : net.consumers r ≠ [] := by
  intro hnil
  have hle : 2 * n ≤ r := by
    by_contra hlt
    obtain ⟨k, hk⟩ := h.sound.sigmoid_of_denotes hd (Nat.lt_of_not_le hlt)
    exact hg k hk
  obtain ⟨a, ha⟩ := (h.closed r hle hd.lt_size).2 hnil
  exact hd.gate_ne_cost a ha

theorem Closed.sigmoid_mem_consumers (h : net.Closed n) (hr : r < n) :
    Circuit.sigmoidOf n r ∈ net.consumers r := by
  refine h.sound.mem_operands_iff.mp ?_
  rw [operands, h.sound.sigmoid r hr]
  exact List.mem_singleton_self r

/-- An input is read by its sigmoid only. -/
theorem Closed.reader_of_input (h : net.Closed n) (hr : r < n) {c : Nat} (hc : r ∈ net.operands c) :
    c = Circuit.sigmoidOf n r := by
  have hsingle : (net.consumers r).length ≤ 1 := by
    refine (h.sound.single r).resolve_right ?_
    rintro ⟨k, hk⟩
    rw [h.sound.input r hr] at hk
    cases hk
  have hmem := h.sound.mem_operands_iff.mp hc
  obtain ⟨d, hd⟩ := List.length_eq_one_iff.mp
    (Nat.le_antisymm hsingle (List.length_pos_of_mem hmem))
  have hsigmoid := h.sigmoid_mem_consumers hr
  rw [hd] at hmem hsigmoid
  rw [List.mem_singleton.mp hmem, List.mem_singleton.mp hsigmoid]

/-- Where nothing waits, a node pulls from all its consumers. -/
theorem Closed.pullTargets (h : net.Closed n) (hr : r < net.size) :
    net.pullTargets r = .ok (net.consumers r) := by
  unfold Netlist.pullTargets
  cases h.readable hr with
  | input hk =>
    rw [h.sound.input r hk]
    simp [List.ne_nil_of_mem (h.sigmoid_mem_consumers hk)]
  | root hg _ =>
    rw [hg, h.sound.consumers_of_cost hg]
  | formula hd =>
    have hne := h.consumers_ne_nil hd
    cases hd with
    | var _ _ hg => rw [hg]
    | not hg _ =>
      rw [hg]
      simp [hne (by simp [hg])]
    | binary hg _ _ =>
      rw [hg]
      simp [hne (by simp [hg])]

/-! ### Pulling what settling allows -/

/-- Settling a node keeps `I`, wherever its consumers have pushed and it has not. -/
def Settles (net : Netlist) (n : Nat) (I : Signals R → Prop) : Prop :=
  ∀ r s, n ≤ r → r < net.size → I s → (s.cell r).pushed = false →
    (∀ d ∈ net.consumers r, (s.cell d).pushed = true) →
    ∃ s', net.pulling.settle r s = .ok () s' ∧ I s' ∧ ∀ q, (s'.cell q).pushed = ((s.cell q).pushed || q == r)

/-- The walk that pulls goes up in rank. -/
theorem Closed.pulling_descends (h : net.Closed n) (hI : net.Settles n I) : net.pulling.Descends I
    (fun r => n ≤ r ∧ r < net.size) (fun r => (range net.size).sup (net.rank n) - net.rank n r) net.size := by
  refine ⟨fun r hr => hr.2, fun r hr => ⟨_, h.pullTargets hr.2, fun d hd => ?_⟩, ?_⟩
  · have hlt := h.sound.rank_lt (h.sound.mem_operands_iff.mpr hd)
    obtain ⟨hn, hd_lt⟩ := h.consumer hd
    have hsup : net.rank n d ≤ (range net.size).sup (net.rank n) := le_sup (mem_range.mpr hd_lt)
    exact ⟨⟨hn, hd_lt⟩, by omega⟩
  · rintro r ds s ⟨hn, hr⟩ hds hs hopen hall
    rw [show net.pulling.dependencies r = _ from h.pullTargets hr] at hds
    cases hds
    exact hI r s hn hr hs hopen hall

/-- A pull succeeds, and its node has pushed. -/
theorem Closed.pull_ok (h : net.Closed n) (hI : net.Settles n I) (hs : I s) (hn : n ≤ r) (hr : r < net.size) :
    ∃ s', net.pull r s = .ok () s' ∧ I s' ∧ (s'.cell r).pushed = true ∧
      ∀ q, (s.cell q).pushed = true → (s'.cell q).pushed = true := by
  obtain ⟨s', hrun, hs', hsettled, hmono⟩ := (h.pulling_descends hI).run_ok ⟨hn, hr⟩ hs
  refine ⟨s', ?_, hs', hsettled, hmono⟩
  unfold pull
  cases hg : net.gate r with
  | input =>
    cases h.readable hr with
    | input hk => omega
    | formula hd => exact absurd hg hd.gate_ne_input
    | root hg' _ => rw [hg] at hg'; cases hg'
  | _ => exact hrun

/-- Asking an input for its gradient succeeds: its consumers have pushed, and it returns what it gathered. -/
theorem Closed.inputGradient_ok (h : net.Closed n) (hI : net.Settles n I) (hs : I s) (hr : r < n) :
    ∃ s', net.inputGradient r s = .ok (s'.cell r).gradient s' ∧ I s' ∧
      (s'.cell (Circuit.sigmoidOf n r)).pushed = true := by
  have hle := h.sound.le_size
  obtain ⟨s', hloop, hs', hall, -⟩ := forM_ok (l := net.consumers r) (f := net.pull)
    (P := I) (Q := fun d s => (s.cell d).pushed = true)
    (fun d hd s hs => h.pull_ok hI hs (h.consumer hd).1 (h.consumer hd).2) hs
  refine ⟨s', ?_, hs', hall _ (h.sigmoid_mem_consumers hr)⟩
  unfold inputGradient
  rw [h.sound.input r hr, h.pullTargets (by omega)]
  simp only
  rw [bind_of_ok hloop]
  rfl

/-! ### Evaluating from any values -/

/-- Where all operands are known, the node has a value. -/
theorem compute_returns (hr : net.Readable n r) (hn : n ≤ r)
    (hknown : ∀ d ∈ net.operands r, (s.cell d).signal.isSome = true) : ∃ x, net.compute r s = .ok x s := by
  have hoperand : ∀ d ∈ net.operands r, ∃ x, SignalM.known d s = .ok x s := by
    intro d hd
    obtain ⟨x, hx⟩ := Option.isSome_iff_exists.mp (hknown d hd)
    exact ⟨x, SignalM.known_of_some hx⟩
  unfold operands at hoperand
  unfold compute
  cases hr with
  | input hk => omega
  | formula hf =>
    cases hf with
    | @var _ k _ _ hg =>
      obtain ⟨x, hx⟩ := hoperand k (by simp [hg])
      rw [hg]
      exact ⟨_, bind_of_ok hx _⟩
    | @not _ a g hg _ =>
      obtain ⟨x, hx⟩ := hoperand a (by simp [hg])
      rw [hg]
      exact ⟨_, bind_of_ok hx _⟩
    | @binary _ a b op f g hg _ _ =>
      obtain ⟨x, hx⟩ := hoperand a (by simp [hg])
      obtain ⟨y, hy⟩ := hoperand b (by simp [hg])
      rw [hg]
      exact ⟨_, (bind_of_ok hx _).trans (bind_of_ok hy _)⟩
  | @root a f hg _ =>
    obtain ⟨x, hx⟩ := hoperand a (by simp [hg])
    rw [hg]
    exact ⟨_, bind_of_ok hx _⟩

end Netlist

section Follows

variable {R : Type} [Scalar R] {net : Netlist} {n : Nat} {s s' s'' : Signals R}

theorem Signals.Shows.grounded {xs : Nat → R} (hs : s.Shows net n xs) : s.Grounded net n :=
  ⟨hs.size, fun k hk => by rw [hs.held k hk]; rfl⟩

theorem Signals.Grounded.refl (hs : s.Grounded net n) : s.Follows net n s := ⟨hs, fun _ => rfl⟩

theorem Signals.Follows.trans (h : s.Follows net n s') (h' : s'.Follows net n s'') : s.Follows net n s'' :=
  ⟨h'.grounded, fun q => (h'.pushed q).trans (h.pushed q)⟩

/-- A change to one cell that leaves a signal there keeps the signals grounded. -/
theorem Signals.Grounded.update (hs : s.Grounded net n) {r : Nat} (hr : r < net.size) {f : Cell R → Cell R}
    (hf : ∀ c, c.signal.isSome = true → (f c).signal.isSome = true) : (s.update r f).Grounded net n := by
  refine ⟨by rw [Signals.size_update, hs.size], fun k hk => ?_⟩
  rw [Signals.cell_update s r k f (hs.size ▸ hr)]
  split
  · exact hf _ (hs.held k hk)
  · exact hs.held k hk

/-- A change to one cell that leaves a signal and the mark there changes nothing that matters to a pull. -/
theorem Signals.Grounded.follows_update (hs : s.Grounded net n) {r : Nat} (hr : r < net.size)
    {f : Cell R → Cell R} (hf : ∀ c, c.signal.isSome = true → (f c).signal.isSome = true)
    (hpushed : ∀ c, (f c).pushed = c.pushed) : s.Follows net n (s.update r f) := by
  refine ⟨hs.update hr hf, fun q => ?_⟩
  rw [Signals.cell_update s r q f (hs.size ▸ hr)]
  split
  · exact hpushed _
  · rfl

end Follows

namespace Netlist

variable {R : Type} [Scalar R] {net : Netlist} {n : Nat} {r : Nat} {s s' : Signals R}

theorem stores_follows (h : net.Sound n) (s : Signals R) : net.Stores n (s.Follows net n) := by
  refine ⟨fun s' hs' => hs'.grounded.size, fun r s' hr hs' hnone hall => ?_⟩
  have hn : n ≤ r := by
    by_contra hrn
    have hheld := hs'.grounded.held r (Nat.lt_of_not_le hrn)
    rw [hnone] at hheld
    cases hheld
  obtain ⟨x, hx⟩ := compute_returns hr hn hall
  refine ⟨x, hx, hs'.trans (hs'.grounded.follows_update (hr.lt_size h) ?_ ?_)⟩
  · exact fun _ _ => rfl
  · exact fun _ => rfl

/-- Evaluating a node returns wherever the inputs hold values. -/
theorem evaluate_returns (h : net.Sound n) (hs : s.Grounded net n) (hr : net.Readable n r) :
    ∃ x s', net.evaluate r s = .ok x s' ∧ s.Follows net n s' := by
  obtain ⟨x, s', hok, hs', -, -⟩ := (stores_follows h s).evaluate h hs.refl hr
  exact ⟨x, s', hok, hs'⟩

/-! ### Pulling from any values -/

/-- A gradient is added to any node but a cost. -/
theorem addGradient_returns (hs : s.Grounded net n) (hr : r < net.size) (hcost : ∀ b, net.gate r ≠ .cost b)
    (d : R) : ∃ s', net.addGradient r d s = .ok () s' ∧ s.Follows net n s' := by
  refine ⟨s.update r fun c => { c with gradient := c.gradient + d }, ?_, hs.follows_update hr ?_ ?_⟩
  · unfold addGradient
    cases hg : net.gate r with
    | cost b => exact absurd hg (hcost b)
    | _ => rfl
  · exact fun _ hc => hc
  · exact fun _ => rfl

/-- A node pushes its gradient, whatever it has gathered. -/
theorem pushGradient_returns (h : net.Sound n) (hs : s.Grounded net n) (hr : net.Readable n r) (hn : n ≤ r) :
    ∃ s', net.pushGradient r s = .ok () s' ∧ s.Follows net n s' := by
  have hread := hr.operands h
  have hnode := fun a ha => hr.operand h (a := a) ha
  unfold operands at hread hnode
  unfold pushGradient
  cases hr with
  | input hk => omega
  | @root a f hg _ =>
    have hmem : a ∈ (net.gate r).operands := by simp [hg]
    obtain ⟨x, s₁, heval, h₁⟩ := evaluate_returns h hs (hread a hmem)
    obtain ⟨s₂, hadd, h₂⟩ := addGradient_returns h₁.grounded (hnode a hmem).1 (hnode a hmem).2
      ((s₁.cell r).gradient * -(1 / x))
    refine ⟨s₂, ?_, h₁.trans h₂⟩
    simp only [hg]
    rw [bind_of_ok heval, bind_of_ok (SignalM.gradient_apply r s₁)]
    exact hadd
  | formula hf =>
    cases hf with
    | @var _ k hk hrk hg =>
      have hmem : k ∈ (net.gate r).operands := by simp [hg]
      obtain ⟨x, s₁, heval, h₁⟩ := evaluate_returns h hs (.formula (.var hk hrk hg))
      obtain ⟨s₂, hadd, h₂⟩ := addGradient_returns h₁.grounded (hnode k hmem).1 (hnode k hmem).2
        ((s₁.cell r).gradient * x * (1 - x))
      refine ⟨s₂, ?_, h₁.trans h₂⟩
      simp only [hg]
      rw [bind_of_ok heval, bind_of_ok (SignalM.gradient_apply r s₁)]
      exact hadd
    | @not _ a g hg _ =>
      have hmem : a ∈ (net.gate r).operands := by simp [hg]
      obtain ⟨s₁, hadd, h₁⟩ := addGradient_returns hs (hnode a hmem).1 (hnode a hmem).2 (-(s.cell r).gradient)
      refine ⟨s₁, ?_, h₁⟩
      simp only [hg]
      rw [bind_of_ok (SignalM.gradient_apply r s)]
      exact hadd
    | @binary _ a b op f g hg _ _ =>
      have hmema : a ∈ (net.gate r).operands := by simp [hg]
      have hmemb : b ∈ (net.gate r).operands := by simp [hg]
      obtain ⟨x, s₁, hevala, h₁⟩ := evaluate_returns h hs (hread a hmema)
      obtain ⟨y, s₂, hevalb, h₂⟩ := evaluate_returns h h₁.grounded (hread b hmemb)
      obtain ⟨s₃, hadda, h₃⟩ := addGradient_returns h₂.grounded (hnode a hmema).1 (hnode a hmema).2
        ((s₂.cell r).gradient * op.slope y)
      obtain ⟨s₄, haddb, h₄⟩ := addGradient_returns h₃.grounded (hnode b hmemb).1 (hnode b hmemb).2
        ((s₃.cell r).gradient * op.slope x)
      refine ⟨s₄, ?_, ((h₁.trans h₂).trans h₃).trans h₄⟩
      simp only [hg]
      rw [bind_of_ok hevala, bind_of_ok hevalb, bind_of_ok (SignalM.gradient_apply r s₂), bind_of_ok hadda,
        bind_of_ok (SignalM.gradient_apply r s₃)]
      exact haddb

/-- Settling a node returns wherever the inputs hold values, and it keeps them. -/
theorem Closed.settles_grounded (h : net.Closed n) : net.Settles n (Signals.Grounded (R := R) net n) := by
  intro r s hn hr hs _ _
  obtain ⟨s', hpush, hfollows⟩ := pushGradient_returns h.sound
    (hs.update hr (f := fun c => { c with pushed := true }) fun _ hc => hc) (h.readable hr) hn
  refine ⟨s', (bind_of_ok (SignalM.markPushed_apply r s) _).trans hpush, hfollows.grounded, fun q => ?_⟩
  rw [hfollows.pushed, Signals.cell_update s r q _ (hs.size ▸ hr)]
  split
  · next hq => simp [hq]
  · next hq => simp [hq]

end Netlist

end SoftLogic
