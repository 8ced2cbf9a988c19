import SoftLogic.Proofs.Netlist.Gradient
import SoftLogic.Proofs.Netlist.Growth

/-!
# Pulling after the inputs were written again

When the inputs are written after an evaluation, the inputs and the other signals belong to different values.  A pull
reads the signal of a node that something consumes, and these are all known, or that of a sigmoid that nothing consumes,
and its gradient is zero.  So in a field it gathers what it would gather if the inputs had not been written again
(`Netlist.Closed.settles_recalls`).
-/

namespace SoftLogic

open Effect Finset

/-! ### Signals as they were -/

namespace Signals

section AsAt

variable {R : Type} [Scalar R] {net : Netlist} {n r : Nat} {xs : Nat → R} {s : Signals R}

/-- What the signal of a node was when the inputs held `xs`, if a node that nothing consumes may have been evaluated
since. -/
noncomputable def recalled (net : Netlist) (n : Nat) (xs : Nat → R) (r : Nat) (signal : Option R) : Option R :=
  if r < n then some (xs r)
  else if net.consumers r = [] then signal.map fun _ => net.meaning n xs r
  else signal

/-- The signals as they were when the inputs held `xs`. -/
noncomputable def asAt (net : Netlist) (n : Nat) (xs : Nat → R) (s : Signals R) : Signals R :=
  ⟨s.cells.mapIdx fun r c => { c with signal := recalled net n xs r c.signal }⟩

@[simp] theorem size_asAt (net : Netlist) (n : Nat) (xs : Nat → R) (s : Signals R) :
    (s.asAt net n xs).cells.size = s.cells.size := by simp [asAt]

theorem cell_asAt (hr : r < s.cells.size) :
    (s.asAt net n xs).cell r = { s.cell r with signal := recalled net n xs r (s.cell r).signal } := by
  simp [asAt, cell, hr]

theorem sameGradients_asAt (net : Netlist) (n : Nat) (xs : Nat → R) (s : Signals R) :
    s.SameGradients (s.asAt net n xs) := by
  intro r
  by_cases hr : r < s.cells.size
  · rw [cell_asAt hr]
    exact ⟨rfl, rfl⟩
  · simp [asAt, cell, hr]

/-- Nothing is recalled otherwise of what is consumed. -/
theorem recalled_of_consumed (hn : n ≤ r) (hc : net.consumers r ≠ []) (signal : Option R) :
    recalled net n xs r signal = signal := by
  rw [recalled, if_neg (Nat.not_lt_of_le hn), if_neg hc]

/-- A change beside the signals is the same in the signals as they were. -/
theorem asAt_update (hr : r < s.cells.size) {f : Cell R → Cell R} (hsignal : ∀ c, (f c).signal = c.signal)
    (hf : ∀ c x, f { c with signal := x } = { f c with signal := x }) :
    (s.update r f).asAt net n xs = (s.asAt net n xs).update r f := by
  refine ext_cell (by simp) fun q hq => ?_
  rw [size_asAt, size_update] at hq
  rw [cell_asAt (by rwa [size_update]), cell_update s r q f hr, cell_update _ r q f (by rwa [size_asAt]),
    cell_asAt hq]
  split
  · rw [hsignal]
    exact (hf _ _).symm
  · rfl

/-- Where nothing consumes a node, what it is evaluated to is recalled as its value. -/
theorem asAt_store (hr : r < s.cells.size) (hn : n ≤ r) (hc : net.consumers r = []) (x : R) :
    (s.update r fun c => { c with signal := some x }).asAt net n xs =
      (s.asAt net n xs).update r fun c => { c with signal := some (net.meaning n xs r) } := by
  refine ext_cell (by simp) fun q hq => ?_
  rw [size_asAt, size_update] at hq
  rw [cell_asAt (by rwa [size_update]), cell_update s r q _ hr, cell_update _ r q _ (by rwa [size_asAt]),
    cell_asAt hq]
  split
  · next hqr =>
    subst hqr
    rw [recalled, if_neg (Nat.not_lt_of_le hn), if_pos hc]
    rfl
  · rfl

end AsAt

/-- There is a value in each input, and what is consumed is known. -/
structure Supplied {R : Type} [Scalar R] (net : Netlist) (n : Nat) (s : Signals R) : Prop where
  grounded : s.Grounded net n
  known : ∀ r, n ≤ r → net.consumers r ≠ [] → (s.cell r).signal.isSome = true

theorem Supplied.update {R : Type} [Scalar R] {net : Netlist} {n r : Nat} {s : Signals R} (hs : s.Supplied net n)
    (hr : r < net.size) {f : Cell R → Cell R} (hf : ∀ c, c.signal.isSome = true → (f c).signal.isSome = true) :
    (s.update r f).Supplied net n := by
  refine ⟨hs.grounded.update hr hf, fun q hn hc => ?_⟩
  rw [cell_update s r q f (hs.grounded.size ▸ hr)]
  split
  · exact hf _ (hs.known q hn hc)
  · exact hs.known q hn hc

/-- What is known may belong to `xs` while the inputs hold other values: what has been gathered is what was to be gathered
for `xs`. -/
structure Recalls {K : Type} [ExactScalar K] (net : Netlist) (n : Nat) (xs : Nat → K) (s : Signals K) : Prop where
  supplied : s.Supplied net n
  pulled : (s.asAt net n xs).Pulled net n xs

end Signals

namespace Netlist

/-! ### Pushing what is consumed -/

section Echoes

variable {R : Type} [Scalar R] {net : Netlist} {n r a : Nat} {xs : Nat → R} {s : Signals R}

/-- On the signals as they were, the computation does what it does on the signals as they are. -/
abbrev Echoes {α : Type} (net : Netlist) (n : Nat) (xs : Nat → R) (x : SignalM R α) : Prop :=
  Lifts (Signals.asAt net n xs) (Signals.Supplied net n) x x

/-- A change beside the signals. -/
theorem echoes_modify (hr : r < net.size) {f : Cell R → Cell R} (hsignal : ∀ c, (f c).signal = c.signal)
    (hf : ∀ c x, f { c with signal := x } = { f c with signal := x }) :
    Echoes net n xs (modify (·.update r f) : SignalM R Unit) := by
  refine ⟨fun s hs => hs.update hr fun c hc => by rwa [hsignal], fun s hs => ?_⟩
  exact congrArg (EStateM.Result.ok ()) (Signals.asAt_update (hs.grounded.size ▸ hr) hsignal hf).symm

theorem echoes_gradient (hr : r < net.size) : Echoes net n xs (SignalM.gradient r) := by
  refine ⟨keeps_gradient r, fun s hs => ?_⟩
  rw [SignalM.gradient_apply, SignalM.gradient_apply, Signals.cell_asAt (hs.grounded.size ▸ hr)]
  rfl

/-- Adding to a gradient, with its choice of what takes none. -/
theorem echoes_addGradient (ha : a < net.size) (d : R) : Echoes net n xs (net.addGradient a d) := by
  unfold addGradient
  split
  · exact lifts_throw _
  · exact echoes_modify ha (fun _ => rfl) fun _ _ => rfl

/-- What is consumed is known, and known as it was. -/
theorem echoes_evaluate (ha : a < net.size) (hn : n ≤ a) (hc : net.consumers a ≠ []) :
    Echoes net n xs (net.evaluate a : SignalM R R) := by
  have hknown : ∀ s : Signals R, s.Supplied net n → ∃ x, (s.cell a).signal = some x :=
    fun s hs => Option.isSome_iff_exists.mp (hs.known a hn hc)
  refine ⟨keeps_of_returns fun s hs => ?_, fun s hs => ?_⟩
  · obtain ⟨x, hx⟩ := hknown s hs
    exact ⟨x, s, evaluate_of_known hx, hs⟩
  · obtain ⟨x, hx⟩ := hknown s hs
    have hx' : ((s.asAt net n xs).cell a).signal = some x := by
      rw [Signals.cell_asAt (hs.grounded.size ▸ ha), Signals.recalled_of_consumed hn hc, hx]
    rw [evaluate_of_known hx, evaluate_of_known hx']
    rfl

/-- The operands of a gate that is no sigmoid are no inputs. -/
theorem Closed.le_operand (h : net.Closed n) (hsigmoid : ∀ k, net.gate r ≠ .sigmoid k) (ha : a ∈ net.operands r) :
    n ≤ a := by
  by_contra hlt
  have hr := h.reader_of_input (Nat.lt_of_not_le hlt) ha
  rw [hr] at hsigmoid
  exact hsigmoid a (h.sound.sigmoid a (Nat.lt_of_not_le hlt))

/-- A push asks for what is consumed, unless a sigmoid pushes that is not. -/
theorem Closed.echoes_pushGradient (h : net.Closed n) (hn : n ≤ r) (hr : r < net.size)
    (hidle : ∀ k, net.gate r = .sigmoid k → net.consumers r ≠ []) :
    Echoes net n xs (net.pushGradient r : SignalM R Unit) := by
  have hlt : ∀ a ∈ (net.gate r).operands, a < net.size := fun a ha => h.sound.operand_lt_size ha
  have heval : (∀ k, net.gate r ≠ .sigmoid k) → ∀ a ∈ (net.gate r).operands,
      Echoes net n xs (net.evaluate a : SignalM R R) := by
    intro hsigmoid a ha
    refine echoes_evaluate (hlt a ha) (h.le_operand hsigmoid ha) ?_
    exact List.ne_nil_of_mem (h.sound.mem_operands_iff.mp ha)
  have hgradient : Echoes net n xs (SignalM.gradient r) := echoes_gradient hr
  unfold pushGradient
  cases hg : net.gate r with
  | plain => exact lifts_throw _
  | input => exact lifts_throw _
  | sigmoid a =>
    exact (echoes_evaluate hr hn (hidle a hg)).bind fun _ => hgradient.bind fun _ =>
      echoes_addGradient (hlt a (by simp [hg])) _
  | not operand =>
    cases operand with
    | none => exact lifts_throw _
    | some a => exact hgradient.bind fun _ => echoes_addGradient (hlt a (by simp [hg])) _
  | binary op a second =>
    cases second with
    | none => exact lifts_throw _
    | some b =>
      have hsigmoid : ∀ k, net.gate r ≠ .sigmoid k := by simp [hg]
      exact (heval hsigmoid a (by simp [hg])).bind fun _ => (heval hsigmoid b (by simp [hg])).bind fun _ =>
        hgradient.bind fun _ => (echoes_addGradient (hlt a (by simp [hg])) _).bind fun _ =>
        hgradient.bind fun _ => echoes_addGradient (hlt b (by simp [hg])) _
  | cost a =>
    have hsigmoid : ∀ k, net.gate r ≠ .sigmoid k := by simp [hg]
    exact (heval hsigmoid a (by simp [hg])).bind fun _ => hgradient.bind fun _ =>
      echoes_addGradient (hlt a (by simp [hg])) _

/-! ### Sigmoids that nothing consumes -/

/-- A sigmoid that nothing consumes is evaluated to something now, and was evaluated to its value before. -/
theorem Sound.evaluate_idle (h : net.Sound n) {k : Nat} (hk : k < n) (hg : net.gate r = .sigmoid k) (hn : n ≤ r)
    (hr : r < net.size) (hc : net.consumers r = []) (hs : s.Supplied net n)
    (hmeaning : net.meaning n xs r = Scalar.sigmoid (xs k)) :
    ∃ f s', net.evaluate r s = .ok f s' ∧ net.evaluate r (s.asAt net n xs) = .ok (net.meaning n xs r) (s'.asAt net n xs) ∧
      s'.Supplied net n ∧ (s'.cell r).gradient = (s.cell r).gradient := by
  have hsize := hs.grounded.size
  have hsize' : (s.asAt net n xs).cells.size = net.size := (Signals.size_asAt _ _ _ _).trans hsize
  have hlt : r < s.cells.size := hsize ▸ hr
  have hle := h.le_size
  have hsignal : ((s.asAt net n xs).cell r).signal = (s.cell r).signal.map fun _ => net.meaning n xs r := by
    rw [Signals.cell_asAt hlt, Signals.recalled, if_neg (Nat.not_lt_of_le hn), if_pos hc]
  have hheld : ((s.asAt net n xs).cell k).signal = some (xs k) := by
    rw [Signals.cell_asAt (by omega), Signals.recalled, if_pos hk]
  have hoperands : net.operands r = [k] := by rw [operands, hg]; rfl
  cases hx : (s.cell r).signal with
  | some f =>
    rw [hx] at hsignal
    exact ⟨f, s, evaluate_of_known hx, evaluate_of_known hsignal, hs, rfl⟩
  | none =>
    rw [hx] at hsignal
    obtain ⟨y, hy⟩ := Option.isSome_iff_exists.mp (hs.grounded.held k hk)
    have hcompute : ∀ {t : Signals R} {z : R}, (t.cell k).signal = some z →
        net.compute r t = .ok (Scalar.sigmoid z) t := by
      intro t z hz
      unfold compute
      rw [hg]
      exact bind_of_ok (SignalM.known_of_some hz) _
    have hall : ∀ {t : Signals R} {z : R}, (t.cell k).signal = some z →
        ∀ d ∈ net.operands r, (t.cell d).signal.isSome = true := by
      intro t z hz d hd
      rw [hoperands] at hd
      rw [List.mem_singleton.mp hd, hz]
      rfl
    refine ⟨_, _, h.evaluate_of_compute hsize hr hx (hall hy) (hcompute hy), ?_, hs.update hr fun _ _ => rfl, ?_⟩
    · rw [Signals.asAt_store hlt hn hc, hmeaning]
      exact h.evaluate_of_compute hsize' hr hsignal (hall hheld) (hcompute hheld)
    · rw [Signals.cell_update s r r _ hlt, if_pos rfl]

end Echoes

/-! ### Pulling -/

section Recalls

variable {K : Type} [ExactScalar K] {net : Netlist} {n r : Nat} {xs : Nat → K} {s : Signals K}

/-- Nothing is pushed into what nothing consumes. -/
theorem gradient_of_idle (h : net.Sound n) (hs : s.Pulled net n xs) (hr : r < net.size) (hc : net.consumers r = []) :
    (s.cell r).gradient = (net.gate r).baseline := by
  have hterm : ∀ c ∈ range net.size,
      (if (s.cell c).pushed then (s.cell c).gradient * net.slope (net.meaning n xs) c r else 0) = 0 := by
    intro c _
    have hreads : r ∉ net.operands c := by
      intro hmem
      have hmem' := h.mem_operands_iff.mp hmem
      rw [hc] at hmem'
      cases hmem'
    rw [slope_eq_zero hreads, mul_zero, ite_self]
  rw [hs.gradient r hr, sum_eq_zero hterm, add_zero]

/-- A sigmoid that nothing consumes pushes nothing, whatever it is evaluated to. -/
theorem Closed.push_idle (h : net.Closed n) {k : Nat} (hk : k < n) (hg : net.gate r = .sigmoid k) (hn : n ≤ r)
    (hr : r < net.size) (hc : net.consumers r = []) (hs : s.Supplied net n)
    (hmeaning : net.meaning n xs r = Scalar.sigmoid (xs k)) (hzero : (s.cell r).gradient = 0) :
    net.pushGradient r (s.asAt net n xs) = carry (Signals.asAt net n xs) (net.pushGradient r s) ∧
      (left (net.pushGradient r s)).Supplied net n := by
  obtain ⟨f, s', hnow, hthen, hs', hgradient⟩ := h.sound.evaluate_idle hk hg hn hr hc hs hmeaning
  have hlt : r < s'.cells.size := hs'.grounded.size ▸ hr
  have hk' : k < net.size := h.sound.operand_lt_size (r := r) (by rw [operands, hg]; exact List.mem_singleton_self k)
  have hpush : ∀ {t t' : Signals K} {g : K}, net.evaluate r t = .ok g t' → (t'.cell r).gradient = 0 →
      net.pushGradient r t = net.addGradient k 0 t' := by
    intro t t' g heval hgradient
    unfold pushGradient
    rw [hg]
    simp only
    rw [bind_of_ok heval, bind_of_ok (SignalM.gradient_apply r t'), hgradient, zero_mul, zero_mul]
  have hadd : Echoes net n xs (net.addGradient k 0) := echoes_addGradient hk' 0
  have hzero' : ((s'.asAt net n xs).cell r).gradient = 0 := by
    rw [Signals.cell_asAt hlt]
    exact hgradient.trans hzero
  rw [hpush hnow (hgradient.trans hzero), hpush hthen hzero']
  exact ⟨hadd.apply s' hs', hadd.keeps.left hs'⟩

/-- Settling a node does on the signals as they were what it does on the signals as they are. -/
theorem Closed.settle_asAt (h : net.Closed n) (hn : n ≤ r) (hr : r < net.size) (hs : s.Recalls net n xs) :
    net.pulling.settle r (s.asAt net n xs) = carry (Signals.asAt net n xs) (net.pulling.settle r s) ∧
      (left (net.pulling.settle r s)).Supplied net n := by
  have hmark : Echoes net n xs (SignalM.markPushed r) := echoes_modify hr (fun _ => rfl) fun _ _ => rfl
  by_cases hidle : ∃ k, net.gate r = .sigmoid k ∧ net.consumers r = []
  · -- its values now and then may differ, but each is multiplied by its gradient, which is zero
    obtain ⟨k, hg, hc⟩ := hidle
    obtain ⟨hk, hmeaning⟩ : k < n ∧ net.meaning n xs r = Scalar.sigmoid (xs k) := by
      cases h.readable hr with
      | input hrn => omega
      | root hg' _ => rw [hg] at hg'; cases hg'
      | formula hd =>
        obtain ⟨hk, rfl⟩ := hd.of_sigmoid hg
        exact ⟨hk, meaning_of_denotes hd⟩
    have hlt : r < s.cells.size := hs.supplied.grounded.size ▸ hr
    have hzero : (s.cell r).gradient = 0 := by
      have hbaseline := gradient_of_idle h.sound hs.pulled hr hc
      rw [Signals.cell_asAt hlt, hg] at hbaseline
      exact hbaseline
    have hmarked : (s.update r fun c => { c with pushed := true }).Supplied net n := hs.supplied.update hr fun _ hc => hc
    obtain ⟨hpush, hleft⟩ := h.push_idle hk hg hn hr hc hmarked hmeaning
      (by rw [Signals.cell_update s r r _ hlt, if_pos rfl]; exact hzero)
    have hsettle : ∀ t : Signals K, net.pulling.settle r t =
        net.pushGradient r (t.update r fun c => { c with pushed := true }) :=
      fun t => bind_of_ok (SignalM.markPushed_apply r t) _
    have hasAt : (s.update r fun c => { c with pushed := true }).asAt net n xs =
        (s.asAt net n xs).update r fun c => { c with pushed := true } :=
      Signals.asAt_update hlt (fun _ => rfl) fun _ _ => rfl
    rw [hsettle, hsettle, ← hasAt]
    exact ⟨hpush, hleft⟩
  · have hpush : Echoes net n xs (net.pushGradient r : SignalM K Unit) :=
      h.echoes_pushGradient hn hr fun k hg hc => hidle ⟨k, hg, hc⟩
    have hsettle : Echoes net n xs (net.pulling.settle r : SignalM K Unit) := hmark.bind fun _ => hpush
    exact ⟨hsettle.apply s hs.supplied, hsettle.keeps.left hs.supplied⟩

/-- A pull goes on as if the inputs had not been written again. -/
theorem Closed.settles_recalls (h : net.Closed n) : net.Settles n (Signals.Recalls net n xs) := by
  intro r s hn hr hs hopen hall
  have hpushed : ∀ (t : Signals K) (q : Nat), ((t.asAt net n xs).cell q).pushed = (t.cell q).pushed :=
    fun t q => (Signals.sameGradients_asAt net n xs t q).2
  obtain ⟨t', hsettle, hpulled, hmarks⟩ := settles_pulled h r (s.asAt net n xs) hn hr hs.pulled
    ((hpushed s r).trans hopen) fun d hd => (hpushed s d).trans (hall d hd)
  obtain ⟨hecho, hsupplied⟩ := h.settle_asAt hn hr hs
  rw [hecho] at hsettle
  match hnow : net.pulling.settle r s with
  | .error fault s' =>
    rw [hnow] at hsettle
    cases hsettle
  | .ok u s' =>
    rw [hnow] at hsettle hsupplied
    cases hsettle
    exact ⟨s', rfl, ⟨hsupplied, hpulled⟩, fun q => by rw [← hpushed s' q, hmarks, hpushed s q]⟩

end Recalls

end Netlist

end SoftLogic
