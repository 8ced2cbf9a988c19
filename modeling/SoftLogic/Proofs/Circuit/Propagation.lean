import SoftLogic.Circuit.Propagation
import SoftLogic.Proofs.Circuit.Construction
import SoftLogic.Proofs.Netlist.Totality
import SoftLogic.Proofs.Tensor

/-!
# What propagation through a circuit returns

In the circuit of a program nothing waits, so every root has a formula (`Complete.exists_formulas`) and
propagation cannot fail on a vector of the right length.  Where nothing but the inputs is known, the cost and the
truth values are those of the formulas (`Complete.costAt_ok`, `Complete.clauseValues_ok`).

Writing the inputs of pristine signals leaves nothing of the past: `Complete.write_of_pristine` gives the very
signals that writing on an untouched circuit gives, so whatever is computed from there is the same as well.  This
holds for any `Scalar`.
-/

namespace SoftLogic

open Effect

/-! ### Signals that hold given values -/

namespace Signals

variable {R : Type} [Scalar R] {net : Netlist} {n : Nat} {s s' : Signals R} {r : Nat} {xs : List R}

/-- The signals in which the first `n` nodes hold the entries of a list. -/
def holding (n : Nat) (xs : List R) (s : Signals R) : Signals R :=
  ⟨s.cells.mapIdx fun r c => if r < n then { c with signal := some (xs.getD r 0) } else c⟩

/-- Nothing but the inputs is known. -/
structure Blank (net : Netlist) (s : Signals R) : Prop where
  size : s.cells.size = net.size
  signal : ∀ r < net.size, (net.gate r).isInput = false → (s.cell r).signal = none

@[simp] theorem size_holding (n : Nat) (xs : List R) (s : Signals R) :
    (s.holding n xs).cells.size = s.cells.size := by simp [holding]

theorem cell_holding (n : Nat) (xs : List R) (hr : r < s.cells.size) : (s.holding n xs).cell r =
    if r < n then { s.cell r with signal := some (xs.getD r 0) } else s.cell r := by
  simp [holding, cell, hr]

@[simp] theorem holding_zero (xs : List R) (s : Signals R) : s.holding 0 xs = s := by
  refine ext_cell (size_holding 0 xs s) fun r hr => ?_
  rw [size_holding] at hr
  rw [cell_holding 0 xs hr, if_neg (Nat.not_lt_zero r)]

/-- One more node holds its entry. -/
theorem update_holding {k : Nat} (hk : k < s.cells.size) (xs : List R) :
    ((s.holding k xs).update k fun c => { c with signal := some (xs.getD k 0) }) = s.holding (k + 1) xs := by
  refine ext_cell (by simp) fun r hr => ?_
  rw [size_update, size_holding] at hr
  rw [cell_update _ k r _ (by rwa [size_holding]), cell_holding k xs hr, cell_holding (k + 1) xs hr]
  by_cases hrk : r = k
  · rw [if_pos hrk, if_neg (by omega), if_pos (by omega), hrk]
  · rw [if_neg hrk]
    by_cases hlt : r < k
    · rw [if_pos hlt, if_pos (by omega)]
    · rw [if_neg hlt, if_neg (by omega)]

theorem Pristine.blank (hs : s.Pristine net) (hsize : s.cells.size = net.size) : s.Blank net :=
  ⟨hsize, hs.signal⟩

/-- But for the signals that inputs hold, a node of pristine signals is untouched. -/
theorem Pristine.cell_eq (hs : s.Pristine net) (hr : r < net.size) :
    s.cell r = { (Cell.initial (net.gate r) : Cell R) with signal := (s.cell r).signal } := by
  have hgradient := hs.gradient r hr
  have hpushed := hs.pushed r hr
  cases h : s.cell r with
  | mk signal gradient pushed =>
    rw [h] at hgradient hpushed
    simp only at hgradient hpushed
    rw [hgradient, hpushed]
    rfl

theorem pristine_fresh (net : Netlist) : (fresh net : Signals R).Pristine net := by
  refine ⟨fun r hr hinput => ?_, fun r hr => ?_, fun r hr => ?_⟩
  · rw [cell_fresh hr, Cell.initial, hinput]
    rfl
  · rw [cell_fresh hr, Cell.initial]
  · rw [cell_fresh hr, Cell.initial]

end Signals

namespace Netlist

theorem Readable.isInput_eq_false {net : Netlist} {n r : Nat} (hr : net.Readable n r) (hn : n ≤ r) :
    (net.gate r).isInput = false := by
  cases hr with
  | input hk => omega
  | root hg _ => rw [hg]; rfl
  | formula hd => exact hd.isInput_eq_false

end Netlist

section Shows

variable {R : Type} [Scalar R] {net : Netlist} {n : Nat} {s : Signals R}

/-- Where nothing but the inputs is known, nothing wrong is known. -/
theorem Signals.Blank.shows (hs : s.Blank net) (h : net.Sound n) {xs : Nat → R}
    (hheld : ∀ k < n, (s.cell k).signal = some (xs k)) : s.Shows net n xs := by
  refine ⟨hs.size, hheld, fun r hr y hy => ?_⟩
  by_cases hrn : r < n
  · rw [hheld r hrn] at hy
    rw [Netlist.meaning_input h hrn]
    exact (Option.some.inj hy).symm
  · rw [hs.signal r (hr.lt_size h) (hr.isInput_eq_false (Nat.le_of_not_lt hrn))] at hy
    cases hy

/-- Whatever else is known, it is there when the inputs hold values. -/
theorem Signals.grounded_holding (h : net.Sound n) (hsize : s.cells.size = net.size) (xs : List R) :
    (s.holding n xs).Grounded net n := by
  refine ⟨by rw [size_holding, hsize], fun k hk => ?_⟩
  have hle := h.le_size
  rw [cell_holding n xs (by omega), if_pos hk]
  rfl

/-- No other signals change when the inputs are given values. -/
theorem Signals.signal_holding_of_not_input (h : net.Sound n) (hsize : s.cells.size = net.size) (xs : List R)
    {r : Nat} (hr : r < net.size) (hinput : (net.gate r).isInput = false) :
    ((s.holding n xs).cell r).signal = (s.cell r).signal := by
  have hrn : ¬ r < n := by
    intro hrn
    rw [h.input r hrn] at hinput
    cases hinput
  rw [cell_holding n xs (hsize ▸ hr), if_neg hrn]

theorem Signals.Blank.holding (hs : s.Blank net) (h : net.Sound n) (xs : List R) :
    (s.holding n xs).Blank net := by
  refine ⟨by rw [Signals.size_holding, hs.size], fun r hr hinput => ?_⟩
  rw [Signals.signal_holding_of_not_input h hs.size xs hr hinput, hs.signal r hr hinput]

theorem Signals.Pristine.holding (hs : s.Pristine net) (hsize : s.cells.size = net.size) (h : net.Sound n)
    (xs : List R) : (s.holding n xs).Pristine net := by
  refine ⟨((hs.blank hsize).holding h xs).signal, fun r hr => ?_, fun r hr => ?_⟩
  · rw [Signals.cell_holding n xs (hsize ▸ hr)]
    split <;> exact hs.gradient r hr
  · rw [Signals.cell_holding n xs (hsize ▸ hr)]
    split <;> exact hs.pushed r hr

theorem Signals.signal_holding (h : net.Sound n) (hsize : s.cells.size = net.size) (xs : List R) :
    ∀ k < n, ((s.holding n xs).cell k).signal = some (xs.getD k 0) := by
  intro k hk
  have hle := h.le_size
  rw [cell_holding n xs (by omega), if_pos hk]

/-- Where nothing but the inputs was known, giving them values leaves nothing wrong known. -/
theorem Signals.Blank.shows_holding (hs : s.Blank net) (h : net.Sound n) (xs : List R) :
    (s.holding n xs).Shows net n fun k => xs.getD k 0 :=
  (hs.holding h xs).shows h (signal_holding h hs.size xs)

end Shows

namespace Circuit

/-! ### Formulas of the clauses -/

/-- `fs` are the formulas of the lines, and of the roots.  Where the grammar derives a line, its formula is
that of the derivation. -/
structure HasFormulas (c : Circuit) (lines : List String) (fs : List Formula) : Prop where
  derived : List.Forall₂ (fun line f => ∃ tokens, Token.scan line c.numVars = .ok tokens ∧
    ∀ e : Expression, e.symbols = tokens.map Token.symbol → e.formula = f) lines fs
  denoted : List.Forall₂ (c.net.CostOf c.numVars) c.roots fs

/-- The truth value of the clause with a given root when the inputs hold `xs`. -/
noncomputable def clauseTruth {R : Type} [Scalar R] (c : Circuit) (xs : Nat → R) (root : Ref) : R :=
  match c.net.gate root with
  | .cost a => c.net.meaning c.numVars xs a
  | _ => 0

variable {R : Type} [Scalar R] {c : Circuit} {lines : List String} {fs : List Formula} {s s' : Signals R}
  {xs : List R}

theorem Sealed.net_closed (h : c.Sealed) : c.net.Closed c.numVars := ⟨h.reachable.sound.net, h.closed⟩

theorem Complete.net_closed (h : c.Complete lines) : c.net.Closed c.numVars := h.sealed.net_closed

/-- The lines of a complete circuit have formulas. -/
theorem Complete.exists_formulas (h : c.Complete lines) : ∃ fs, c.HasFormulas lines fs := by
  have hsplit : ∀ {lines roots}, List.Forall₂ (c.net.Roots c.numVars) lines roots → ∃ fs,
      List.Forall₂ (fun line f => ∃ tokens, Token.scan line c.numVars = .ok tokens ∧
        ∀ e : Expression, e.symbols = tokens.map Token.symbol → e.formula = f) lines fs ∧
      List.Forall₂ (c.net.CostOf c.numVars) roots fs := by
    intro lines roots hroots
    induction hroots with
    | nil => exact ⟨[], .nil, .nil⟩
    | cons hroot _ ih =>
      obtain ⟨tokens, f, hscan, hread, hcost⟩ := hroot
      obtain ⟨fs, hderived, hdenoted⟩ := ih
      refine ⟨f :: fs, .cons ⟨tokens, hscan, fun e he => ?_⟩ hderived, .cons hcost hdenoted⟩
      rw [← he, Formula.read_symbols] at hread
      exact Option.some.inj hread
  obtain ⟨fs, hderived, hdenoted⟩ := hsplit h.roots
  exact ⟨fs, hderived, hdenoted⟩

/-- The truth values of the clauses, as far as the formulas tell. -/
theorem HasFormulas.map_clauseTruth_eq (h : c.HasFormulas lines fs) {xs : Nat → R} {g : Formula → R}
    (hg : ∀ a f, c.net.Denotes c.numVars a f → f.value (fun k => Scalar.sigmoid (xs k)) = g f) :
    c.roots.map (c.clauseTruth xs) = fs.map g := by
  have heq : List.Forall₂ (fun root f => c.clauseTruth xs root = g f) c.roots fs := by
    refine h.denoted.imp fun root f hroot => ?_
    obtain ⟨a, hgate, hd⟩ := hroot
    unfold clauseTruth
    rw [hgate]
    exact (Netlist.meaning_of_denotes hd).trans (hg a f hd)
  rwa [← List.forall₂_eq_eq_eq, List.forall₂_map_left_iff, List.forall₂_map_right_iff]

/-- Where the lines are derived, the formulas are those of the derivations. -/
theorem Complete.hasFormulas (h : c.Complete lines) {es : List Expression}
    (hderived : List.Forall₂ (fun line e => Expression.Derives e c.numVars line) lines es) :
    c.HasFormulas lines (es.map Expression.formula) := by
  constructor
  · rw [List.forall₂_map_right_iff]
    refine hderived.imp fun line e he => ?_
    obtain ⟨tokens, hscan, hsymbols⟩ := he
    refine ⟨tokens, hscan, fun e' he' => Option.some.inj ?_⟩
    rw [← Formula.read_symbols, ← Formula.read_symbols, he', hsymbols]
  · have hdenoted : ∀ {lines roots es}, List.Forall₂ (c.net.Roots c.numVars) lines roots →
        List.Forall₂ (fun line e => Expression.Derives e c.numVars line) lines es →
        List.Forall₂ (c.net.CostOf c.numVars) roots (es.map Expression.formula) := by
      intro lines roots es hroots
      induction hroots generalizing es with
      | nil => rintro ⟨⟩; exact .nil
      | cons hroot _ ih =>
        rintro (_ | ⟨he, hes⟩)
        obtain ⟨tokens, f, hscan, hread, hcost⟩ := hroot
        obtain ⟨tokens', hscan', hread'⟩ := he.read
        cases hscan.symm.trans hscan'
        cases hread.symm.trans hread'
        exact .cons hcost (ih hes)
    exact hdenoted h.roots hderived

/-- Any signals fit a circuit in which nothing waits, as no negation in it is vacant. -/
theorem Sealed.fits (h : c.Sealed) (hsize : s.cells.size = c.net.size) : s.Fits c.net := by
  refine ⟨hsize, fun r hr hvacant => ?_⟩
  have hopen := (h.net_closed.readable hr).isOpen_eq_false h.net_closed.sound
  rw [hvacant] at hopen
  cases hopen

theorem Complete.fits (h : c.Complete lines) (hsize : s.cells.size = c.net.size) : s.Fits c.net :=
  h.sealed.fits hsize

theorem Sealed.readable_root (h : c.Sealed) {root : Ref} (hroot : root ∈ c.roots) :
    c.net.Readable c.numVars root := by
  obtain ⟨a, ha⟩ := h.roots root hroot
  exact h.net_closed.readable (Netlist.lt_size_of_gate (by simp [ha]))

theorem Complete.readable_root (h : c.Complete lines) {root : Ref} (hroot : root ∈ c.roots) :
    c.net.Readable c.numVars root := h.sealed.readable_root hroot

theorem size_signals (c : Circuit) : (c.signals : Signals R).cells.size = c.net.size :=
  Signals.size_fresh c.net

theorem pristine_signals (c : Circuit) : (c.signals : Signals R).Pristine c.net :=
  Signals.pristine_fresh c.net

/-- Untouched inputs hold zeros. -/
theorem Sealed.grounded_signals (h : c.Sealed) : (c.signals : Signals R).Grounded c.net c.numVars := by
  have hsound := h.net_closed.sound
  refine ⟨c.size_signals, fun k hk => ?_⟩
  have hle := hsound.le_size
  have hlt : k < c.net.size := by omega
  rw [signals, Signals.cell_fresh hlt, hsound.input k hk]
  rfl

/-- A reset leaves the values that the inputs hold. -/
theorem Sealed.grounded_reset (h : c.Sealed) (hs : s.Grounded c.net c.numVars) :
    (c.net.reset c.inputs s).Grounded c.net c.numVars := by
  refine ⟨by rw [Netlist.size_reset, hs.size], fun k hk => ?_⟩
  have hle := h.net_closed.sound.le_size
  rw [(h.fits hs.size).signal_reset c.inputs (by omega) (by rw [h.net_closed.sound.input k hk]; rfl)]
  exact hs.held k hk

theorem Complete.grounded_reset (h : c.Complete lines) (hs : s.Grounded c.net c.numVars) :
    (c.net.reset c.inputs s).Grounded c.net c.numVars := h.sealed.grounded_reset hs

/-! ### Writing the inputs -/

theorem vector?_vector {S : Type} {ys : List S} (hys : ys.length = c.numVars) :
    c.vector? (.vector ys) = .ok ys := by
  unfold vector?
  simp [hys]

omit [Scalar R] in
theorem write_vector (hxs : xs.length = c.numVars) :
    c.write (.vector xs) = (c.inputs.zip xs).forM fun (leaf, x) => lift (c.net.hold leaf x) := by
  unfold write
  rw [vector?_vector hxs]

/-- Writing a vector of the right length makes the inputs hold it, and changes nothing else. -/
theorem write_ok (h : c.net.Sound c.numVars) (hxs : xs.length = c.numVars)
    (hsize : s.cells.size = c.net.size) : c.write (.vector xs) s = .ok () (s.holding c.numVars xs) := by
  have hzip : c.inputs.zip xs = (List.range c.numVars).map fun k => (k, xs.getD k 0) := by
    refine List.ext_getElem (by simp [inputs, inputsOf, hxs]) fun k hk hk' => ?_
    have hlt : k < xs.length := by simpa [hxs] using hk'
    simp [inputs, inputsOf, hlt]
  obtain ⟨s', hloop, rfl⟩ := forM_range (n := c.numVars)
    (f := fun k => lift (c.net.hold k (xs.getD k 0))) (P := fun k s' => s' = s.holding k xs)
    (fun k hk s' hs' => by
      have hle := h.le_size
      subst hs'
      rw [← Signals.update_holding (by omega)]
      refine ⟨_, adaptExcept_of_ok ?_, rfl⟩
      unfold Netlist.hold
      rw [h.input k hk]
      rfl) (Signals.holding_zero xs s).symm
  rw [write_vector hxs]
  show forM (c.inputs.zip xs) (fun p => lift (c.net.hold p.1 p.2)) s = _
  rw [hzip, List.forM_map]
  exact hloop

/-- Of pristine signals nothing is left when the inputs are written. -/
theorem Complete.holding_of_pristine (h : c.Complete lines) (hsize : s.cells.size = c.net.size)
    (hs : s.Pristine c.net) (xs : List R) :
    s.holding c.numVars xs = (c.signals : Signals R).holding c.numVars xs := by
  have hfresh := c.size_signals (R := R)
  refine Signals.ext_cell (by simp [hsize, hfresh]) fun r hr => ?_
  rw [Signals.size_holding] at hr
  have hlt : r < c.net.size := hsize ▸ hr
  rw [Signals.cell_holding _ xs hr, Signals.cell_holding _ xs (hfresh ▸ hlt), hs.cell_eq hlt,
    c.pristine_signals.cell_eq hlt]
  by_cases hrn : r < c.numVars
  · rw [if_pos hrn, if_pos hrn]
  · have hinput := (h.net_closed.readable hlt).isInput_eq_false (Nat.le_of_not_lt hrn)
    rw [if_neg hrn, if_neg hrn, hs.signal r hlt hinput, c.pristine_signals.signal r hlt hinput]

/-- From pristine signals, writing gives what it gives on an untouched circuit. -/
theorem Complete.write_of_pristine (h : c.Complete lines) (hxs : xs.length = c.numVars)
    (hsize : s.cells.size = c.net.size) (hs : s.Pristine c.net) :
    c.write (.vector xs) s = c.write (.vector xs) c.signals := by
  rw [write_ok h.net_closed.sound hxs hsize, write_ok h.net_closed.sound hxs c.size_signals,
    h.holding_of_pristine hsize hs]

/-- From pristine signals, the cost is evaluated as on an untouched circuit. -/
theorem Complete.costAt_of_pristine (h : c.Complete lines) (hxs : xs.length = c.numVars)
    (hsize : s.cells.size = c.net.size) (hs : s.Pristine c.net) :
    c.costAt (.vector xs) s = c.costAt (.vector xs) c.signals := by
  unfold costAt
  rw [bind_apply, bind_apply, h.write_of_pristine hxs hsize hs]

/-! ### Evaluating -/

/-- Where everything that is known is right, the total cost is the sum of the costs of the clauses.  It keeps
what storing values keeps, and the roots are known afterwards. -/
theorem Complete.totalCost_ok (h : c.Complete lines) {xs : Nat → R} {I : Signals R → Prop}
    (hI : c.net.Stores c.numVars I) (hright : ∀ s, I s → s.Shows c.net c.numVars xs) (hs : I s) :
    ∃ s', c.totalCost s =
        .ok (c.roots.foldl (fun total root => total + c.net.meaning c.numVars xs root) 0) s' ∧
      I s' ∧ ∀ root ∈ c.roots, (s'.cell root).signal.isSome = true := by
  have hsound := h.net_closed.sound
  obtain ⟨s', hok, hs', hroots, -⟩ := foldlM_all (l := c.roots) (f := fun total root => do
      return total + (← lift (c.net.evaluate root)))
    (g := fun total root => total + c.net.meaning c.numVars xs root) (P := I)
    (Q := fun root s => (s.cell root).signal.isSome = true) (fun root hroot total s₁ hs₁ => by
      have hread := h.readable_root hroot
      obtain ⟨x, s₂, hok, hs₂, hx, hmono⟩ := hI.evaluate hsound hs₁ hread
      refine ⟨s₂, ?_, hs₂, by rw [hx]; rfl, hmono⟩
      rw [← (hright s₂ hs₂).known root hread x hx, lift, bind_of_ok (adaptExcept_of_ok hok)]
      rfl) 0 hs
  exact ⟨s', hok, hs', hroots⟩

/-- Where nothing but the inputs is known, the cost at a vector of the right length is evaluated. -/
theorem Complete.costAt_ok (h : c.Complete lines) (hxs : xs.length = c.numVars) (hs : s.Blank c.net) :
    ∃ s', c.costAt (.vector xs) s = .ok (c.roots.foldl (fun total root =>
        total + c.net.meaning c.numVars (fun k => xs.getD k 0) root) 0) s' ∧
      s'.Shows c.net c.numVars (fun k => xs.getD k 0) ∧ (s.holding c.numVars xs).SameGradients s' := by
  have hsound := h.net_closed.sound
  obtain ⟨s', hcost, ⟨hs', hsame⟩, -⟩ := h.totalCost_ok (Netlist.stores_shows hsound) (fun _ => And.left)
    ⟨hs.shows_holding hsound xs, .refl _⟩
  exact ⟨s', (bind_of_ok (write_ok hsound hxs hs.size) _).trans hcost, hs', hsame⟩

/-- Where everything that is known is right, the truth values of the clauses are. -/
theorem Complete.truths_ok (h : c.Complete lines) {xs : Nat → R} (hs : s.Shows c.net c.numVars xs) :
    ∃ s', c.roots.mapM (fun root => lift (c.net.truth root)) s = .ok (c.roots.map (c.clauseTruth xs)) s' ∧
      s'.Shows c.net c.numVars xs := by
  refine mapM_ok (fun root hroot s₁ hs₁ => ?_) hs
  obtain ⟨a, ha⟩ := (h.mem_roots root).mp hroot
  have hread := (h.readable_root hroot).operands h.net_closed.sound a (by simp [Netlist.operands, ha])
  obtain ⟨s₂, hok, hs₂, -⟩ := Netlist.evaluate_ok h.net_closed.sound hs₁ hread
  refine ⟨s₂, adaptExcept_of_ok ?_, hs₂⟩
  unfold Netlist.truth clauseTruth
  rw [ha]
  exact hok

/-- Where nothing but the inputs is known, the clauses have the truth values of their formulas. -/
theorem Complete.clauseValues_ok (h : c.Complete lines) (hxs : xs.length = c.numVars) (hs : s.Blank c.net) :
    ∃ s', c.clauseValues (.vector xs) s = .ok (c.roots.map (c.clauseTruth fun k => xs.getD k 0)) s' := by
  have hsound := h.net_closed.sound
  obtain ⟨s₁, htruths, -⟩ := h.truths_ok (hs.shows_holding hsound xs)
  exact ⟨_, (bind_of_ok (write_ok hsound hxs hs.size) _).trans ((bind_of_ok htruths _).trans rfl)⟩

/-! ### From any values

Whatever is known beside the inputs, and whether it is right or not, propagation returns. -/

/-- The total cost is evaluated wherever the inputs hold values. -/
theorem Sealed.totalCost_returns (h : c.Sealed) (hs : s.Grounded c.net c.numVars) :
    ∃ cost s', c.totalCost s = .ok cost s' ∧ s'.Grounded c.net c.numVars := by
  refine foldlM_returns (fun root hroot total s₁ hs₁ => ?_) 0 hs
  obtain ⟨x, s₂, hok, hs₂⟩ := Netlist.evaluate_returns h.net_closed.sound hs₁ (h.readable_root hroot)
  refine ⟨total + x, s₂, ?_, hs₂.grounded⟩
  rw [lift, bind_of_ok (adaptExcept_of_ok hok)]
  rfl

/-- The cost at a vector of the right length is evaluated. -/
theorem Sealed.costAt_returns (h : c.Sealed) (hxs : xs.length = c.numVars)
    (hs : s.Grounded c.net c.numVars) :
    ∃ cost s', c.costAt (.vector xs) s = .ok cost s' ∧ s'.Grounded c.net c.numVars := by
  have hsound := h.net_closed.sound
  obtain ⟨cost, s', hok, hs'⟩ := h.totalCost_returns (Signals.grounded_holding hsound hs.size xs)
  exact ⟨cost, s', (bind_of_ok (write_ok hsound hxs hs.size) _).trans hok, hs'⟩

/-- The truth of a clause is evaluated wherever the inputs hold values. -/
theorem Sealed.truth_returns (h : c.Sealed) {root : Ref} (hroot : root ∈ c.roots)
    (hs : s.Grounded c.net c.numVars) :
    ∃ x s', lift (c.net.truth root) s = .ok x s' ∧ s'.Grounded c.net c.numVars := by
  have hsound := h.net_closed.sound
  obtain ⟨a, ha⟩ := h.roots root hroot
  have hread := (h.readable_root hroot).operands hsound a (by simp [Netlist.operands, ha])
  obtain ⟨x, s', hok, hs'⟩ := Netlist.evaluate_returns hsound hs hread
  refine ⟨x, s', adaptExcept_of_ok ?_, hs'.grounded⟩
  unfold Netlist.truth
  rw [ha]
  exact hok

/-- The truth values at a vector of the right length are evaluated. -/
theorem Sealed.clauseValues_returns (h : c.Sealed) (hxs : xs.length = c.numVars)
    (hs : s.Grounded c.net c.numVars) :
    ∃ truths s', c.clauseValues (.vector xs) s = .ok truths s' ∧ s'.Grounded c.net c.numVars := by
  have hsound := h.net_closed.sound
  obtain ⟨truths, s', hok, hs'⟩ := mapM_returns (fun root hroot _ hs => h.truth_returns hroot hs)
    (Signals.grounded_holding hsound hs.size xs)
  exact ⟨truths, _, (bind_of_ok (write_ok hsound hxs hs.size) _).trans ((bind_of_ok hok _).trans rfl),
    h.grounded_reset hs'⟩

/-- The gradient is pulled wherever the inputs hold values. -/
theorem Sealed.gradient_returns (h : c.Sealed) (hs : s.Grounded c.net c.numVars) :
    ∃ entries s', c.gradient s = .ok entries s' ∧ s'.Grounded c.net c.numVars := by
  obtain ⟨entries, s', hok, hs'⟩ := mapM_returns (l := c.inputs)
    (f := fun leaf => lift (c.net.inputGradient leaf)) (P := Signals.Grounded c.net c.numVars)
    (fun i hi s hs => by
      obtain ⟨s', hpull, hs', -⟩ := h.net_closed.inputGradient_ok h.net_closed.settles_grounded hs
        (List.mem_range.mp hi)
      exact ⟨_, s', adaptExcept_of_ok hpull, hs'⟩) hs
  exact ⟨entries, _, (bind_of_ok hok _).trans rfl, h.grounded_reset hs'⟩

/-- A gradient has an entry for each variable. -/
theorem length_of_gradient {entries : List R} (hok : c.gradient s = .ok entries s') :
    entries.length = c.numVars := by
  obtain ⟨entries', s₁, hpull, hok⟩ := of_bind_ok hok
  cases hok
  rw [length_of_mapM_ok hpull, inputs, inputsOf, List.length_range]

theorem Complete.gradient_returns (h : c.Complete lines) (hs : s.Grounded c.net c.numVars) :
    ∃ entries s', c.gradient s = .ok entries s' ∧ s'.Grounded c.net c.numVars := h.sealed.gradient_returns hs

/-! ### Assignments -/

section Assignments

variable {R : Type} [Numeric R] {c : Circuit} {s s' : Signals R} {bits : List Bool}

/-- There is a value for each bit. -/
theorem length_certain (bits : List Bool) : (bits.map (Numeric.certain (R := R))).length = bits.length :=
  List.length_map _

/-- An assignment is judged by the truth values at its values. -/
theorem satisfiedBy_of_clauseValues {truths : List R}
    (h : c.clauseValues (.vector (bits.map Numeric.certain)) s = .ok truths s') :
    c.satisfiedBy (.vector bits) s = .ok (truths.all (· == 1)) s' := by
  unfold satisfiedBy
  rw [Tensor.map_vector, bind_of_ok h]
  rfl

end Assignments

end Circuit

end SoftLogic
