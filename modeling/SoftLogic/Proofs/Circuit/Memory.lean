import SoftLogic.Proofs.Circuit.Propagation
import SoftLogic.Proofs.Circuit.Session
import SoftLogic.Proofs.Scalar
import SoftLogic.Proofs.Tensor

/-!
# What a circuit remembers

A cost leaves its signals behind until the next reset.  Writing other values does not drop them, so whatever is
evaluated in between is what it was at the values of that cost.  `Session.remembered` follows the calls and says
which values these are, and `Session.evaluators_after` what the evaluators answer: what an untouched copy answers
at the values remembered, and at their own argument if none are.
-/

namespace SoftLogic

open Effect

/-! ### Nodes and their operands -/

/-- No node is known before its operands. -/
def Signals.Backed {R : Type} [Scalar R] (net : Netlist) (s : Signals R) : Prop :=
  ∀ r : Nat, (s.cell r).signal.isSome = true → ∀ d ∈ net.operands r, (s.cell d).signal.isSome = true

section Backed

variable {R : Type} [Scalar R] {net : Netlist} {n : Nat} {s : Signals R}

/-- The inputs read nothing. -/
theorem Signals.Blank.backed (hs : s.Blank net) : s.Backed net := by
  intro r hr d hd
  by_cases hlt : r < net.size
  · cases hinput : (net.gate r).isInput with
    | false =>
      rw [hs.signal r hlt hinput] at hr
      cases hr
    | true =>
      unfold Netlist.operands at hd
      cases hg : net.gate r <;> simp [hg, Gate.isInput, Gate.operands] at hinput hd
  · have hsize := hs.size
    rw [cell, Array.getD_eq_getD_getElem?, Array.getElem?_eq_none (by omega)] at hr
    cases hr

namespace Netlist

theorem stores_backed (h : net.Sound n) :
    net.Stores n fun s : Signals R => s.Grounded net n ∧ s.Backed net := by
  refine ⟨fun s hs => hs.1.size, ?_⟩
  rintro r s hr ⟨hs, hbacked⟩ hnone hall
  obtain ⟨x, hx, hfollows⟩ := (stores_follows h s).step r s hr hs.refl hnone hall
  refine ⟨x, hx, hfollows.grounded, ?_⟩
  -- nothing that was known is forgotten
  have hmono : ∀ q, (s.cell q).signal.isSome = true →
      ((s.update r fun c => { c with signal := some x }).cell q).signal.isSome = true := by
    intro q hq
    rw [Signals.cell_update s r q _ (hs.size ▸ hr.lt_size h)]
    split
    · rfl
    · exact hq
  intro q hq d hd
  by_cases hqr : q = r
  · exact hmono d (hall d (hqr ▸ hd))
  · rw [Signals.cell_update_of_ne s _ hqr] at hq
    exact hmono d (hbacked q hq d hd)

end Netlist

end Backed

namespace Circuit

section Evaluate

variable {R : Type} [Scalar R] {c : Circuit} {lines : List String} {s : Signals R} {xs : List R}
  {held : Option (List R)}

/-- The signals remember values: each root, and the node that it reads, carries what it has at them.  If there are
none to remember, the signals are pristine. -/
structure Remembers (c : Circuit) (held : Option (List R)) (s : Signals R) : Prop where
  grounded : s.Grounded c.net c.numVars
  pristine : held = none → s.Pristine c.net
  length : ∀ ys ∈ held, ys.length = c.numVars
  carries : ∀ ys ∈ held, ∀ root ∈ c.roots, ∀ r ∈ root :: c.net.operands root,
    (s.cell r).signal = some (c.net.meaning c.numVars (fun k => ys.getD k 0) r)

/-- The sum of the costs of the clauses when the inputs hold `xs`. -/
noncomputable def total (c : Circuit) (xs : Nat → R) : R :=
  c.roots.foldl (fun total root => total + c.net.meaning c.numVars xs root) 0

/-- A root and what it reads can be evaluated and are no inputs. -/
theorem Complete.clause_node (h : c.Complete lines) {root r : Ref} (hroot : root ∈ c.roots)
    (hr : r ∈ root :: c.net.operands root) :
    c.net.Readable c.numVars r ∧ (c.net.gate r).isInput = false := by
  obtain ⟨a, ha⟩ := (h.mem_roots root).mp hroot
  cases h.readable_root hroot with
  | input hk =>
    rw [h.net_closed.sound.input root hk] at ha
    cases ha
  | formula hd => exact absurd ha (hd.gate_ne_cost a)
  | @root b f hg hd =>
    rcases List.mem_cons.mp hr with rfl | hr
    · exact ⟨.root hg hd, by rw [hg]; rfl⟩
    · obtain rfl : r = b := by simpa [Netlist.operands, hg] using hr
      exact ⟨.formula hd, hd.isInput_eq_false⟩

theorem Complete.remembers_signals (h : c.Complete lines) : c.Remembers none (c.signals : Signals R) :=
  ⟨h.sealed.grounded_signals, fun _ => c.pristine_signals, nofun, nofun⟩

/-- A reset forgets. -/
theorem Complete.remembers_reset (h : c.Complete lines) (hs : s.Grounded c.net c.numVars) :
    c.Remembers none (c.net.reset c.inputs s) :=
  ⟨h.grounded_reset hs, fun _ => (h.fits hs.size).pristine_reset h.net_closed.sound, nofun, nofun⟩

/-- Writing the inputs changes nothing about what is remembered. -/
theorem Remembers.carries_holding (hs : c.Remembers held s) (h : c.Complete lines) (xs : List R) :
    ∀ ys ∈ held, ∀ root ∈ c.roots, ∀ r ∈ root :: c.net.operands root,
      ((s.holding c.numVars xs).cell r).signal =
        some (c.net.meaning c.numVars (fun k => ys.getD k 0) r) := by
  intro ys hys root hroot r hr
  obtain ⟨hread, hinput⟩ := h.clause_node hroot hr
  rw [Signals.signal_holding_of_not_input h.net_closed.sound hs.grounded.size xs
    (hread.lt_size h.net_closed.sound) hinput]
  exact hs.carries ys hys root hroot r hr

/-- Where nothing but the inputs is known, a cost leaves right signals, and none at a node before its operands. -/
theorem Complete.costAt_backed (h : c.Complete lines) (hxs : xs.length = c.numVars) (hs : s.Blank c.net) :
    ∃ s', c.costAt (.vector xs) s = .ok (c.total fun k => xs.getD k 0) s' ∧
      (s'.Shows c.net c.numVars fun k => xs.getD k 0) ∧ s'.Backed c.net ∧
      ∀ root ∈ c.roots, (s'.cell root).signal.isSome = true := by
  have hsound := h.net_closed.sound
  obtain ⟨s', hcost, ⟨⟨hshows, -⟩, -, hbacked⟩, hroots⟩ :=
    h.totalCost_ok ((Netlist.stores_shows hsound).and (Netlist.stores_backed hsound)) (fun _ hs => hs.1.1)
      ⟨⟨hs.shows_holding hsound xs, .refl _⟩, Signals.grounded_holding hsound hs.size xs,
        (hs.holding hsound xs).backed⟩
  exact ⟨s', (bind_of_ok (write_ok hsound hxs hs.size) _).trans hcost, hshows, hbacked, hroots⟩

/-- Where nothing is remembered, a cost is remembered, and no node is known before its operands. -/
theorem Complete.remembers_costAt_of_none (h : c.Complete lines) (hxs : xs.length = c.numVars)
    (hs : c.Remembers none s) :
    ∃ s', c.costAt (.vector xs) s = .ok (c.total fun k => xs.getD k 0) s' ∧ c.Remembers (some xs) s' ∧
      (∀ k < c.numVars, (s'.cell k).signal = some (xs.getD k 0)) ∧ s'.Backed c.net := by
  obtain ⟨s', hcost, hshows, hbacked, hroots⟩ := h.costAt_backed hxs ((hs.pristine rfl).blank hs.grounded.size)
  refine ⟨s', hcost, ⟨hshows.grounded, fun hnone => absurd hnone (Option.some_ne_none xs), ?_, ?_⟩, hshows.held, hbacked⟩
  · rintro ys ⟨⟩
    exact hxs
  · rintro ys ⟨⟩ root hroot r hr
    -- a root is known now, and so its operand is
    have hknown : (s'.cell r).signal.isSome = true := by
      rcases List.mem_cons.mp hr with rfl | hr
      · exact hroots _ hroot
      · exact hbacked root (hroots root hroot) r hr
    obtain ⟨y, hy⟩ := Option.isSome_iff_exists.mp hknown
    rw [hy, hshows.known r (h.clause_node hroot hr).1 y hy]

/-- What is remembered outlives a further cost, which is the same and only writes the inputs. -/
theorem Complete.remembers_costAt_of_some (h : c.Complete lines) (hxs : xs.length = c.numVars) {ys : List R}
    (hs : c.Remembers (some ys) s) :
    c.costAt (.vector xs) s = .ok (c.total fun k => ys.getD k 0) (s.holding c.numVars xs) ∧
      c.Remembers (some ys) (s.holding c.numVars xs) := by
  have hsound := h.net_closed.sound
  have hsize := hs.grounded.size
  have hcarries := hs.carries_holding h xs
  obtain ⟨s', hcost, rfl⟩ := foldlM_ok (l := c.roots)
    (f := fun total root => do return total + (← lift (c.net.evaluate root)))
    (g := fun total root => total + c.net.meaning c.numVars (fun k => ys.getD k 0) root)
    (P := fun s' => s' = s.holding c.numVars xs) (fun root hroot total s₁ hs₁ => by
      subst hs₁
      refine ⟨_, ?_, rfl⟩
      have hok : c.net.evaluate root (s.holding c.numVars xs) = .ok _ _ :=
        Netlist.evaluate_of_known (hcarries ys rfl root hroot root List.mem_cons_self)
      rw [lift, bind_of_ok (adaptExcept_of_ok hok)]
      rfl) 0 rfl
  exact ⟨(bind_of_ok (write_ok hsound hxs hsize) _).trans hcost,
    Signals.grounded_holding hsound hsize xs, fun hnone => absurd hnone (Option.some_ne_none ys), hs.length,
    hcarries⟩

/-- A cost is the one at the values remembered, and these are still remembered afterwards; if there are none, it is the
one at its own values, which are remembered then. -/
theorem Complete.remembers_costAt (h : c.Complete lines) (hxs : xs.length = c.numVars)
    (hs : c.Remembers held s) :
    ∃ s', c.costAt (.vector xs) s = .ok (c.total fun k => (held.getD xs).getD k 0) s' ∧
      c.Remembers (held.or (some xs)) s' := by
  cases held with
  | none =>
    obtain ⟨s', hcost, hs', -⟩ := h.remembers_costAt_of_none hxs hs
    exact ⟨s', hcost, hs'⟩
  | some ys => exact ⟨_, h.remembers_costAt_of_some hxs hs⟩

/-- When the inputs have been written, the truth values of the clauses are those at the values remembered. -/
theorem Complete.remembers_truths (h : c.Complete lines) (hs : c.Remembers held s) (xs : List R) :
    ∃ s', c.roots.mapM (fun root => lift (c.net.truth root)) (s.holding c.numVars xs) =
      .ok (c.roots.map (c.clauseTruth fun k => (held.getD xs).getD k 0)) s' ∧ s'.Grounded c.net c.numVars := by
  have hsound := h.net_closed.sound
  have hsize := hs.grounded.size
  cases held with
  | none =>
    obtain ⟨s', hok, hs'⟩ := h.truths_ok (((hs.pristine rfl).blank hsize).shows_holding hsound xs)
    exact ⟨s', hok, hs'.grounded⟩
  | some ys =>
    -- everything asked for is known, so nothing is evaluated
    obtain ⟨s', hok, rfl⟩ := mapM_ok (l := c.roots) (f := fun root => lift (c.net.truth root))
      (g := c.clauseTruth fun k => ys.getD k 0) (P := fun s' => s' = s.holding c.numVars xs)
      (fun root hroot s₁ hs₁ => by
        subst hs₁
        obtain ⟨a, ha⟩ := (h.mem_roots root).mp hroot
        have hknown := hs.carries_holding h xs ys rfl root hroot a (by simp [Netlist.operands, ha])
        refine ⟨_, adaptExcept_of_ok ?_, rfl⟩
        unfold Netlist.truth clauseTruth
        rw [ha]
        exact Netlist.evaluate_of_known hknown) rfl
    exact ⟨_, hok, Signals.grounded_holding hsound hsize xs⟩

/-- The truth values of the clauses are those at the values remembered, and nothing is remembered afterwards. -/
theorem Complete.remembers_clauseValues (h : c.Complete lines) (hxs : xs.length = c.numVars)
    (hs : c.Remembers held s) :
    ∃ s', c.clauseValues (.vector xs) s =
        .ok (c.roots.map (c.clauseTruth fun k => (held.getD xs).getD k 0)) s' ∧ c.Remembers none s' := by
  obtain ⟨s', hok, hs'⟩ := h.remembers_truths hs xs
  exact ⟨_, (bind_of_ok (write_ok h.net_closed.sound hxs hs.grounded.size) _).trans
    ((bind_of_ok hok _).trans rfl), h.remembers_reset hs'⟩

/-- Values are refused, or they are a vector of the right length. -/
theorem vector?_cases {S : Type} (c : Circuit) (values : Tensor S) :
    (∃ e, c.vector? values = .error e) ∨
      ∃ ys : List S, ys.length = c.numVars ∧ values = .vector ys ∧ c.vector? values = .ok ys := by
  unfold vector?
  match hshape : values.shape with
  | .error e => exact .inl ⟨_, rfl⟩
  | .ok shape =>
    simp only
    split
    · next hn =>
      obtain ⟨ys, hys, rfl⟩ := Tensor.eq_vector_of_shape (hn ▸ hshape)
      exact .inr ⟨ys, hys, rfl, by rw [Tensor.entries_vector]⟩
    · exact .inl ⟨_, rfl⟩

/-- Refused values change nothing. -/
theorem costAt_of_refused {values : Tensor R} {e : Refusal} (he : c.vector? values = .error e) :
    c.costAt values s = .error e s := by
  unfold costAt write
  rw [he]
  rfl

/-- Refused values change nothing. -/
theorem clauseValues_of_refused {values : Tensor R} {e : Refusal} (he : c.vector? values = .error e) :
    c.clauseValues values s = .error e s := by
  unfold clauseValues write
  rw [he]
  rfl

/-- The gradient is pulled, and nothing is remembered afterwards. -/
theorem Complete.remembers_gradient (h : c.Complete lines) (hs : s.Grounded c.net c.numVars) :
    ∃ entries s', c.gradient s = .ok entries s' ∧ c.Remembers none s' := by
  obtain ⟨entries, s', hok, hs'⟩ := h.gradient_returns hs
  exact ⟨entries, s', hok, hs',
    fun _ => h.wired.restores_gradient.pristine _ _ _ (h.fits hs.size) hok, nofun, nofun⟩

end Evaluate

section Checks

variable {R : Type} [Numeric R] {c : Circuit} {lines : List String} {s : Signals R} {xs : List R}

/-- A difference quotient starts and ends without anything to remember, also when its step is refused. -/
theorem Complete.keeps_centralDifference (h : c.Complete lines) (hxs : xs.length = c.numVars) (eps : R)
    (i : Nat) : Keeps (c.Remembers none) (c.centralDifference xs eps i) := by
  intro s hs
  have hstepped : ∀ f : R → R → R, (xs.zipWith f (stepVector xs.length i eps)).length = c.numVars :=
    fun f => (length_stepped f xs i eps).trans hxs
  obtain ⟨s₁, hcost₁, hs₁⟩ := h.remembers_costAt (hstepped (· + ·)) hs
  obtain ⟨s₂, hcost₂, hs₂⟩ := h.remembers_costAt (hstepped (· - ·)) (h.remembers_reset hs₁.grounded)
  have hreset : ∀ s : Signals R, c.reset s = .ok () (c.net.reset c.inputs s) := fun _ => rfl
  unfold centralDifference
  rw [bind_of_ok hcost₁, bind_of_ok (hreset s₁), bind_of_ok hcost₂, bind_of_ok (hreset s₂)]
  exact still_quotient _ _ _ _ (h.remembers_reset hs₂.grounded)

/-- After its first reset, the check of a gradient keeps nothing to remember. -/
theorem Complete.keeps_costAndGradient (h : c.Complete lines) (values : Tensor R) :
    Keeps (c.Remembers none) (c.costAt values >>= fun cost => do return (cost, ← c.gradient)) := by
  intro s hs
  rcases vector?_cases c values with ⟨e, he⟩ | ⟨ys, hys, rfl, -⟩
  · rw [bind_apply, costAt_of_refused he]
    exact hs
  · obtain ⟨s₁, hcost, hs₁⟩ := h.remembers_costAt hys hs
    obtain ⟨entries, s₂, hgradient, hs₂⟩ := h.remembers_gradient hs₁.grounded
    rw [bind_of_ok hcost, bind_of_ok hgradient]
    exact hs₂

end Checks

end Circuit

/-! ### Calls -/

section Calls

variable {R : Type} [Numeric R]

/-- The values remembered after a call, if `held` are those remembered before it. -/
def Call.remembered (c : Circuit) (held : Option (List R)) : Call R → Option (List R)
  | .forward values => held.or (c.vector? values).toOption
  | .clauseTruths values => if (c.vector? values).isOk then none else held
  | .satisfied assignment => if (c.vector? (assignment.map (Numeric.certain (R := R)))).isOk then none else held
  | .differenceGradient values _ => if values.shape.isOk then none else held
  | .build _ => held
  | .backward | .reset | .costAndGradient _ => none

namespace Session

/-- The values remembered after calls on an untouched circuit. -/
def remembered (c : Circuit) (calls : List (Call R)) : Option (List R) := calls.foldl (Call.remembered c) none

variable {c : Circuit} {lines : List String} {held : Option (List R)} {s : Signals R}

omit [Numeric R] in
theorem keeps_finish {α : Type} {I : Signals R → Prop} {x : CircuitM R α} (hx : Keeps I x) (hs : I s) :
    I (finish c (x s)).2.signals := by
  match hxs : x s with
  | .ok a s' => exact hx.ok hs hxs
  | .error e s' => exact hx.error hs hxs

omit [Numeric R] in
theorem finish_bind_pure {α β : Type} (x : CircuitM R α) (f : α → β) (s : Signals R) :
    (finish c ((x >>= fun a => pure (f a)) s)).2 = (finish c (x s)).2 := by
  rw [bind_apply]
  cases x s <;> rfl

/-- What starts with a reset and then has nothing to remember leaves nothing to remember. -/
theorem remembers_after_reset {α : Type} {x : CircuitM R α} (h : c.Complete lines) (hs : c.Remembers held s)
    (hx : Keeps (c.Remembers none) x) :
    c.Remembers none (finish c ((c.reset >>= fun _ => x) s)).2.signals := by
  show c.Remembers none (finish c (x (c.net.reset c.inputs s))).2.signals
  exact keeps_finish hx (h.remembers_reset hs.grounded)

theorem remembers_differenceGradient (h : c.Complete lines) (hs : c.Remembers held s) (values : Tensor R)
    (eps : R) : c.Remembers ((Call.differenceGradient values eps).remembered c held)
      (finish c (c.differenceGradient values eps s)).2.signals := by
  show c.Remembers (if values.shape.isOk then none else held) _
  unfold Circuit.differenceGradient
  rcases Circuit.vector?_cases c values with ⟨e, he⟩ | ⟨ys, hys, rfl, hok⟩
  · rw [he]
    cases values.shape with
    | error e => exact hs
    | ok shape =>
      have hthrow : Keeps (c.Remembers none) (throw e : CircuitM R (List R)) := keeps_throw e
      refine remembers_after_reset h hs ?_
      by_cases hempty : values.entries.isEmpty = true
      · rw [if_pos hempty]
        exact keeps_pure []
      · rw [if_neg hempty]
        by_cases hshape : shape = []
        · rw [if_pos hshape]
          exact (keeps_throw Refusal.noPlaces).bind fun _ => hthrow
        · rw [if_neg hshape]
          exact hthrow
  · rw [Tensor.shape_vector, hok]
    refine remembers_after_reset h hs ?_
    by_cases hempty : (Tensor.vector ys).entries.isEmpty = true
    · rw [if_pos hempty]
      exact keeps_pure []
    · rw [if_neg hempty, if_neg (List.cons_ne_nil _ _)]
      exact keeps_mapM fun i _ => h.keeps_centralDifference hys eps i

/-- A call on the signals leaves them remembering what it should. -/
theorem remembers_call (h : c.Complete lines) {t : Session R} (ht : t.circuit = c)
    (hs : c.Remembers held t.signals) {call : Call R} (hcall : call.onSignals = true) :
    c.Remembers (call.remembered c held) (t.call call).2.signals := by
  obtain ⟨c, s⟩ := t
  cases ht
  have hclauses : ∀ values : Tensor R, c.Remembers (if (c.vector? values).isOk then none else held)
      (finish c (c.clauseValues values s)).2.signals := by
    intro values
    rcases Circuit.vector?_cases c values with ⟨e, he⟩ | ⟨ys, hys, rfl, hok⟩
    · rw [Circuit.clauseValues_of_refused he, he]
      exact hs
    · obtain ⟨s', htruths, hs'⟩ := h.remembers_clauseValues hys hs
      rw [htruths, hok]
      exact hs'
  cases call with
  | build clause => cases hcall
  | forward values =>
    show c.Remembers (held.or (c.vector? values).toOption) (finish c (c.costAt values s)).2.signals
    rcases Circuit.vector?_cases c values with ⟨e, he⟩ | ⟨ys, hys, rfl, hok⟩
    · rw [Circuit.costAt_of_refused he, he, show (Except.error e : Except Refusal (List R)).toOption = none from rfl,
        Option.or_none]
      exact hs
    · obtain ⟨s', hcost, hs'⟩ := h.remembers_costAt hys hs
      rw [hcost, hok]
      exact hs'
  | backward =>
    obtain ⟨entries, s', hgradient, hs'⟩ := h.remembers_gradient hs.grounded
    show c.Remembers none (finish c (c.gradient s)).2.signals
    rw [hgradient]
    exact hs'
  | reset => exact h.remembers_reset hs.grounded
  | clauseTruths values => exact hclauses values
  | satisfied assignment =>
    show c.Remembers _ (finish c (c.satisfiedBy assignment s)).2.signals
    unfold Circuit.satisfiedBy
    rw [finish_bind_pure]
    exact hclauses _
  | costAndGradient values => exact remembers_after_reset h hs (h.keeps_costAndGradient values)
  | differenceGradient values eps => exact remembers_differenceGradient h hs values eps

/-- After calls on the signals, a session remembers what it should. -/
theorem remembers_after (h : c.Complete lines) {calls : List (Call R)}
    (hcalls : ∀ call ∈ calls, call.onSignals = true) :
    c.Remembers (remembered c calls) ((start c).after calls).signals := by
  have hfold : ∀ {held : Option (List R)} {t : Session R}, t.circuit = c → c.Remembers held t.signals →
      c.Remembers (calls.foldl (Call.remembered c) held) (t.after calls).signals := by
    induction calls with
    | nil => exact fun _ hs => hs
    | cons call calls ih =>
      intro held t ht hs
      have hcall := hcalls call List.mem_cons_self
      exact ih (fun call hcall => hcalls call (List.mem_cons_of_mem _ hcall))
        ((circuit_call t hcall).trans ht) (remembers_call h ht hs hcall)
  exact hfold rfl h.remembers_signals

/-- What the evaluators answer after any calls on the signals of an accepted circuit: what an untouched copy
answers at the values remembered.  If none are, this is what it answers at the argument. -/
theorem evaluators_after {p : Program} (hc : Circuit.ofProgram p = .ok c) {calls : List (Call R)}
    (hcalls : ∀ call ∈ calls, call.onSignals = true) :
    ((start c).after calls).circuit = c ∧
      (∀ xs : List R, xs.length = c.numVars → ∃ truths : List R,
        answer (c.clauseValues (.vector ((remembered c calls).getD xs)) c.signals) = some truths ∧
        answer (c.clauseValues (.vector xs) ((start c).after calls).signals) = some truths) ∧
      ∀ bits : List Bool, bits.length = c.numVars → ∃ truths : List R,
        answer (c.clauseValues (.vector ((remembered c calls).getD (bits.map Numeric.certain))) c.signals) =
          some truths ∧
        answer (c.satisfiedBy (.vector bits) ((start c).after calls).signals) =
          some (truths.all (· == 1)) := by
  obtain ⟨hcomplete, -⟩ := Circuit.complete_of_ofProgram hc
  have hremembers := remembers_after hcomplete hcalls
  have hclauses : ∀ xs : List R, xs.length = c.numVars → ∃ s s' truths,
      c.clauseValues (.vector ((remembered c calls).getD xs)) c.signals = .ok truths s ∧
      c.clauseValues (.vector xs) ((start c).after calls).signals = .ok truths s' := by
    intro xs hxs
    have hlength : ((remembered c calls).getD xs).length = c.numVars := by
      cases hheld : remembered c calls with
      | none => exact hxs
      | some ys => exact hremembers.length ys hheld
    obtain ⟨s, hfresh⟩ := hcomplete.clauseValues_ok hlength (c.pristine_signals.blank c.size_signals)
    obtain ⟨s', hafter, -⟩ := hcomplete.remembers_clauseValues hxs hremembers
    exact ⟨s, s', _, hfresh, hafter⟩
  refine ⟨circuit_after _ hcalls, fun xs hxs => ?_, fun bits hbits => ?_⟩
  · obtain ⟨s, s', truths, hfresh, hafter⟩ := hclauses xs hxs
    exact ⟨truths, by rw [hfresh]; rfl, by rw [hafter]; rfl⟩
  · obtain ⟨s, s', truths, hfresh, hafter⟩ := hclauses (bits.map Numeric.certain) (by rw [List.length_map, hbits])
    refine ⟨truths, by rw [hfresh]; rfl, ?_⟩
    unfold Circuit.satisfiedBy
    rw [Tensor.map_vector, bind_of_ok hafter]
    rfl

/-- After a cost at zero, an assignment is judged by the truth values at zero. -/
theorem evaluators_after_forward : ∃ (c : Circuit) (truths : List Extended),
    Circuit.ofProgram ⟨1, ["$0"]⟩ = .ok c ∧
      remembered c [.forward (.vector [.finite 0])] = some [Extended.finite 0] ∧
      answer (c.clauseValues (.vector [.finite 0]) c.signals) = some truths ∧
      answer (c.satisfiedBy (.vector [true])
        ((start c).after [.forward (.vector [Extended.finite 0])]).signals) = some (truths.all (· == 1)) := by
  have hcalls : ∀ call ∈ [Call.forward (.vector [Extended.finite 0])], call.onSignals = true := by
    simp [Call.onSignals]
  obtain ⟨-, -, hsatisfied⟩ := evaluators_after Circuit.ofProgram_atom hcalls
  have hremembered : remembered .atom [.forward (.vector [Extended.finite 0])] = some [.finite 0] := by
    have hvector : Circuit.atom.vector? (.vector [Extended.finite 0]) = .ok [.finite 0] :=
      Circuit.vector?_vector rfl
    show Option.or none (Circuit.atom.vector? (.vector [Extended.finite 0])).toOption = _
    rw [hvector]
    rfl
  obtain ⟨truths, hfresh, hafter⟩ := hsatisfied [true] rfl
  rw [hremembered] at hfresh
  exact ⟨_, truths, Circuit.ofProgram_atom, hremembered, hfresh, hafter⟩

/-- The clause `$0` is true when `$0` is, and after a cost at zero it is not. -/
theorem satisfiedBy_after_forward : ∃ c : Circuit, Circuit.ofProgram ⟨1, ["$0"]⟩ = .ok c ∧
    answer (c.satisfiedBy (.vector [true]) (c.signals : Signals Extended)) = some true ∧
    answer (c.satisfiedBy (.vector [true])
      ((start c).after [.forward (.vector [Extended.finite 0])]).signals) = some false := by
  refine ⟨.atom, Circuit.ofProgram_atom, ?_, ?_⟩
  · simp only [Circuit.satisfiedBy, Circuit.clauseValues, Tensor.map_vector, List.map_cons, List.map_nil]
    rw [Circuit.write_vector rfl]
    decide +kernel
  · show answer (Circuit.satisfiedBy _ _ (finish _ (Circuit.costAt _ _ _)).2.signals) = _
    simp only [Circuit.satisfiedBy, Circuit.clauseValues, Circuit.costAt, Tensor.map_vector, List.map_cons,
      List.map_nil]
    rw [Circuit.write_vector rfl, Circuit.write_vector rfl]
    decide +kernel

end Session

end Calls

end SoftLogic
