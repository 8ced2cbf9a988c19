import SoftLogic.Circuit.Differences
import SoftLogic.Proofs.Circuit.Construction
import SoftLogic.Proofs.Netlist.Pristine

/-!
# Sessions

A session is a circuit with its signals on which calls are made, one after the other and in any order.  A call
may be refused or may stop halfway, and what it changed before stays.  Whatever the calls were, a reset makes
the signals pristine, and so does every call that is meant to leave them so.
-/

namespace SoftLogic

open Effect

/-- A call on a circuit. -/
inductive Call (R : Type)
  | forward (values : Tensor R)
  | backward
  | reset
  | clauseTruths (values : Tensor R)
  | satisfied (assignment : Tensor Bool)
  | costAndGradient (values : Tensor R)
  | differenceGradient (values : Tensor R) (eps : R)
  | build (clause : String)

/-- Whether a call leaves the signals pristine if it returns. -/
def Call.restores {R : Type} : Call R → Bool
  | .forward _ | .build _ => false
  | _ => true

/-- Whether a call is one on the signals, which leaves the circuit as it is. -/
def Call.onSignals {R : Type} : Call R → Bool
  | .build _ => false
  | _ => true

/-- A circuit with its signals. -/
structure Session (R : Type) where
  circuit : Circuit
  signals : Signals R

namespace Session

variable {R : Type}

/-- What a computation on the signals makes of a session, and whether it returned. -/
def finish {α : Type} (c : Circuit) : EStateM.Result Refusal (Signals R) α → Bool × Session R
  | .ok _ s => (true, ⟨c, s⟩)
  | .error _ s => (false, ⟨c, s⟩)

variable [Numeric R]

/-- What a call makes of a session, and whether it returned. -/
def call (t : Session R) : Call R → Bool × Session R
  | .forward values => finish t.circuit (t.circuit.costAt values t.signals)
  | .backward => finish t.circuit (t.circuit.gradient t.signals)
  | .reset => finish t.circuit (t.circuit.reset t.signals)
  | .clauseTruths values => finish t.circuit (t.circuit.clauseValues values t.signals)
  | .satisfied assignment => finish t.circuit (t.circuit.satisfiedBy assignment t.signals)
  | .costAndGradient values => finish t.circuit (t.circuit.costAndGradient values t.signals)
  | .differenceGradient values eps => finish t.circuit (t.circuit.differenceGradient values eps t.signals)
  | .build clause =>
    let (outcome, c) := t.circuit.assemble clause
    (outcome.isOk, ⟨c, t.signals.extend c.net⟩)

/-- The session after calls. -/
def after (t : Session R) (calls : List (Call R)) : Session R := calls.foldl (fun t call => (t.call call).2) t

/-- The session of a circuit that nothing has touched. -/
def start (c : Circuit) : Session R := ⟨c, c.signals⟩

end Session

/-! ### Circuits with further clauses -/

/-- The wiring of a circuit whose clauses were accepted, and in whose registry further clauses were
assembled. -/
structure Circuit.Wired (c : Circuit) : Prop where
  reachable : c.registry.Reachable c.numVars
  roots : ∀ r ∈ c.roots, ∃ a, c.net.gate r = .cost a

namespace Circuit

variable {c : Circuit}

theorem Complete.wired {lines : List String} (h : c.Complete lines) : c.Wired :=
  ⟨h.reachable, fun r hr => (h.mem_roots r).mp hr⟩

theorem Wired.sound (h : c.Wired) : c.net.Sound c.numVars := h.reachable.sound.net

theorem Wired.root_ne_vacant (h : c.Wired) {r : Ref} (hr : r ∈ c.roots) : c.net.gate r ≠ .not none := by
  obtain ⟨a, ha⟩ := h.roots r hr
  rw [ha]
  exact Gate.noConfusion

/-- A further clause adds nodes and keeps the variables and the roots. -/
theorem Wired.assemble (h : c.Wired) (clause : String) : (c.assemble clause).2.Wired ∧
    c.registry.Extends (c.assemble clause).2.registry := by
  have hextends : c.registry.Extends (c.assemble clause).2.registry := by
    unfold Circuit.assemble
    match hassemble : Assembly.assemble c.numVars (sigmoidOf c.numVars) clause c.registry with
    | .ok root reg =>
      obtain ⟨_, _, _, _, hcompletes⟩ := Assembly.read_of_assemble h.reachable.sound hassemble
      exact hcompletes.extends_start
    | .error e reg => exact (Assembly.sound_of_rejected h.reachable.sound hassemble).2
  refine ⟨⟨?_, ?_⟩, hextends⟩
  · rw [numVars_assemble]
    exact reachable_assemble h.reachable clause
  · intro r hr
    rw [roots_assemble] at hr
    obtain ⟨a, ha⟩ := h.roots r hr
    have hlt : r < c.registry.size := Netlist.lt_size_of_gate fun hplain => by
      rw [show c.registry.net.gate r = .cost a from ha] at hplain
      cases hplain
    exact ⟨a, (hextends.gate_eq r hlt).trans ha⟩

variable {R : Type} [Scalar R] {s s' : Signals R}

/-! ### What computations on a circuit keep -/

theorem Wired.fits_write (values : Tensor R) : Keeps (Signals.Fits c.net) (c.write values) := by
  unfold write
  match c.vector? values with
  | .error e => exact keeps_throw e
  | .ok xs => exact keeps_forM fun p _ => (Netlist.fits_hold p.1 p.2).adaptExcept _

theorem Wired.fits_totalCost (h : c.Wired) : Keeps (Signals.Fits c.net) (c.totalCost : CircuitM R R) := by
  refine keeps_foldlM (fun r hr total => ?_) _
  exact ((Netlist.fits_evaluate h.sound (h.root_ne_vacant hr)).adaptExcept _).bind fun _ => keeps_pure _

theorem Wired.fits_costAt (h : c.Wired) (values : Tensor R) :
    Keeps (Signals.Fits c.net) (c.costAt values) := (fits_write values).bind fun _ => h.fits_totalCost

/-- The computation keeps signals that fit, and leaves them pristine if it succeeds. -/
structure Restores {α : Type} (c : Circuit) (x : CircuitM R α) : Prop where
  keeps : Keeps (Signals.Fits c.net) x
  pristine : ∀ a s s', s.Fits c.net → x s = .ok a s' → s'.Pristine c.net

/-- The computation changes nothing. -/
def Still {α : Type} (x : CircuitM R α) : Prop := ∀ I, Keeps I x

theorem Wired.restores_reset (h : c.Wired) : c.Restores (c.reset : CircuitM R Unit) := by
  refine ⟨fun _ hs => hs.reset c.inputs, fun a s s' hs hok => ?_⟩
  cases hok
  exact hs.pristine_reset h.sound

theorem Restores.of_bind {α β : Type} {x : CircuitM R α} {y : α → CircuitM R β}
    (hx : Keeps (Signals.Fits c.net) x) (hy : ∀ a, c.Restores (y a)) : c.Restores (x >>= y) := by
  refine ⟨hx.bind fun a => (hy a).keeps, fun b s s' hs hok => ?_⟩
  obtain ⟨a, s₁, hxs, hys⟩ := of_bind_ok hok
  exact (hy a).pristine b s₁ s' (hx.ok hs hxs) hys

theorem Restores.bind {α β : Type} {x : CircuitM R α} {y : α → CircuitM R β} (hx : c.Restores x)
    (hy : ∀ a, Still (y a)) : c.Restores (x >>= y) := by
  refine ⟨hx.keeps.bind fun a => hy a _, fun b s s' hs hok => ?_⟩
  obtain ⟨a, s₁, hxs, hys⟩ := of_bind_ok hok
  exact (hy a _).ok (hx.pristine a s s₁ hs hxs) hys

theorem Wired.restores_gradient (h : c.Wired) : c.Restores (c.gradient : CircuitM R (List R)) :=
  .of_bind (keeps_mapM fun r _ => (Netlist.fits_inputGradient h.sound r).adaptExcept _) fun gradient =>
    h.restores_reset.bind fun _ _ => keeps_pure gradient

theorem Wired.restores_clauseValues (h : c.Wired) (values : Tensor R) :
    c.Restores (c.clauseValues values) :=
  .of_bind (fits_write values) fun _ =>
    .of_bind (keeps_mapM fun r _ => (Netlist.fits_truth h.sound r).adaptExcept _) fun truths =>
      h.restores_reset.bind fun _ _ => keeps_pure truths

end Circuit

/-! ### Calls -/

section Calls

variable {R : Type} [Numeric R] {c : Circuit} {s s' : Signals R}

namespace Circuit

theorem Wired.restores_satisfiedBy (h : c.Wired) (assignment : Tensor Bool) :
    c.Restores (c.satisfiedBy assignment : CircuitM R Bool) :=
  (h.restores_clauseValues _).bind fun _ _ => keeps_pure _

theorem Wired.restores_costAndGradient (h : c.Wired) (values : Tensor R) :
    c.Restores (c.costAndGradient values) :=
  .of_bind h.restores_reset.keeps fun _ => .of_bind (h.fits_costAt values) fun _ =>
    h.restores_gradient.bind fun _ _ => keeps_pure _

theorem still_quotient (difference eps : R) : Still (quotient difference eps) := by
  intro I
  unfold quotient
  dsimp only
  split
  · exact keeps_throw _
  · exact keeps_pure _

/-- A step does not change the length of a vector. -/
theorem length_stepped (f : R → R → R) (xs : List R) (i : Nat) (eps : R) :
    (xs.zipWith f (stepVector xs.length i eps)).length = xs.length := by
  simp [stepVector]

theorem Wired.restores_centralDifference (h : c.Wired) (xs : List R) (eps : R) (i : Nat) :
    c.Restores (c.centralDifference xs eps i) :=
  .of_bind (h.fits_costAt _) fun _ => .of_bind h.restores_reset.keeps fun _ =>
    .of_bind (h.fits_costAt _) fun _ => h.restores_reset.bind fun _ => still_quotient _ _

/-- Each quotient ends with a reset, and without any quotient there is the reset at the start. -/
theorem Wired.restores_differenceGradient (h : c.Wired) (values : Tensor R) (eps : R) :
    c.Restores (c.differenceGradient values eps) := by
  have hquotients : ∀ xs : List R, c.Restores (c.reset >>= fun _ =>
      (List.range xs.length).mapM (c.centralDifference xs eps)) := by
    intro xs
    have hstep := h.restores_centralDifference xs eps
    refine ⟨h.restores_reset.keeps.bind fun _ => keeps_mapM fun i _ => (hstep i).keeps, ?_⟩
    intro bs s s' hs hok
    obtain ⟨_, s₁, hreset, hok⟩ := of_bind_ok hok
    -- pristine is what holds between the quotients, not within them
    refine (of_mapM_ok (J := fun s => s.Fits c.net ∧ s.Pristine c.net) (fun i _ s b s' hs hok => ?_)
      ⟨h.restores_reset.keeps.ok hs hreset, h.restores_reset.pristine _ _ _ hs hreset⟩ hok).2
    exact ⟨(hstep i).keeps.ok hs.1 hok, (hstep i).pristine b s s' hs.1 hok⟩
  have hthrow : ∀ e : Refusal, c.Restores (c.reset >>= fun _ => (throw e : CircuitM R (List R))) :=
    fun e => h.restores_reset.bind fun _ _ => keeps_throw e
  unfold differenceGradient
  match values.shape with
  | .error e => exact ⟨keeps_throw _, fun _ _ _ _ hok => by cases hok⟩
  | .ok shape =>
    simp only
    split
    · exact h.restores_reset.bind fun _ _ => keeps_pure []
    · split
      · exact hthrow .noPlaces
      · match c.vector? values with
        | .error e => exact hthrow e
        | .ok xs => exact hquotients xs

end Circuit

namespace Session

/-- What holds of a session at any time. -/
structure Ready (t : Session R) : Prop where
  wired : t.circuit.Wired
  fits : t.signals.Fits t.circuit.net

theorem ready_start (h : c.Wired) : (start c : Session R).Ready := by
  refine ⟨h, Signals.size_fresh c.net, fun r hr _ => Signals.cell_fresh hr⟩

theorem ready_finish {α : Type} {x : CircuitM R α} (h : c.Wired) (hx : Keeps (Signals.Fits c.net) x)
    (hs : s.Fits c.net) : (finish c (x s)).2.Ready := by
  match hxs : x s with
  | .ok a s' => exact ⟨h, hx.ok hs hxs⟩
  | .error e s' => exact ⟨h, hx.error hs hxs⟩

theorem pristine_finish {α : Type} {x : CircuitM R α} (hx : c.Restores x) (hs : s.Fits c.net)
    (hreturns : (finish c (x s)).1 = true) :
    (finish c (x s)).2.signals.Pristine (finish c (x s)).2.circuit.net := by
  match hxs : x s, hreturns with
  | .ok a s', _ => exact hx.pristine a s s' hs hxs

/-- The signals of a netlist that has grown still fit. -/
theorem fits_extend {reg : Registry} (h : c.registry.Extends reg) (hs : s.Fits c.net) :
    (s.extend reg.net).Fits reg.net := by
  have hle : c.net.size ≤ reg.net.size := h.size_le
  have hsize := hs.size
  constructor
  · exact Signals.size_extend (hsize ▸ hle)
  · intro r hr hvacant
    by_cases hold : r < c.net.size
    · have hgate : c.net.gate r = reg.net.gate r := (h.gate_eq r hold).symm
      rw [Signals.cell_extend _ (hsize ▸ hold), ← hgate]
      exact hs.vacant r hold (hgate.trans hvacant)
    · rw [Signals.cell_extend_of_le (by omega) hr]

/-- A call leaves a session ready, whether it returns or not. -/
theorem Ready.call {t : Session R} (h : t.Ready) (call : Call R) : (t.call call).2.Ready := by
  cases call with
  | forward values => exact ready_finish h.wired (h.wired.fits_costAt values) h.fits
  | backward => exact ready_finish h.wired h.wired.restores_gradient.keeps h.fits
  | reset => exact ready_finish h.wired h.wired.restores_reset.keeps h.fits
  | clauseTruths values => exact ready_finish h.wired (h.wired.restores_clauseValues values).keeps h.fits
  | satisfied bits => exact ready_finish h.wired (h.wired.restores_satisfiedBy bits).keeps h.fits
  | costAndGradient values =>
    exact ready_finish h.wired (h.wired.restores_costAndGradient values).keeps h.fits
  | differenceGradient values eps =>
    exact ready_finish h.wired (h.wired.restores_differenceGradient values eps).keeps h.fits
  | build clause =>
    obtain ⟨hwired, hextends⟩ := h.wired.assemble clause
    exact ⟨hwired, fits_extend hextends h.fits⟩

theorem Ready.after {t : Session R} (h : t.Ready) (calls : List (Call R)) : (t.after calls).Ready := by
  induction calls generalizing t with
  | nil => exact h
  | cons call calls ih => exact ih (h.call call)

omit [Numeric R] in
theorem circuit_finish {α : Type} (x : EStateM.Result Refusal (Signals R) α) : (finish c x).2.circuit = c := by
  cases x <;> rfl

theorem circuit_call (t : Session R) {call : Call R} (hcall : call.onSignals = true) :
    (t.call call).2.circuit = t.circuit := by
  cases call with
  | build clause => cases hcall
  | _ => exact circuit_finish _

/-- Calls on the signals leave the circuit as it is. -/
theorem circuit_after (t : Session R) {calls : List (Call R)} (hcalls : ∀ call ∈ calls, call.onSignals = true) :
    (t.after calls).circuit = t.circuit := by
  induction calls generalizing t with
  | nil => rfl
  | cons call calls ih =>
    exact (ih (t.call call).2 fun call hcall => hcalls call (List.mem_cons_of_mem _ hcall)).trans
      (t.circuit_call (hcalls call List.mem_cons_self))

theorem numVars_call (t : Session R) (call : Call R) : (t.call call).2.circuit.numVars = t.circuit.numVars := by
  cases call with
  | build clause => exact t.circuit.numVars_assemble clause
  | _ => exact congrArg Circuit.numVars (circuit_finish _)

theorem numVars_after (t : Session R) (calls : List (Call R)) :
    (t.after calls).circuit.numVars = t.circuit.numVars := by
  induction calls generalizing t with
  | nil => rfl
  | cons call calls ih => exact (ih (t.call call).2).trans (t.numVars_call call)

/-- A call that is meant to restore the signals does so when it returns. -/
theorem Ready.pristine_call {t : Session R} (h : t.Ready) {call : Call R} (hcall : call.restores = true)
    (hreturns : (t.call call).1 = true) : (t.call call).2.signals.Pristine (t.call call).2.circuit.net := by
  cases call with
  | forward values => cases hcall
  | build clause => cases hcall
  | backward => exact pristine_finish h.wired.restores_gradient h.fits hreturns
  | reset => exact pristine_finish h.wired.restores_reset h.fits hreturns
  | clauseTruths values => exact pristine_finish (h.wired.restores_clauseValues values) h.fits hreturns
  | satisfied bits => exact pristine_finish (h.wired.restores_satisfiedBy bits) h.fits hreturns
  | costAndGradient values =>
    exact pristine_finish (h.wired.restores_costAndGradient values) h.fits hreturns
  | differenceGradient values eps =>
    exact pristine_finish (h.wired.restores_differenceGradient values eps) h.fits hreturns

/-- From every session that calls on an accepted circuit lead to, a reset returns: it leaves the circuit and
the values of the inputs alone and makes the signals pristine.  A call that restores the signals also makes
them pristine, if it returns. -/
theorem reset_after {p : Program} {c : Circuit} (hc : Circuit.ofProgram p = .ok c) (calls : List (Call R)) :
    (∃ s, ((start c).after calls).call .reset = (true, ⟨((start c).after calls).circuit, s⟩) ∧
      s.Pristine ((start c).after calls).circuit.net ∧
      ∀ r < ((start c).after calls).circuit.net.size,
        (((start c).after calls).circuit.net.gate r).isInput = true →
        (s.cell r).signal = (((start c).after calls).signals.cell r).signal) ∧
    ∀ call, call.restores = true → (((start c).after calls).call call).1 = true →
      (((start c).after calls).call call).2.signals.Pristine
        (((start c).after calls).call call).2.circuit.net := by
  have hready := (ready_start (R := R) (Circuit.complete_of_ofProgram hc).1.wired).after calls
  refine ⟨⟨_, rfl, hready.fits.pristine_reset hready.wired.sound, fun r hr hinput => ?_⟩,
    fun call hcall hreturns => hready.pristine_call hcall hreturns⟩
  exact hready.fits.signal_reset _ hr hinput

/-- A rejected clause leaves a gate half wired, a pull stops at it, and a reset still restores everything; so
do difference quotients, of which there are none without values. -/
theorem reset_after_stopped_pull : ∃ (c : Circuit) (t : Session Float) (s : Signals Float),
    Circuit.ofProgram ⟨1, ["$0"]⟩ = .ok c ∧
      t = (start c).after [.build "$0 ^", .forward (.vector [2]), .backward] ∧
      t.call .reset = (true, ⟨t.circuit, s⟩) ∧ s.Pristine t.circuit.net ∧
      (t.call (.differenceGradient (.vector []) 0)).2.signals.Pristine
        (t.call (.differenceGradient (.vector []) 0)).2.circuit.net := by
  have hc : Circuit.ofProgram ⟨1, ["$0"]⟩ =
      .ok ⟨1, ⟨⟨#[⟨0, .input, [1]⟩, ⟨1, .sigmoid 0, [2]⟩, ⟨2, .cost 1, []⟩]⟩, 3⟩, ["$0"], [2]⟩ := by
    decide +kernel
  obtain ⟨⟨s, hreset, hs, -⟩, hrestores⟩ :=
    reset_after (R := Float) hc [.build "$0 ^", .forward (.vector [2]), .backward]
  have hreturns : ∀ t : Session Float, (t.call (.differenceGradient (.vector []) 0)).1 = true := by
    intro t
    have hok : t.circuit.differenceGradient (.vector []) (0 : Float) t.signals =
        .ok [] (t.circuit.net.reset t.circuit.inputs t.signals) := by
      unfold Circuit.differenceGradient
      rw [Tensor.shape_vector, Tensor.entries_vector]
      rfl
    rw [call, hok]
    rfl
  exact ⟨_, _, s, hc, rfl, hreset, hs, hrestores (.differenceGradient (.vector []) 0) rfl (hreturns _)⟩

end Session

end Calls

end SoftLogic
