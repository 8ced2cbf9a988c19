import SoftLogic.Proofs.Netlist.Evaluation

/-!
# Signals that are cached

Between two resets, a signal that is known stays as it is, whatever is asked of the nodes of a netlist, and however they
are wired up meanwhile (`Netlist.NodeCall.Caches.after`).  Only inputs are written again.
-/

namespace SoftLogic

open Effect

namespace Netlist

variable {R : Type} [Scalar R] {net : Netlist} {q : Nat} {x : R}

/-! ### Computations that leave a known signal alone -/

/-- The node `q` carries `x`. -/
abbrev Carries (q : Nat) (x : R) (s : Signals R) : Prop := (s.cell q).signal = some x

theorem carries_store {r : Nat} (hr : q ≠ r) (y : R) : Keeps (Carries q x) (SignalM.store r y) := by
  intro s hs
  show ((s.update r _).cell q).signal = some x
  rw [Signals.cell_update_of_ne s _ hr]
  exact hs

theorem carries_update {s : Signals R} (hs : Carries q x s) (r : Nat) {f : Cell R → Cell R}
    (hf : ∀ c, (f c).signal = c.signal) : Carries q x (s.update r f) := (Signals.signal_update s r q hf).trans hs

theorem carries_gather (r : Nat) (d : R) : Keeps (Carries q x) (SignalM.gather r d) :=
  fun _ hs => carries_update hs r fun _ => rfl

theorem carries_markPushed (r : Nat) : Keeps (Carries q x) (SignalM.markPushed r) :=
  fun _ hs => carries_update hs r fun _ => rfl

/-- Evaluating stores the signals that are not known yet. -/
theorem carries_evaluate (net : Netlist) (r : Nat) : Keeps (Carries q x) (net.evaluate r : SignalM R R) := by
  refine Keeps.bind ?_ fun _ => keeps_known r
  refine Visit.run_keeps (P := fun _ => True) (fun d s _ hs hopen => ?_) (fun _ _ _ _ _ _ => trivial) _
    fun _ _ => trivial
  have hqd : q ≠ d := by
    rintro rfl
    have hnone : (s.cell q).signal.isSome = false := hopen
    rw [show (s.cell q).signal = some x from hs] at hnone
    cases hnone
  exact ((keeps_compute net d).bind fun y => carries_store hqd y).left hs

theorem carries_addGradient (net : Netlist) (r : Nat) (d : R) : Keeps (Carries q x) (net.addGradient r d) := by
  unfold addGradient
  split
  · exact keeps_throw _
  · exact carries_gather r d

theorem carries_pull (net : Netlist) (r : Nat) : Keeps (Carries q x) (net.pull r : SignalM R Unit) := by
  unfold pull
  split
  · exact keeps_throw _
  · refine Visit.run_keeps (P := fun _ => True) (fun d s _ hs _ => ?_) (fun _ _ _ _ _ _ => trivial) _ fun _ _ => trivial
    have hpush : Keeps (Carries q x) (net.pushGradient d : SignalM R Unit) :=
      keeps_pushGradient (fun a _ => carries_evaluate net a) fun a _ => carries_addGradient net a
    exact ((carries_markPushed d).bind fun _ => hpush).left hs

theorem carries_inputGradient (net : Netlist) (r : Nat) :
    Keeps (Carries q x) (net.inputGradient r : SignalM R R) := by
  unfold inputGradient
  split
  · match net.pullTargets r with
    | .error fault => exact keeps_throw _
    | .ok ds => exact (keeps_forM fun d _ => carries_pull net d).bind fun _ => keeps_gradient r
  · exact keeps_throw _

theorem carries_truth (net : Netlist) (r : Nat) : Keeps (Carries q x) (net.truth r : SignalM R R) := by
  unfold truth
  split
  · exact carries_evaluate net _
  · exact keeps_throw _

/-- Only inputs are written. -/
theorem carries_hold (hq : (net.gate q).isInput = false) (r : Nat) (y : R) : Keeps (Carries q x) (net.hold r y) := by
  unfold hold
  split
  · next hgate =>
    refine carries_store ?_ y
    rintro rfl
    rw [hgate] at hq
    cases hq
  · exact keeps_throw _

/-! ### Wiring -/

variable {net' : Netlist} {r a c : Nat}

theorem gate_connect (h : net.connect a c = .ok net') (q : Nat) : net'.gate q = net.gate q := by
  rw [eq_link_of_connect h, gate_link]

/-- Filling a slot makes no input of a node. -/
theorem isInput_addOperand (h : net.addOperand r a = .ok net') (q : Nat) :
    (net'.gate q).isInput = (net.gate q).isInput := by
  obtain ⟨hopen, -, rfl⟩ := of_addOperand_ok h
  have hr := lt_size_of_isOpen hopen
  rw [gate_setGate (by rwa [size_link]), gate_link]
  split
  · next hqr =>
    rw [hqr, Gate.isInput_fill]
  · rfl

/-! ### Calls on nodes -/

/-- A call on a node of a netlist, which is not a reset. -/
inductive NodeCall (R : Type)
  | evaluate (r : Ref)
  | truth (r : Ref)
  | pull (r : Ref)
  | inputGradient (r : Ref)
  | addGradient (r : Ref) (d : R)
  | hold (r : Ref) (x : R)
  | addOperand (r operand : Ref)
  | connect (operand consumer : Ref)

namespace NodeCall

/-- A netlist with its signals after wiring, if it was not refused. -/
def wired (net : Netlist) (s : Signals R) : Except Fault Netlist → Netlist × Signals R
  | .ok net => (net, s)
  | .error _ => (net, s)

/-- What a call makes of a netlist and its signals, wherever it stops. -/
def act : NodeCall R → Netlist × Signals R → Netlist × Signals R
  | .evaluate r, (net, s) => (net, left (net.evaluate r s))
  | .truth r, (net, s) => (net, left (net.truth r s))
  | .pull r, (net, s) => (net, left (net.pull r s))
  | .inputGradient r, (net, s) => (net, left (net.inputGradient r s))
  | .addGradient r d, (net, s) => (net, left (net.addGradient r d s))
  | .hold r x, (net, s) => (net, left (net.hold r x s))
  | .addOperand r operand, (net, s) => wired net s (net.addOperand r operand)
  | .connect operand consumer, (net, s) => wired net s (net.connect operand consumer)

/-- A netlist and its signals after calls. -/
def after (calls : List (NodeCall R)) (t : Netlist × Signals R) : Netlist × Signals R :=
  calls.foldl (fun t call => call.act t) t

/-- The node `q` is no input, and it carries `x`. -/
structure Caches (q : Nat) (x : R) (t : Netlist × Signals R) : Prop where
  isInput : (t.1.gate q).isInput = false
  carries : Carries q x t.2

theorem Caches.wired {s : Signals R} (h : Caches q x (net, s)) {result : Except Fault Netlist}
    (hwired : ∀ net', result = .ok net' → (net'.gate q).isInput = (net.gate q).isInput) :
    Caches q x (NodeCall.wired net s result) := by
  cases result with
  | error fault => exact h
  | ok net' => exact ⟨(hwired net' rfl).trans h.isInput, h.carries⟩

theorem Caches.act {t : Netlist × Signals R} (h : Caches q x t) (call : NodeCall R) : Caches q x (call.act t) := by
  obtain ⟨net, s⟩ := t
  have hinput := h.isInput
  have hs := h.carries
  cases call with
  | evaluate r => exact ⟨hinput, (carries_evaluate net r).left hs⟩
  | truth r => exact ⟨hinput, (carries_truth net r).left hs⟩
  | pull r => exact ⟨hinput, (carries_pull net r).left hs⟩
  | inputGradient r => exact ⟨hinput, (carries_inputGradient net r).left hs⟩
  | addGradient r d => exact ⟨hinput, (carries_addGradient net r d).left hs⟩
  | hold r y => exact ⟨hinput, (carries_hold hinput r y).left hs⟩
  | addOperand r operand => exact h.wired fun _ hadd => isInput_addOperand hadd q
  | connect operand consumer => exact h.wired fun _ hconnect => by rw [gate_connect hconnect]

/-- However often nodes are called without a reset, what a node carries that is no input it carries on. -/
theorem Caches.after {t : Netlist × Signals R} (h : Caches q x t) (calls : List (NodeCall R)) :
    Caches q x (NodeCall.after calls t) := by
  induction calls generalizing t with
  | nil => exact h
  | cons call calls ih => exact ih (h.act call)

end NodeCall

end Netlist

end SoftLogic
