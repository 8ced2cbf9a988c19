import SoftLogic.Proofs.Netlist.Evaluation
import SoftLogic.Proofs.Netlist.Recursion

/-!
# Netlists that grow

A netlist is appended to when nodes are added that read sigmoids and one another: what was there stays as it was, but for
the consumers of the sigmoids (`Netlist.Appends`).  Evaluating follows operands only, and so it does on the larger netlist
what it did on the smaller one (`Netlist.Appends.lifts_evaluate`), whatever is known and whether it succeeds or not.
-/

namespace SoftLogic

open Effect

/-! ### Nodes that are left as they are -/

namespace Netlist

section Appends

variable {net₀ net net' : Netlist} {r a c : Nat}

/-- `net` is `net₀` with further nodes.  The nodes that were there are as they were, but for sigmoids that feed some of
the new ones now. -/
structure Appends (net₀ net : Netlist) : Prop where
  size_le : net₀.size ≤ net.size
  node : ∀ r < net₀.size, ∃ new, net.node r = { net₀.node r with consumers := net₀.consumers r ++ new } ∧
    (∀ c ∈ new, net₀.size ≤ c) ∧ (new ≠ [] → ∃ k, net₀.gate r = .sigmoid k)

/-- What is appended to `net₀` may read the node: it is a sigmoid, or it is new itself. -/
def Lends (net₀ : Netlist) (a : Nat) : Prop := net₀.size ≤ a ∨ ∃ k, net₀.gate a = .sigmoid k

theorem node_update_of_ne (net : Netlist) (f : Node → Node) (h : a ≠ r) : (net.update r f).node a = net.node a := by
  simp [node, update, Array.getD_eq_getD_getElem?, Array.getElem?_modify, Ne.symm h]

namespace Appends

theorem refl (net : Netlist) : net.Appends net := by
  refine ⟨Nat.le_refl _, fun r _ => ⟨[], ?_, nofun, absurd rfl⟩⟩
  rw [List.append_nil]
  rfl

theorem gate_eq (h : net₀.Appends net) (hr : r < net₀.size) : net.gate r = net₀.gate r := by
  obtain ⟨new, hnode, -⟩ := h.node r hr
  rw [gate, hnode]
  rfl

theorem id_eq (h : net₀.Appends net) (hr : r < net₀.size) : net.id r = net₀.id r := by
  obtain ⟨new, hnode, -⟩ := h.node r hr
  rw [id, hnode]
  rfl

/-- What leaves the nodes of `net₀` alone appends. -/
theorem of_node_eq (h : net₀.Appends net) (hle : net₀.size ≤ net'.size)
    (hnode : ∀ r < net₀.size, net'.node r = net.node r) : net₀.Appends net' := by
  refine ⟨hle, fun r hr => ?_⟩
  rw [hnode r hr]
  exact h.node r hr

theorem push (h : net₀.Appends net) (id : Int) (gate : Gate) : net₀.Appends (net.push id gate) := by
  have hle := h.size_le
  refine h.of_node_eq ?_ fun r hr => ?_
  · rw [size_push]
    omega
  · rw [node_push, if_neg (Nat.ne_of_lt (Nat.lt_of_lt_of_le hr hle))]

/-- A new node becomes a consumer of what it may read. -/
theorem link (h : net₀.Appends net) (ha : net₀.Lends a) (hc : net₀.size ≤ c) : net₀.Appends (net.link a c) := by
  refine ⟨by rw [size_link]; exact h.size_le, fun r hr => ?_⟩
  obtain ⟨new, hnode, hnew, hsigmoid⟩ := h.node r hr
  by_cases hra : r = a
  · subst hra
    have hlt : r < net.size := Nat.lt_of_lt_of_le hr h.size_le
    refine ⟨new ++ [c], ?_, fun d hd => ?_, fun _ => ha.resolve_left (Nat.not_le_of_lt hr)⟩
    · rw [node_link, if_pos ⟨rfl, hlt⟩, consumers, hnode, List.append_assoc]
    · rcases List.mem_append.mp hd with hd | hd
      · exact hnew d hd
      · exact List.mem_singleton.mp hd ▸ hc
  · refine ⟨new, ?_, hnew, hsigmoid⟩
    rw [node_link, if_neg fun hself => hra hself.1, hnode]

theorem setGate (h : net₀.Appends net) (hr : net₀.size ≤ r) (gate : Gate) : net₀.Appends (net.setGate r gate) := by
  refine h.of_node_eq (by rw [size_setGate]; exact h.size_le) fun q hq => node_update_of_ne net _ ?_
  omega

/-- A new node reads what it may read. -/
theorem add (h : net₀.Appends net) {id : Int} {gate : Gate} (hgate : ∀ a ∈ gate.operands, net₀.Lends a)
    (hok : net.add id gate = .ok net') : net₀.Appends net' := by
  rw [of_add_ok hok]
  exact List.foldlRecOn gate.operands _ (motive := fun m => net₀.Appends m) (h.push id gate)
    fun m hm a ha => hm.link (hgate a ha) h.size_le

/-- The open slot of a new gate is filled with what it may read. -/
theorem addOperand (h : net₀.Appends net) (hr : net₀.size ≤ r) (ha : net₀.Lends a)
    (hok : net.addOperand r a = .ok net') : net₀.Appends net' := by
  obtain ⟨-, -, rfl⟩ := of_addOperand_ok hok
  exact (h.link ha hr).setGate hr _

end Appends

end Appends

/-! ### Evaluating in sound wiring -/

section Evaluate

variable {R : Type} [Scalar R] {net net' : Netlist} {n r d : Nat} {s : Signals R}

/-- What is read is a node. -/
theorem Sound.operand_lt_size (h : net.Sound n) (hd : d ∈ net.operands r) : d < net.size := by
  by_contra hlt
  have hmem := h.mem_operands_iff.mp hd
  rw [consumers_of_size_le (Nat.le_of_not_lt hlt)] at hmem
  cases hmem

theorem Sound.wellFounded (h : net.Sound n) : WellFounded fun d r => d ∈ net.operands r :=
  Subrelation.wf (fun hd => h.rank_lt hd) (measure (net.rank n)).wf

/-- Evaluating is a lawful walk on any signals, whatever is known. -/
theorem Sound.lawful_evaluation (h : net.Sound n) :
    (net.evaluation : Visit (Signals R)).Lawful (fun s => s.cells.size = net.size) net.size := by
  refine ⟨h.wellFounded, fun r d hd => h.operand_lt_size hd, fun r s s' hr hs _ _ hok => ?_⟩
  obtain ⟨x, s₁, hcompute, hstore⟩ := of_bind_ok hok
  obtain rfl : s₁ = s := (keeps_compute (I := (· = s)) net r).ok rfl hcompute
  cases hstore
  refine ⟨by rw [Signals.size_update, hs], fun q => ?_⟩
  show ((s₁.update r _).cell q).signal.isSome = ((s₁.cell q).signal.isSome || q == r)
  rw [Signals.cell_update s₁ r q _ (hs ▸ hr)]
  split
  · next hqr => simp [hqr]
  · next hqr => simp [hqr]

/-- Where all operands are known, evaluating a node stores its value and nothing else. -/
theorem Sound.evaluate_of_compute (h : net.Sound n) (hs : s.cells.size = net.size) (hr : r < net.size)
    (hopen : (s.cell r).signal = none) (hall : ∀ d ∈ net.operands r, (s.cell d).signal.isSome = true) {x : R}
    (hx : net.compute r s = .ok x s) : net.evaluate r s = .ok x (s.update r fun c => { c with signal := some x }) := by
  have hloop : ∀ {nodes : List Ref}, (∀ d ∈ nodes, (s.cell d).signal.isSome = true) →
      nodes.forM (net.evaluation.recurse h.wellFounded) s = .ok () s := by
    intro nodes hnodes
    induction nodes with
    | nil => rfl
    | cons d nodes ih =>
      have hd : net.evaluation.recurse h.wellFounded d s = .ok () s :=
        Visit.recurse_of_settled _ (hnodes d List.mem_cons_self)
      exact (bind_of_ok hd _).trans (ih fun e he => hnodes e (List.mem_cons_of_mem d he))
  have hsettle : net.evaluation.settle r s = .ok () (s.update r fun c => { c with signal := some x }) := bind_of_ok hx _
  have hrun : net.evaluation.run net.size [.enter r] s = .ok () (s.update r fun c => { c with signal := some x }) := by
    have hunsettled : net.evaluation.settled s r = false := by simp [evaluation, hopen]
    rw [h.lawful_evaluation.run_eq_recurse hr hs, Visit.recurse_of_ok _ hunsettled rfl,
      bind_of_ok (hloop fun d hd => hall d (List.mem_reverse.mp hd)), hsettle]
  unfold evaluate
  rw [bind_of_ok hrun]
  exact SignalM.known_of_some (by rw [Signals.cell_update s r r _ (hs ▸ hr), if_pos rfl])

end Evaluate

/-! ### Evaluating where nodes were appended -/

end Netlist

/-- A change to a cell that is there does not depend on the growth. -/
theorem Signals.extend_update {R : Type} [Scalar R] {s : Signals R} {r : Nat} (net : Netlist) (f : Cell R → Cell R)
    (hr : r < s.cells.size) : (s.update r f).extend net = (s.extend net).update r f := by
  unfold extend update
  refine congrArg Signals.mk (Array.ext_getElem? fun q => ?_)
  simp only [Array.size_modify, Array.getElem?_append, Array.getElem?_modify]
  by_cases hq : q < s.cells.size
  · simp [hq]
  · have hne : r ≠ q := by omega
    simp [hq, hne]

namespace Netlist.Appends

variable {R : Type} [Scalar R] {net net' : Netlist} {n n' r a : Nat}

/-- On the larger netlist, the computation does what it does on the smaller one. -/
abbrev Same {α ε : Type} (net net' : Netlist) (x y : EStateM ε (Signals R) α) : Prop :=
  Lifts (Signals.extend · net') (fun s => s.cells.size = net.size) x y

theorem lifts_known (ha : a < net.size) : Same net net' (SignalM.known a : SignalM R R) (SignalM.known a) := by
  refine ⟨keeps_known a, fun s hs => ?_⟩
  rw [SignalM.known_apply, SignalM.known_apply, Signals.cell_extend net' (hs ▸ ha)]
  cases (s.cell a).signal <;> rfl

theorem lifts_store (hr : r < net.size) (x : R) : Same net net' (SignalM.store r x) (SignalM.store r x) := by
  refine ⟨fun s hs => (Signals.size_update s r _).trans hs, fun s hs => ?_⟩
  rw [SignalM.store_apply, SignalM.store_apply, carry, Signals.extend_update net' _ (hs ▸ hr)]

theorem operands_eq (h : net.Appends net') (hr : r < net.size) : net'.operands r = net.operands r :=
  congrArg Gate.operands (h.gate_eq hr)

theorem lifts_compute (h : net.Appends net') (hsound : net.Sound n) (hr : r < net.size) :
    Same net net' (net.compute r : SignalM R R) (net'.compute r) := by
  have hoperand : ∀ d ∈ (net.gate r).operands, Same net net' (SignalM.known d : SignalM R R) (SignalM.known d) :=
    fun d hd => lifts_known (hsound.operand_lt_size hd)
  unfold compute
  rw [h.gate_eq hr, h.id_eq hr]
  cases hg : net.gate r with
  | plain => exact lifts_throw _
  | input => exact lifts_throw _
  | sigmoid a => exact (hoperand a (by simp [hg])).bind fun _ => lifts_pure _
  | not operand =>
    cases operand with
    | none => exact lifts_throw _
    | some a => exact (hoperand a (by simp [hg])).bind fun _ => lifts_pure _
  | binary op a second =>
    cases second with
    | none => exact lifts_throw _
    | some b =>
      exact (hoperand a (by simp [hg])).bind fun _ => (hoperand b (by simp [hg])).bind fun _ => lifts_pure _
  | cost a => exact (hoperand a (by simp [hg])).bind fun _ => lifts_pure _

theorem lifts_recurse (h : net.Appends net') (hsound : net.Sound n) (hsound' : net'.Sound n') (hr : r < net.size) :
    Same net net' ((net.evaluation : Visit (Signals R)).recurse hsound.wellFounded r)
      (net'.evaluation.recurse hsound'.wellFounded r) := by
  induction r using hsound.wellFounded.induction with
  | _ r ih =>
    have hsettled : ∀ s : Signals R, s.cells.size = net.size →
        net'.evaluation.settled (s.extend net') r = net.evaluation.settled s r := by
      intro s hs
      show ((s.extend net').cell r).signal.isSome = (s.cell r).signal.isSome
      rw [Signals.cell_extend net' (hs ▸ hr)]
    refine lifts_of_eq fun s hs => ?_
    cases hopen : net.evaluation.settled s r with
    | true =>
      refine ⟨_, _, lifts_pure (), Visit.recurse_of_settled _ hopen, Visit.recurse_of_settled _ ?_⟩
      rw [hsettled s hs, hopen]
    | false =>
      have hopen' : net'.evaluation.settled (s.extend net') r = false := by rw [hsettled s hs, hopen]
      refine ⟨_, _, Lifts.bind ?_ fun _ => (h.lifts_compute hsound hr).bind fun x => lifts_store hr x,
        Visit.recurse_of_ok _ hopen rfl, Visit.recurse_of_ok _ hopen' (congrArg Except.ok (h.operands_eq hr))⟩
      exact lifts_forM fun d hd => ih d (List.mem_reverse.mp hd) (hsound.operand_lt_size (List.mem_reverse.mp hd))

theorem lifts_evaluate (h : net.Appends net') (hsound : net.Sound n) (hsound' : net'.Sound n') (hr : r < net.size) :
    Same net net' (net.evaluate r : SignalM R R) (net'.evaluate r) := by
  refine Lifts.bind (lifts_of_eq fun s hs => ?_) fun _ => lifts_known hr
  refine ⟨_, _, h.lifts_recurse hsound hsound' hr, hsound.lawful_evaluation.run_eq_recurse hr hs, ?_⟩
  refine hsound'.lawful_evaluation.run_eq_recurse (Nat.lt_of_lt_of_le hr h.size_le) ?_
  exact Signals.size_extend (hs ▸ h.size_le)

theorem lifts_truth (h : net.Appends net') (hsound : net.Sound n) (hsound' : net'.Sound n') (hr : r < net.size) :
    Same net net' (net.truth r : SignalM R R) (net'.truth r) := by
  unfold truth
  rw [h.gate_eq hr]
  cases hg : net.gate r with
  | cost a => exact h.lifts_evaluate hsound hsound' (hsound.operand_lt_size (r := r) (by simp [operands, hg]))
  | _ => exact lifts_throw _

theorem lifts_hold (h : net.Appends net') (hr : r < net.size) (x : R) :
    Same net net' (net.hold r x) (net'.hold r x) := by
  unfold hold
  rw [h.gate_eq hr]
  cases hg : net.gate r with
  | input => exact lifts_store hr x
  | _ => exact lifts_throw _

end Netlist.Appends

end SoftLogic
