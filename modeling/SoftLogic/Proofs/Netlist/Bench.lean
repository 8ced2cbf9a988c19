import SoftLogic.Netlist.Bench
import SoftLogic.Netlist.Registry
import SoftLogic.Proofs.Circuit.Memory
import SoftLogic.Proofs.Netlist.Pull

/-!
# Refused wiring leaves no trace

A call on a bench that is refused stops where it is, and nothing is undone.  It turns out that nothing has to be: a
call does what `Netlist.connect`, `Netlist.addOperand` or `Netlist.add` says, or it leaves the bench as it was
(`Bench.setConsumer_eq`, `Bench.addInput_eq`, `Bench.construct_eq`).  So the wiring of a bench changes by these
operations only (`Netlist.Rewires`), and from what each of them keeps follows what any calls keep: what is in a slot
stays there (`Netlist.Grows`), and a node is among the consumers of what it reads (`Netlist.Tied`).
-/

namespace SoftLogic

open Effect

namespace Netlist

/-- Each node is among the consumers of what it reads, and only a sigmoid has several consumers. -/
structure Tied (net : Netlist) : Prop where
  mem_consumers : ∀ m, ∀ p ∈ net.operands m, m ∈ net.consumers p
  consumer_lt : ∀ p, ∀ m ∈ net.consumers p, m < net.size
  single : ∀ p, net.symbol p ≠ 's' → (net.consumers p).length ≤ 1

/-- `net'` is `net` with further nodes and with further operands and consumers behind those that were there. -/
structure Grows (net net' : Netlist) : Prop where
  size_le : net.size ≤ net'.size
  symbol_eq : ∀ r < net.size, net'.symbol r = net.symbol r
  operands_prefix : ∀ r, net.operands r <+: net'.operands r
  consumers_prefix : ∀ r, net.consumers r <+: net'.consumers r

/-- What a call can do to the wiring of nodes that are there. -/
inductive Rewires (net : Netlist) : Netlist → Prop
  | refl : Rewires net net
  | connect {net' : Netlist} {p m : Ref} : p < net.size → m < net.size → net.connect p m = .ok net' → Rewires net net'
  | addOperand {net' : Netlist} {m p : Ref} : p < net.size → net.addOperand m p = .ok net' → Rewires net net'
  | add {net' : Netlist} {id : Int} {gate : Gate} : gate.Starts → (∀ d ∈ gate.operands, d < net.size) →
    net.add id gate = .ok net' → Rewires net net'

/-! ### What an operation on the wiring keeps -/

section Keeps

variable {net net' net'' : Netlist} {p m r a : Nat} {gate : Gate}

theorem Grows.refl (net : Netlist) : net.Grows net :=
  ⟨Nat.le_refl _, fun _ _ => rfl, fun _ => List.prefix_rfl, fun _ => List.prefix_rfl⟩

theorem Grows.trans (h : net.Grows net') (h' : net'.Grows net'') : net.Grows net'' :=
  ⟨Nat.le_trans h.size_le h'.size_le,
    fun r hr => (h'.symbol_eq r (Nat.lt_of_lt_of_le hr h.size_le)).trans (h.symbol_eq r hr),
    fun r => (h.operands_prefix r).trans (h'.operands_prefix r),
    fun r => (h.consumers_prefix r).trans (h'.consumers_prefix r)⟩

/-- An operand that is in a slot stays there. -/
theorem Grows.getElem?_operands (h : net.Grows net') {i : Nat} (hp : (net.operands m)[i]? = some p) :
    (net'.operands m)[i]? = some p := by
  obtain ⟨hi, hget⟩ := List.getElem?_eq_some_iff.mp hp
  have hi' := Nat.lt_of_lt_of_le hi (h.operands_prefix m).length_le
  rw [List.getElem?_eq_getElem hi', ← hget, (h.operands_prefix m).getElem hi]

/-- The consumer of a node that may have one only stays its consumer. -/
theorem Grows.consumers_eq (h : net.Grows net') (htied : net'.Tied) (hsymbol : net.symbol p ≠ 's')
    (hm : m ∈ net.consumers p) : net'.consumers p = [m] := by
  have hp : p < net.size := Nat.lt_of_not_le fun hle => by simp [consumers_of_size_le hle] at hm
  have hm' : m ∈ net'.consumers p := (h.consumers_prefix p).subset hm
  have hsingle : (net'.consumers p).length ≤ 1 := htied.single p (by rwa [h.symbol_eq p hp])
  obtain ⟨c, hc⟩ := List.length_eq_one_iff.mp (Nat.le_antisymm hsingle (List.length_pos_of_mem hm'))
  rw [hc] at hm' ⊢
  rw [List.mem_singleton.mp hm']

theorem Free.consumers_eq_nil (h : net.Free p) (hsymbol : net.symbol p ≠ 's') : net.consumers p = [] := by
  rcases h with ⟨k, hk⟩ | ⟨hnil, -⟩
  · exact absurd (by rw [symbol, hk]; rfl) hsymbol
  · exact hnil

theorem tied_empty : empty.Tied := by
  refine ⟨fun m p hp => ?_, fun p m hm => ?_, fun p _ => ?_⟩
  · exact absurd (lt_size_of_mem_operands hp) (Nat.not_lt_zero m)
  · rw [consumers_of_size_le (Nat.zero_le p)] at hm
    cases hm
  · rw [consumers_of_size_le (Nat.zero_le p)]
    exact Nat.zero_le 1

/-- Wiring stays tied that got one more consumer, `r` of `a`, and no operand but `a` of `r`. -/
theorem Tied.linked (h : net.Tied) (hgrows : net.Grows net') (ha : a < net.size) (hfree : net.Free a)
    (hr : r < net'.size)
    (hconsumers : ∀ q, net'.consumers q = if q = a then net.consumers a ++ [r] else net.consumers q)
    (hoperands : ∀ m, ∀ p ∈ net'.operands m, p ∈ net.operands m ∨ m = r ∧ p = a) : net'.Tied := by
  refine ⟨fun m p hp => ?_, fun p m hm => ?_, fun p hsymbol => ?_⟩
  · rcases hoperands m p hp with hp | ⟨rfl, rfl⟩
    · exact (hgrows.consumers_prefix p).subset (h.mem_consumers m p hp)
    · rw [hconsumers, if_pos rfl]
      exact List.mem_append_right _ (List.mem_singleton_self m)
  · have hold : ∀ q, m ∈ net.consumers q → m < net'.size := fun q hm =>
      Nat.lt_of_lt_of_le (h.consumer_lt q m hm) hgrows.size_le
    rw [hconsumers] at hm
    split at hm
    · rcases List.mem_append.mp hm with hm | hm
      · exact hold a hm
      · rwa [List.mem_singleton.mp hm]
    · exact hold p hm
  · rw [hconsumers]
    split
    · next hpa =>
      subst hpa
      rw [hgrows.symbol_eq p ha] at hsymbol
      rw [hfree.consumers_eq_nil hsymbol]
      exact Nat.le_refl 1
    · by_cases hp : p < net.size
      · exact h.single p (by rwa [← hgrows.symbol_eq p hp])
      · rw [consumers_of_size_le (Nat.le_of_not_lt hp)]
        exact Nat.zero_le 1

theorem grows_link (ha : a < net.size) (m : Ref) : net.Grows (net.link a m) := by
  refine ⟨Nat.le_of_eq (size_link net a m).symm, fun r _ => ?_, fun r => ?_, fun r => ?_⟩
  · rw [symbol, gate_link, symbol]
  · rw [operands, operands, gate_link]
  · rw [consumers_link ha]
    split
    · next hr =>
      rw [hr]
      exact List.prefix_append _ _
    · exact List.prefix_rfl

theorem grows_push (net : Netlist) (id : Int) (gate : Gate) : net.Grows (net.push id gate) := by
  refine ⟨by rw [size_push]; omega, fun r hr => ?_, fun r => ?_, fun r => ?_⟩
  · rw [symbol, gate_push, if_neg (Nat.ne_of_lt hr), symbol]
  · unfold operands
    rw [gate_push]
    split
    · next hr =>
      rw [gate_of_size_le (Nat.le_of_eq hr.symm)]
      exact List.nil_prefix
    · exact List.prefix_rfl
  · rw [consumers_push]

/-- The kind of a node that was there stays. -/
theorem Attached.grows (h : net.Attached r a gate net') (hr : r < net.size → gate.symbol = net.symbol r) :
    net.Grows net' := by
  refine ⟨by rw [h.size_eq]; omega, fun q hq => ?_, fun q => ?_, fun q => ?_⟩
  · rw [symbol, h.gate_eq]
    split
    · next hqr => rw [hr (hqr ▸ hq), hqr]
    · rfl
  · rw [h.operands_of]
    split
    · next hqr =>
      rw [hqr]
      exact List.prefix_append _ _
    · exact List.prefix_rfl
  · rw [h.consumers_eq]
    split
    · next hqa =>
      rw [hqa]
      exact List.prefix_append _ _
    · exact List.prefix_rfl

theorem Tied.attached (h : net.Tied) (hattached : net.Attached r a gate net') (ha : a < net.size) (hfree : net.Free a)
    (hr : r < net.size → gate.symbol = net.symbol r) : net'.Tied := by
  refine h.linked (hattached.grows hr) ha hfree ?_ hattached.consumers_eq fun m p hp => ?_
  · rw [hattached.size_eq]
    omega
  · rw [hattached.operands_of] at hp
    split at hp
    · next hm =>
      rcases List.mem_append.mp hp with hp | hp
      · exact .inl (hm ▸ hp)
      · exact .inr ⟨hm, List.mem_singleton.mp hp⟩
    · exact .inl hp

theorem Tied.push (h : net.Tied) (id : Int) (hgate : gate.operands = []) : (net.push id gate).Tied := by
  have hgrows := grows_push net id gate
  refine ⟨fun m p hp => ?_, fun p m hm => ?_, fun p hsymbol => ?_⟩
  · rw [consumers_push]
    rw [operands, gate_push] at hp
    split at hp
    · rw [hgate] at hp
      cases hp
    · exact h.mem_consumers m p hp
  · rw [consumers_push] at hm
    exact Nat.lt_of_lt_of_le (h.consumer_lt p m hm) hgrows.size_le
  · rw [consumers_push]
    by_cases hp : p < net.size
    · exact h.single p (by rwa [← hgrows.symbol_eq p hp])
    · rw [consumers_of_size_le (Nat.le_of_not_lt hp)]
      exact Nat.zero_le 1

theorem symbol_fill (a : Ref) (gate : Gate) : (gate.fill a).symbol = gate.symbol := by
  cases gate with
  | not b => cases b <;> rfl
  | binary op b c => cases c <;> rfl
  | _ => rfl

/-- A node with one operand is added and then connected. -/
theorem add_eq_connect (net : Netlist) (id : Int) (hgate : gate.operands = [a]) :
    net.add id gate = (net.push id gate).connect a net.size := by
  unfold add
  rw [hgate, List.foldlM_cons, size_push, Nat.add_sub_cancel]
  cases (net.push id gate).connect a net.size <;> rfl

/-- Whatever a call does to tied wiring, it grows and stays tied. -/
theorem Rewires.grows_tied (h : net.Rewires net') (htied : net.Tied) : net.Grows net' ∧ net'.Tied := by
  cases h with
  | refl => exact ⟨.refl net, htied⟩
  | @connect _ p m hp hm hconnect =>
    have hfree := free_of_connect hconnect
    rw [eq_link_of_connect hconnect]
    have hgrows := grows_link hp m
    refine ⟨hgrows, htied.linked hgrows hp hfree (by rwa [size_link]) (consumers_link hp m) fun q d hd => .inl ?_⟩
    rwa [operands, gate_link] at hd
  | @addOperand _ m p hp hadd =>
    obtain ⟨-, hfree, hattached⟩ := attached_of_addOperand hp hadd
    have hsymbol : m < net.size → ((net.gate m).fill p).symbol = net.symbol m := fun _ => symbol_fill p _
    exact ⟨hattached.grows hsymbol, htied.attached hattached hp hfree hsymbol⟩
  | @add _ id gate hstarts hlt hadd =>
    have hone : ∀ a, gate.operands = [a] → net.Grows net' ∧ net'.Tied := by
      intro a hgate
      have ha : a < net.size := hlt a (hgate ▸ List.mem_singleton_self a)
      obtain ⟨hfree, hattached⟩ := attached_of_add ha hgate hadd
      have hsymbol : net.size < net.size → gate.symbol = net.symbol net.size := fun h => absurd h (Nat.lt_irrefl _)
      exact ⟨hattached.grows hsymbol, htied.attached hattached ha hfree hsymbol⟩
    cases hstarts with
    | input | not =>
      cases hadd
      exact ⟨grows_push net id _, htied.push id rfl⟩
    | sigmoid a | binary op a | cost a => exact hone a rfl

end Keeps

end Netlist

namespace Bench

variable {R : Type} [Scalar R] {b b' : Bench R}

/-- The call names nodes that are there and makes one of the kinds that carry a signal, and no value is asked for that
depends on itself. -/
def Call.On (b : Bench R) : Call R → Prop
  | .construct _ gate => gate.Starts ∧ ∀ a ∈ gate.operands, a < b.net.size
  | .addInput m p | .setConsumer p m => m < b.net.size ∧ p < b.net.size
  | .addGradient r _ | .hold r _ | .reset r => r < b.net.size
  | .evaluate r | .truth r | .pull r | .inputGradient r => r < b.net.size ∧ b.net.Acyclic

/-- The call makes a node, links nodes, or adds to a gradient. -/
def Call.Wires : Call R → Prop
  | .construct .. | .addInput .. | .setConsumer .. | .addGradient .. => True
  | .hold .. | .evaluate .. | .truth .. | .pull .. | .inputGradient .. | .reset .. => False

/-- Calls one after the other lead from `b` to `b'`, whether or not they are refused. -/
def Leads : Bench R → Bench R → Prop :=
  Relation.ReflTransGen fun b b' => ∃ call : Call R, call.On b ∧ b' = left (call.run b)

/-- The end of a call that makes a bench or is refused: if it is refused, the bench is as it was. -/
def conclude (b : Bench R) : Except Fault (Bench R) → EStateM.Result Fault (Bench R) Unit
  | .ok b' => .ok () b'
  | .error fault => .error fault b

/-! ### The calls as operations on the wiring -/

omit [Scalar R] in
theorem setConsumer_eq (b : Bench R) (p m : Ref) :
    setConsumer p m (b.net.id m) b = b.conclude ((b.net.connect p m).map fun net => { b with net := net }) := by
  unfold setConsumer Netlist.connect
  rw [get_bind]
  cases b.net.gate p <;> cases b.net.consumers p <;> rfl

omit [Scalar R] in
theorem addInput_eq (b : Bench R) (m p : Ref) :
    addInput m p b = b.conclude ((b.net.addOperand m p).map fun net => { b with net := net }) := by
  have hfill : ∀ gate : Gate, (setConsumer p m (b.net.id m) >>= fun _ => setGate m gate) b = b.conclude
      ((do return (← b.net.connect p m).setGate m gate : Except Fault Netlist).map
        fun net => { b with net := net }) := by
    intro gate
    rw [bind_apply, setConsumer_eq]
    cases b.net.connect p m <;> rfl
  unfold addInput Netlist.addOperand
  rw [get_bind]
  match b.net.gate m with
  | .not none => exact hfill _
  | .binary op a none => exact hfill _
  | .not (some _) | .binary _ _ (some _) | .plain | .input | .sigmoid _ | .cost _ => rfl

/-- A link and a new node can come in either order. -/
theorem link_push {net : Netlist} {a : Nat} (ha : a < net.size) (m : Ref) (id : Int) (gate : Gate) :
    (net.push id gate).link a m = (net.link a m).push id gate := by
  have hnode : ∀ q, ((net.push id gate).link a m).node q = ((net.link a m).push id gate).node q := by
    intro q
    have ha' : a < (net.push id gate).size := by
      rw [Netlist.size_push]
      omega
    rw [Netlist.node_link, Netlist.consumers_push, Netlist.node_push, Netlist.node_push, Netlist.size_link,
      Netlist.node_link]
    by_cases hqa : q = a
    · simp only [hqa, ha, ha', Nat.ne_of_lt ha, and_self, if_true, if_false]
    · simp only [hqa, false_and, if_false]
  have hnodes : ((net.push id gate).link a m).nodes = ((net.link a m).push id gate).nodes := by
    rw [← Array.toList_inj, Netlist.nodes_toList, Netlist.nodes_toList, Netlist.size_link, Netlist.size_push,
      Netlist.size_push, Netlist.size_link]
    exact List.map_congr_left fun q _ => hnode q
  exact congrArg Netlist.mk hnodes

theorem construct_eq (htied : b.net.Tied) (id : Int) {gate : Gate} (hstarts : gate.Starts)
    (hlt : ∀ a ∈ gate.operands, a < b.net.size) :
    construct id gate b = b.conclude ((b.net.add id gate).map fun net =>
      ⟨net, ⟨b.signals.cells.push (.initial gate)⟩⟩) := by
  have hone : ∀ a, gate.operands = [a] → construct id gate b = b.conclude ((b.net.add id gate).map fun net =>
      ⟨net, ⟨b.signals.cells.push (.initial gate)⟩⟩) := by
    intro a hgate
    have ha : a < b.net.size := hlt a (hgate ▸ List.mem_singleton_self a)
    have hid : ∀ c, c < b.net.size → (b.net.push id gate).id c = b.net.id c := fun c hc => by
      rw [Netlist.id_push, if_neg (Nat.ne_of_lt hc)]
    have hself : (b.net.push id gate).id b.net.size = id := by rw [Netlist.id_push, if_pos rfl]
    -- the operand answers the new node before it is there as it does afterwards
    have hconnect : (setConsumer a b.net.size id >>= fun _ =>
        modify fun b => ⟨b.net.push id gate, ⟨b.signals.cells.push (.initial gate)⟩⟩) b =
        b.conclude (((b.net.push id gate).connect a b.net.size).map fun net =>
          ⟨net, ⟨b.signals.cells.push (.initial gate)⟩⟩) := by
      unfold setConsumer Netlist.connect
      rw [bind_apply, get_bind, Netlist.gate_push, if_neg (Nat.ne_of_lt ha), Netlist.consumers_push, hid a ha, hself,
        link_push ha]
      cases hc : b.net.consumers a with
      | nil => cases b.net.gate a <;> rfl
      | cons c rest =>
        have hidc := hid c (htied.consumer_lt a c (hc ▸ List.mem_cons_self))
        cases b.net.gate a with
        | sigmoid k | cost k => rfl
        | plain | input | not k | binary op k l =>
          show EStateM.Result.error (Fault.alreadyFeeds _ _ _ _) _ = EStateM.Result.error (Fault.alreadyFeeds _ _ _ _) _
          rw [hidc]
    rw [Netlist.add_eq_connect _ _ hgate, ← hconnect]
    unfold construct
    rw [get_bind, hgate]
    show ((setConsumer a b.net.size id >>= fun _ => pure ()) >>= _) b = _
    rw [bind_apply, bind_apply, bind_apply]
    cases setConsumer a b.net.size id b <;> rfl
  cases hstarts with
  | input | not => rfl
  | sigmoid a | binary op a | cost a => exact hone a rfl

/-! ### What a call does -/

/-- The fault is one of wiring or of an operation that a kind of node does not have. -/
def Refuses (fault : Fault) : Prop := fault.category = .wiring ∨ fault.category = .illegal

theorem refuses_of_ofWiring {fault : Fault} (h : fault.OfWiring) : Refuses fault := by
  cases h with
  | alreadyFeeds | operandTaken | operandsTaken => exact .inl rfl
  | feedsNothing | takesNoInput => exact .inr rfl

/-- The wiring of the bench changes by an operation on it, if at all, and a refusal leaves the bench as it was. -/
structure Settled (b : Bench R) (r : EStateM.Result Fault (Bench R) Unit) : Prop where
  rewires : b.net.Rewires (left r).net
  refused : ∀ fault b', r = .error fault b' → b' = b ∧ Refuses fault

omit [Scalar R] in
theorem settled_conclude {x : Except Fault Netlist} (hok : ∀ net, x = .ok net → b.net.Rewires net)
    (herror : ∀ fault, x = .error fault → fault.OfWiring) {f : Netlist → Bench R} (hf : ∀ net, (f net).net = net) :
    b.Settled (b.conclude (x.map f)) := by
  cases x with
  | ok net => exact ⟨(hf net).symm ▸ hok net rfl, fun fault b' h => by cases h⟩
  | error fault =>
    refine ⟨.refl, fun fault' b' h => ?_⟩
    cases h
    exact ⟨rfl, refuses_of_ofWiring (herror fault rfl)⟩

omit [Scalar R] in
theorem net_onSignals {α : Type} (x : Netlist → SignalM R α) (b : Bench R) : (left (onSignals x b)).net = b.net := by
  unfold onSignals
  cases x b.net b.signals <;> rfl

/-- Adding to a gradient is refused at once or not at all. -/
theorem settled_addGradient (r : Ref) (d : R) : b.Settled (onSignals (fun net => net.addGradient r d) b) := by
  refine ⟨by rw [net_onSignals]; exact .refl, fun fault b' h => ?_⟩
  unfold onSignals at h
  by_cases hcost : ∃ a, b.net.gate r = .cost a
  · obtain ⟨a, ha⟩ := hcost
    have hfixed : b.net.addGradient r d b.signals = .error (.gradientFixed (b.net.id r)) b.signals := by
      unfold Netlist.addGradient
      rw [ha]
      rfl
    simp only [hfixed] at h
    cases h
    exact ⟨rfl, .inr rfl⟩
  · obtain ⟨s, hadd, -⟩ := Netlist.addGradient_gathers (not_exists.mp hcost) d b.signals
    simp only [hadd] at h
    cases h

/-- A call that wires makes one operation on the wiring, or it is refused at once. -/
theorem settled_run (htied : b.net.Tied) {call : Call R} (hon : call.On b) (hwires : call.Wires) :
    b.Settled (call.run b) := by
  cases call with
  | construct id gate =>
    obtain ⟨hstarts, hlt⟩ := hon
    rw [Call.run, construct_eq htied id hstarts hlt]
    exact settled_conclude (fun _ => .add hstarts hlt) (fun _ => Netlist.ofWiring_add) fun _ => rfl
  | addInput m p =>
    rw [Call.run, addInput_eq]
    exact settled_conclude (fun _ => .addOperand hon.2) (fun _ => Netlist.ofWiring_addOperand) fun _ => rfl
  | setConsumer p m =>
    rw [Call.run, get_bind, setConsumer_eq]
    exact settled_conclude (fun _ => .connect hon.2 hon.1) (fun _ => Netlist.ofWiring_connect) fun _ => rfl
  | addGradient r d => exact settled_addGradient r d
  | hold | evaluate | truth | pull | inputGradient | reset => exact hwires.elim

/-- Whatever a call is and whether or not it is refused, it makes one operation on the wiring at most. -/
theorem rewires_run (htied : b.net.Tied) {call : Call R} (hon : call.On b) :
    b.net.Rewires (left (call.run b)).net := by
  cases call with
  | construct | addInput | setConsumer | addGradient => exact (settled_run htied hon trivial).rewires
  | hold | evaluate | truth | pull | inputGradient | reset =>
    rw [Call.run, net_onSignals]
    exact .refl

/-- Over any calls the wiring grows and stays tied. -/
theorem Leads.grows_tied (h : Leads b b') (htied : b.net.Tied) : b.net.Grows b'.net ∧ b'.net.Tied := by
  induction h with
  | refl => exact ⟨.refl _, htied⟩
  | tail _ hcall ih =>
    obtain ⟨call, hon, rfl⟩ := hcall
    obtain ⟨hgrows, htied'⟩ := (rewires_run ih.2 hon).grows_tied ih.2
    exact ⟨ih.1.trans hgrows, htied'⟩

/-! ### Registries and values -/

/-- An id that a registered node has is not registered once more, and the registry stays as it is. -/
theorem record_of_duplicate {reg : Registry} {node : Node} {r : Nat} (hr : r < reg.size)
    (hid : reg.net.id r = node.id) : Registry.record node reg = .error (.duplicate node.id) reg := by
  have hcontains : reg.contains node.id = true := by
    unfold Registry.size Netlist.size at hr
    refine Array.findIdx?_isSome.trans (Array.any_eq_true.mpr ⟨r, hr, ?_⟩)
    rw [← hid, beq_iff_eq, Netlist.id, Netlist.node, Array.getD_eq_getD_getElem?, Array.getElem?_eq_getElem hr]
    rfl
  unfold Registry.record
  rw [get_bind, hcontains]
  rfl

/-- Values of the wrong shape are refused before anything is written. -/
theorem refused_of_shape {c : Circuit} {values : Tensor R} (h : values.shape ≠ .ok [c.numVars]) (s : Signals R) :
    (∃ e, c.costAt values s = .error e s) ∧ ∃ e, c.clauseValues values s = .error e s := by
  rcases c.vector?_cases values with ⟨e, he⟩ | ⟨ys, hys, rfl, -⟩
  · exact ⟨⟨e, Circuit.costAt_of_refused he⟩, e, Circuit.clauseValues_of_refused he⟩
  · exact absurd (hys ▸ Tensor.shape_vector ys) h

/-- Refused calls leave no trace.  Whatever calls, refused or not, were made on the nodes of a bench: one more call
that makes a node, links nodes or adds to a gradient and is refused leaves the bench as it was.  Over any further calls
an operand stays in its slot and the only consumer of a node that is no sigmoid stays its consumer, and a node that
reads another one is always among the consumers of it.  A registry to which an id is offered again, and the signals of
a circuit to which values of the wrong shape are given, stay as they were, too. -/
theorem refused_leaves_no_trace (hb : Leads empty b) (hb' : Leads b b') :
    (∀ call : Call R, call.On b → call.Wires → ∀ fault b₁, call.run b = .error fault b₁ → b₁ = b ∧ Refuses fault) ∧
    (∀ m i p : Nat, (b.net.operands m)[i]? = some p → (b'.net.operands m)[i]? = some p) ∧
    (∀ p m, b.net.symbol p ≠ 's' → m ∈ b.net.consumers p → b'.net.consumers p = [m]) ∧
    (∀ m, ∀ p ∈ b.net.operands m, m ∈ b.net.consumers p) ∧
    (∀ (reg : Registry) (node : Node), ∀ r < reg.size, reg.net.id r = node.id →
      Registry.record node reg = .error (.duplicate node.id) reg) ∧
    ∀ (c : Circuit) (s : Signals R) (values : Tensor R), values.shape ≠ .ok [c.numVars] →
      (∃ e, c.costAt values s = .error e s) ∧ ∃ e, c.clauseValues values s = .error e s := by
  obtain ⟨-, htied⟩ := hb.grows_tied Netlist.tied_empty
  obtain ⟨hgrows, htied'⟩ := hb'.grows_tied htied
  exact ⟨fun call hon hwires => (settled_run htied hon hwires).refused, fun m i p hp => hgrows.getElem?_operands hp,
    fun p m hsymbol hm => hgrows.consumers_eq htied' hsymbol hm, htied.mem_consumers,
    fun reg node r => record_of_duplicate, fun c s values h => refused_of_shape h s⟩

/-- The bench after some calls, whether or not they are refused. -/
def after (b : Bench R) (calls : List (Call R)) : Bench R := calls.foldl (fun b call => left (call.run b)) b

/-- The negation of a sigmoid, which feeds a connective that waits for its second operand. -/
def halfFed : Bench Float :=
  empty.after [.construct 0 .input, .construct 1 (.sigmoid 0), .construct 2 (.not none), .addInput 2 1,
    .construct 3 (.binary .and 2 none)]

/-- No cost can read a negation that feeds a connective: it is refused and leaves no trace, and what the connective
reads stays when its second slot is filled. -/
theorem refused_cost_leaves_no_trace :
    Leads empty halfFed ∧ Leads halfFed (halfFed.after [.addInput 3 1]) ∧
      (Call.construct 4 (.cost 2)).run halfFed = .error (.alreadyFeeds 2 '~' 3 4) halfFed ∧
      ((halfFed.after [.addInput 3 1]).net.operands 3)[0]? = some 2 ∧
      (halfFed.after [.addInput 3 1]).net.consumers 2 = [3] := by
  have hb : Leads empty halfFed :=
    ((((Relation.ReflTransGen.single ⟨.construct 0 .input, ⟨.input, by decide⟩, rfl⟩).tail
      ⟨.construct 1 (.sigmoid 0), ⟨.sigmoid 0, by decide⟩, rfl⟩).tail
      ⟨.construct 2 (.not none), ⟨.not, by decide⟩, rfl⟩).tail
      ⟨.addInput 2 1, ⟨by decide, by decide⟩, rfl⟩).tail
      ⟨.construct 3 (.binary .and 2 none), ⟨.binary .and 2, by decide⟩, rfl⟩
  have hb' : Leads halfFed (halfFed.after [.addInput 3 1]) := .single ⟨.addInput 3 1, ⟨by decide, by decide⟩, rfl⟩
  obtain ⟨hrefused, hslots, hsingle, -⟩ := refused_leaves_no_trace hb hb'
  obtain ⟨b₁, hrun⟩ : ∃ b₁, (Call.construct 4 (.cost 2)).run halfFed = .error (.alreadyFeeds 2 '~' 3 4) b₁ := ⟨_, rfl⟩
  obtain ⟨rfl, -⟩ := hrefused (.construct 4 (.cost 2)) ⟨.cost 2, by decide⟩ trivial _ _ hrun
  exact ⟨hb, hb', hrun, hslots 3 0 2 rfl, hsingle 2 3 (by decide) (by decide)⟩

end Bench

end SoftLogic
