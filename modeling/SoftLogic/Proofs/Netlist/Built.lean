import SoftLogic.Proofs.Netlist.Demand

/-!
# Netlists that were built by wiring

`Netlist.Built` are the netlists that adding nodes and filling slots can make, one refused step left out.  A node may be
added before what it reads is complete, and slots may stay empty.  In such a netlist each link is held at both of its
ends (`Netlist.Built.linked`), so if no node depends on itself, then neither a chain of operands nor one of consumers
goes on forever.
-/

namespace SoftLogic

/-- What a new node may compute: a negation has no operand yet and a connective has its first one only. -/
inductive Gate.Starts : Gate → Prop
  | input : Starts .input
  | sigmoid (a : Ref) : Starts (.sigmoid a)
  | not : Starts (.not none)
  | binary (op : Connective) (a : Ref) : Starts (.binary op a none)
  | cost (a : Ref) : Starts (.cost a)

namespace Netlist

/-- The netlists that wiring can make. -/
inductive Built : Netlist → Prop
  | empty : Built empty
  /-- A node is added, whose operands are there. -/
  | add {net net' : Netlist} {id : Int} {gate : Gate} : Built net → gate.Starts →
    (∀ d ∈ gate.operands, d < net.size) → net.add id gate = .ok net' → Built net'
  /-- A slot is filled with a node that is there. -/
  | addOperand {net net' : Netlist} {r a : Ref} : Built net → a < net.size → net.addOperand r a = .ok net' → Built net'

/-- No node depends on itself. -/
def Acyclic (net : Netlist) : Prop := ∀ r, ¬Relation.TransGen (fun d m => d ∈ net.operands m) r r

/-- Nodes of the kinds that carry a signal, whose links are held at both of their ends. -/
structure Linked (net : Netlist) : Prop where
  kind : ∀ r < net.size, net.gate r ≠ .plain
  operand : ∀ r, ∀ d ∈ net.operands r, d < net.size
  mirrored : ∀ p m, (net.consumers p).count m = (net.operands m).count p
  /-- A cost feeds nothing. -/
  rootless : ∀ r a, net.gate r = .cost a → net.consumers r = []

/-! ### What wiring keeps -/

section Linked

variable {net net' : Netlist} {r a : Nat} {gate : Gate}

theorem linked_empty : empty.Linked := by
  refine ⟨fun r hr => absurd hr (Nat.not_lt_zero r), fun r d hd => ?_, fun p m => ?_, fun r a hg => ?_⟩
  · rw [operands, gate_of_size_le (Nat.zero_le r)] at hd
    cases hd
  · rw [operands, gate_of_size_le (Nat.zero_le m), consumers_of_size_le (Nat.zero_le p)]
    rfl
  · rw [gate_of_size_le (Nat.zero_le r)] at hg
    cases hg

/-- A leaf is placed behind the last node. -/
theorem Linked.push (h : net.Linked) (id : Int) (hplain : gate ≠ .plain) (hgate : gate.operands = []) :
    (net.push id gate).Linked := by
  have hoperands : ∀ m, (net.push id gate).operands m = net.operands m := by
    intro m
    unfold operands
    rw [gate_push]
    split
    · next hm => rw [hgate, hm, gate_of_size_le (Nat.le_refl _)]; rfl
    · rfl
  refine ⟨fun r hr => ?_, fun r d hd => ?_, fun p m => ?_, fun r a hg => ?_⟩
  · rw [gate_push]
    split
    · exact hplain
    · next hne =>
      rw [size_push] at hr
      exact h.kind r (by omega)
  · rw [hoperands] at hd
    rw [size_push]
    exact Nat.lt_succ_of_lt (h.operand r d hd)
  · rw [hoperands, consumers_push, h.mirrored]
  · rw [gate_push] at hg
    split at hg
    · rw [hg] at hgate
      cases hgate
    · rw [consumers_push, h.rootless r a hg]

/-- A node gets one more operand, which may get a further consumer. -/
theorem Linked.attached (h : net.Linked) (hattached : net.Attached r a gate net') (ha : a < net.size) (hfree : net.Free a)
    (hplain : gate ≠ .plain) (hr : r = net.size ∨ r < net.size ∧ ∀ b, gate ≠ .cost b) : net'.Linked := by
  have hsize : ∀ q, q < net'.size → q = r ∨ q < net.size := by
    intro q hq
    rw [hattached.size_eq] at hq
    rcases hr with hr | ⟨hr, -⟩ <;> omega
  have hle : net.size ≤ net'.size := by
    rw [hattached.size_eq]
    omega
  refine ⟨fun q hq => ?_, fun q d hd => ?_, hattached.mirrored h.mirrored, fun q b hg => ?_⟩
  · rw [hattached.gate_eq]
    split
    · exact hplain
    · next hne => exact h.kind q ((hsize q hq).resolve_left hne)
  · rw [hattached.operands_of] at hd
    split at hd
    · rcases List.mem_append.mp hd with hd | hd
      · exact Nat.lt_of_lt_of_le (h.operand r d hd) hle
      · obtain rfl := List.mem_singleton.mp hd
        exact Nat.lt_of_lt_of_le ha hle
    · exact Nat.lt_of_lt_of_le (h.operand q d hd) hle
  · rw [hattached.gate_eq] at hg
    split at hg
    · next hqr =>
      subst hqr
      rcases hr with rfl | ⟨-, hcost⟩
      · rw [hattached.consumers_of_ne (Nat.ne_of_gt ha), consumers_of_size_le (Nat.le_refl _)]
      · exact absurd hg (hcost b)
    · have hqa : q ≠ a := by
        rintro rfl
        rcases hfree with ⟨k, hk⟩ | ⟨-, hcost⟩
        · cases hk.symm.trans hg
        · exact hcost b hg
      rw [hattached.consumers_of_ne hqa, h.rootless q b hg]

/-- A gate whose slot was filled computes something, and is no cost. -/
theorem fill_ne (hopen : gate.isOpen = true) (a : Ref) : gate.fill a ≠ .plain ∧ ∀ b, gate.fill a ≠ .cost b := by
  cases gate with
  | not b => cases b <;> simp [Gate.fill, Gate.isOpen] at hopen ⊢
  | binary op b c => cases c <;> simp [Gate.fill, Gate.isOpen] at hopen ⊢
  | _ => simp [Gate.isOpen] at hopen

theorem Linked.add (h : net.Linked) {id : Int} (hstarts : gate.Starts) (hlt : ∀ d ∈ gate.operands, d < net.size)
    (hadd : net.add id gate = .ok net') : net'.Linked := by
  have hone : ∀ a, gate.operands = [a] → gate ≠ .plain → net'.Linked := by
    intro a hgate hplain
    have ha : a < net.size := hlt a (hgate ▸ List.mem_singleton_self a)
    obtain ⟨hfree, hattached⟩ := attached_of_add ha hgate hadd
    exact h.attached hattached ha hfree hplain (.inl rfl)
  cases hstarts with
  | input | not =>
    cases hadd
    exact h.push id Gate.noConfusion rfl
  | sigmoid a | binary op a | cost a => exact hone a rfl Gate.noConfusion

theorem Linked.addOperand (h : net.Linked) (ha : a < net.size) (hadd : net.addOperand r a = .ok net') : net'.Linked := by
  obtain ⟨hopen, hfree, hattached⟩ := attached_of_addOperand ha hadd
  have hr := lt_size_of_isOpen hopen
  obtain ⟨hplain, hcost⟩ := fill_ne hopen a
  exact h.attached hattached ha hfree hplain (.inr ⟨hr, hcost⟩)

theorem Built.linked (h : net.Built) : net.Linked := by
  induction h with
  | empty => exact linked_empty
  | add _ hstarts hlt hadd ih => exact ih.add hstarts hlt hadd
  | addOperand _ ha hadd ih => exact ih.addOperand ha hadd

end Linked

/-! ### No chain goes on forever -/

section WellFounded

variable {net : Netlist}

theorem Linked.mem_operands_iff (h : net.Linked) {r d : Nat} : d ∈ net.operands r ↔ r ∈ net.consumers d := by
  rw [← List.count_pos_iff, ← List.count_pos_iff, h.mirrored d r]

theorem Linked.layered (h : net.Linked) (hacyclic : net.Acyclic) : net.Layered := ⟨h.kind, h.operand, hacyclic⟩

/-- A node that is fed is one of the netlist. -/
theorem Linked.consumer_lt_size (h : net.Linked) {r d : Nat} (hd : d ∈ net.consumers r) : d < net.size :=
  lt_size_of_mem_operands (h.mem_operands_iff.mpr hd)

/-- In a finite netlist without cycles, no chain of consumers goes on forever. -/
theorem Linked.wellFounded_consumers (h : net.Linked) (hacyclic : net.Acyclic) :
    WellFounded fun d r => d ∈ net.consumers r := by
  have hlt : ∀ d r, d ∈ net.consumers r → d < net.size ∧ r < net.size := fun d r hd =>
    ⟨h.consumer_lt_size hd, h.operand d r (h.mem_operands_iff.mpr hd)⟩
  refine wellFounded_of_acyclic (fun r hcycle => hacyclic r ?_) hlt
  exact Relation.transGen_swap.mp (Relation.TransGen.mono (fun d m hd => h.mem_operands_iff.mpr hd) _ _ hcycle)

end WellFounded

end Netlist

end SoftLogic
