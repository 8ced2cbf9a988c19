import Mathlib.Data.List.Forall2
import SoftLogic.Proofs.Clause.Acceptance
import SoftLogic.Proofs.Effect
import SoftLogic.Proofs.Netlist.Wiring

/-!
# Assembling follows reading

The assembly of a clause does to nodes what `Formula.read` does to formulas.  `Assembly.Underway` relates the
two at any moment: pending gates stand for open slots, operands stand for formulas, and every node that the
clause has placed is in one of the stacks or has found its place under another one.  A registry that is left
behind, by an accepted clause or by a rejected one, is sound again.
-/

namespace SoftLogic

/-- What follows from being related holds of all entries of a list that is related to another one. -/
theorem forall_of_forall₂ {α β : Type} {R : α → β → Prop} {P : α → Prop} {xs : List α} {ys : List β}
    (h : List.Forall₂ R xs ys) (hR : ∀ x y, R x y → P x) : ∀ x ∈ xs, P x :=
  ((List.forall₂_and_left (R := fun _ _ => True) _ _).mp (h.imp fun x y hxy => ⟨hR x y hxy, trivial⟩)).1

/-- The wiring is sound and every id was drawn. -/
structure Registry.Sound (reg : Registry) (n : Nat) : Prop where
  net : reg.net.Sound n
  fresh : ∀ r < reg.size, reg.net.id r < reg.nextId

/-- `reg` is `reg₀` with further nodes, which may read those that were there. -/
structure Registry.Extends (reg₀ reg : Registry) : Prop where
  size_le : reg₀.size ≤ reg.size
  gate_eq : ∀ r < reg₀.size, reg.net.gate r = reg₀.net.gate r
  id_eq : ∀ r < reg₀.size, reg.net.id r = reg₀.net.id r
  consumers_prefix : ∀ r, reg₀.net.consumers r <+: reg.net.consumers r

/-! ### Drawing ids, placing and wiring -/

theorem Registry.contains_nextId {reg : Registry} (h : ∀ r < reg.size, reg.net.id r < reg.nextId) :
    reg.contains reg.nextId = false := by
  unfold contains find?
  rw [Array.findIdx?_eq_none_iff.mpr]
  · rfl
  · intro node hmem
    obtain ⟨r, hr, rfl⟩ := Array.getElem_of_mem hmem
    have := h r hr
    simp [Netlist.id, Netlist.node, hr] at this
    simp
    omega

/-- A node under the next id has an id that was drawn. -/
theorem Registry.fresh_add {reg : Registry} {net : Netlist} (h : ∀ r < reg.size, reg.net.id r < reg.nextId)
    (hsize : net.size = reg.size + 1) (hself : net.id reg.size = reg.nextId)
    (hid : ∀ q, q ≠ reg.size → net.id q = reg.net.id q) (r : Nat) (hr : r < net.size) :
    net.id r < ((reg.nextId + 1 : Nat) : Int) := by
  by_cases hrs : r = reg.size
  · rw [hrs, hself]
    omega
  · rw [hid r hrs]
    have := h r (by omega)
    omega

theorem Registry.Extends.refl (reg : Registry) : reg.Extends reg :=
  ⟨Nat.le_refl _, fun _ _ => rfl, fun _ _ => rfl, fun _ => List.prefix_rfl⟩

theorem Registry.Extends.trans {reg₁ reg₂ reg₃ : Registry} (h : reg₁.Extends reg₂) (h' : reg₂.Extends reg₃) :
    reg₁.Extends reg₃ :=
  ⟨Nat.le_trans h.size_le h'.size_le,
    fun r hr => (h'.gate_eq r (Nat.lt_of_lt_of_le hr h.size_le)).trans (h.gate_eq r hr),
    fun r hr => (h'.id_eq r (Nat.lt_of_lt_of_le hr h.size_le)).trans (h.id_eq r hr),
    fun r => (h.consumers_prefix r).trans (h'.consumers_prefix r)⟩

theorem Registry.Extends.denotes {reg₁ reg₂ : Registry} {n : Nat} {r : Nat} {f : Formula}
    (h : reg₁.Extends reg₂) (hd : reg₁.net.Denotes n r f) : reg₂.net.Denotes n r f :=
  hd.mono fun q _ hq => h.gate_eq q hq

theorem Registry.Extends.attached {reg₀ reg : Registry} {r a nextId : Nat} {gate : Gate}
    {net : Netlist} (h : reg₀.Extends reg) (hattached : reg.net.Attached r a gate net)
    (hr : reg₀.size ≤ r) (hid : ∀ q, q ≠ reg.size → net.id q = reg.net.id q) :
    reg₀.Extends ⟨net, nextId⟩ := by
  have hsize := h.size_le
  have hsize' := hattached.size_eq
  simp only [Registry.size] at hr hsize hid
  refine ⟨by simp only [Registry.size]; omega, ?_, ?_, ?_⟩
  · intro q hq
    simp only [Registry.size] at hq
    rw [← h.gate_eq q hq]
    exact hattached.gate_of_ne (by omega)
  · intro q hq
    simp only [Registry.size] at hq
    rw [← h.id_eq q hq]
    exact hid q (by omega)
  · intro q
    refine (h.consumers_prefix q).trans ?_
    show _ <+: net.consumers q
    rw [hattached.consumers_eq]
    split
    · subst q
      exact List.prefix_append _ _
    · exact List.prefix_rfl

namespace Assembly

/-- Placing draws an id first. -/
theorem place_of_insert_ok {reg reg' : Registry} {gate : Gate}
    (h : Registry.insert { reg with nextId := reg.nextId + 1 } reg.nextId gate = .ok reg') :
    place gate reg = .ok (reg'.size - 1) reg' := by
  have hplace : Registry.place gate reg = .ok (reg'.size - 1) reg' := by
    unfold Registry.place
    rw [Effect.modifyGet_bind, Effect.get_bind, Registry.fresh_fst, Registry.fresh_snd, h]
    rfl
  exact Effect.adaptExcept_of_ok hplace

/-- The id is drawn even if the node is refused. -/
theorem place_of_insert_error {reg : Registry} {gate : Gate} {e : RegisterError}
    (h : Registry.insert { reg with nextId := reg.nextId + 1 } reg.nextId gate = .error e) :
    place gate reg = .error (.register e) { reg with nextId := reg.nextId + 1 } := by
  unfold place Registry.place
  rw [Effect.adaptExcept_apply, Effect.modifyGet_bind, Effect.get_bind, Registry.fresh_fst, Registry.fresh_snd, h]
  rfl

theorem place_of_add {reg : Registry} {gate : Gate} {net : Netlist}
    (hfresh : ∀ r < reg.size, reg.net.id r < reg.nextId) (h : reg.net.add reg.nextId gate = .ok net) :
    place gate reg = .ok (net.size - 1) ⟨net, reg.nextId + 1⟩ := by
  have hinsert : Registry.insert { reg with nextId := reg.nextId + 1 } reg.nextId gate =
      .ok ⟨net, reg.nextId + 1⟩ := by
    unfold Registry.insert
    show (if reg.contains reg.nextId = true then _ else _) = _
    rw [Registry.contains_nextId hfresh]
    simp [h]
  exact place_of_insert_ok hinsert

theorem wire_of_addOperand {reg : Registry} {r a : Ref} {net : Netlist}
    (h : reg.net.addOperand r a = .ok net) : wire r a reg = .ok () { reg with net := net } := by
  unfold wire
  rw [Effect.get_bind]
  simp only [Registry.wire, h]
  rfl

/-! ### The relation between the two -/

/-- What waits among the nodes and among the formulas. -/
inductive Waits (net : Netlist) (n start : Nat) : Pending → Frame → Prop
  | group : Waits net n start .group .group
  | not {r : Nat} : start ≤ r → net.gate r = .not none → Waits net n start (.gate r) (.hole .not)
  | binary {r : Nat} {op : Connective} {a : Ref} {f : Formula} : start ≤ r →
    net.gate r = .binary op a none → net.Denotes n a f →
    Waits net n start (.gate r) (.hole (.binary op f))

/-- The state of an assembly that began in `reg₀` and the state of the reading. -/
structure Underway (reg₀ reg : Registry) (n : Nat) (s : Stacks) (m : Reading) : Prop where
  sound : reg.Sound n
  extends_start : reg₀.Extends reg
  start : 2 * n ≤ reg₀.size
  pending : List.Forall₂ (Waits reg.net n reg₀.size) s.pending m.frames
  operands : List.Forall₂ (fun a f => reg.net.Denotes n a f ∧ reg.net.Free a) s.operands m.formulas
  /-- No gate waits twice. -/
  apart : s.pending.Pairwise fun p q => ∀ r, p = .gate r → q ≠ .gate r
  /-- Only a sigmoid is an operand twice. -/
  distinct : s.operands.Pairwise fun a b => a = b → a < 2 * n
  /-- Every gate with an open slot waits. -/
  waiting : ∀ r, reg₀.size ≤ r → (reg.net.gate r).isOpen = true → .gate r ∈ s.pending
  /-- Every finished gate that feeds nothing is an operand. -/
  loose : ∀ r, reg₀.size ≤ r → r < reg.size → (reg.net.gate r).isOpen = false →
    reg.net.consumers r = [] → r ∈ s.operands
  /-- The root of the clause is yet to come. -/
  rootless : ∀ r, reg₀.size ≤ r → ∀ a, reg.net.gate r ≠ .cost a

/-- In `reg` the clause that began in `reg₀` has its root, which stands for `f`, and nothing waits. -/
structure Completes (reg₀ reg : Registry) (n root : Nat) (f : Formula) : Prop where
  sound : reg.Sound n
  extends_start : reg₀.Extends reg
  closed : reg.net.ClosedFrom reg₀.size
  size_le : reg₀.size ≤ root
  source : reg.net.CostOf n root f
  only : ∀ r, reg₀.size ≤ r → ∀ a, reg.net.gate r = .cost a → r = root

section Waits

variable {net net' : Netlist} {n start : Nat} {p : Pending} {frame : Frame}

theorem Waits.isOpen {r : Nat} (h : Waits net n start (.gate r) frame) :
    (net.gate r).isOpen = true ∧ start ≤ r := by
  cases h with
  | not hr hg => exact ⟨by rw [hg]; rfl, hr⟩
  | binary hr hg _ => exact ⟨by rw [hg]; rfl, hr⟩

theorem Waits.mono (h : Waits net n start p frame)
    (hgate : ∀ r, p = .gate r → net'.gate r = net.gate r)
    (hdenotes : ∀ q f, net.Denotes n q f → net'.Denotes n q f) : Waits net' n start p frame := by
  cases h with
  | group => exact .group
  | not hr hg => exact .not hr ((hgate _ rfl).trans hg)
  | binary hr hg hd => exact .binary hr ((hgate _ rfl).trans hg) (hdenotes _ _ hd)

/-- The formula that a gate gets with its last operand. -/
theorem Waits.fill {r a : Nat} {f : Formula} {fill : Formula → Formula}
    (h : Waits net n start (.gate r) (.hole fill)) (hgate : net'.gate r = (net.gate r).fill a)
    (hdenotes : ∀ q f, net.Denotes n q f → net'.Denotes n q f) (ha : net.Denotes n a f) :
    net'.Denotes n r (fill f) := by
  cases h with
  | not _ hg => exact .not (by rw [hgate, hg]; rfl) (hdenotes _ _ ha)
  | binary _ hg hd => exact .binary (by rw [hgate, hg]; rfl) (hdenotes _ _ hd) (hdenotes _ _ ha)

theorem isOpen_of_mem {pending : List Pending} {frames : List Frame} {r : Nat}
    (h : List.Forall₂ (Waits net n start) pending frames) (hr : .gate r ∈ pending) :
    (net.gate r).isOpen = true ∧ start ≤ r := by
  induction h with
  | nil => cases hr
  | cons hw _ ih =>
    rcases List.mem_cons.mp hr with rfl | hr
    · exact hw.isOpen
    · exact ih hr

theorem lt_size_of_mem {pending : List Pending} {frames : List Frame} {r : Nat}
    (h : List.Forall₂ (Waits net n start) pending frames) (hr : .gate r ∈ pending) : r < net.size := by
  refine Netlist.lt_size_of_gate fun hg => ?_
  have hopen := (isOpen_of_mem h hr).1
  rw [hg] at hopen
  cases hopen

theorem waits_mono {pending : List Pending} {frames : List Frame}
    (h : List.Forall₂ (Waits net n start) pending frames)
    (hgate : ∀ r, .gate r ∈ pending → net'.gate r = net.gate r)
    (hdenotes : ∀ q f, net.Denotes n q f → net'.Denotes n q f) :
    List.Forall₂ (Waits net' n start) pending frames := by
  refine ((List.forall₂_and_left _ _).mpr ⟨fun p hp => hp, h⟩).imp ?_
  rintro p frame ⟨hp, hw⟩
  exact hw.mono (fun r hr => hgate r (hr ▸ hp)) hdenotes

/-- Operands keep their formulas and stay free while another one, or a sigmoid, is attached. -/
theorem operands_attached {r a : Nat} {gate : Gate} {operands : List Ref} {formulas : List Formula}
    (h : net.Attached r a gate net') (hs : net.Sound n)
    (hr : (net.gate r).isOpen = true ∨ r = net.size) (hdistinct : ∀ b ∈ operands, a = b → a < 2 * n)
    (hoperands : List.Forall₂ (fun b f => net.Denotes n b f ∧ net.Free b) operands formulas) :
    List.Forall₂ (fun b f => net'.Denotes n b f ∧ net'.Free b) operands formulas := by
  refine ((List.forall₂_and_left _ _).mpr ⟨hdistinct, hoperands⟩).imp ?_
  rintro b f ⟨hb, hd, hfree⟩
  have hbr : b ≠ r := by
    rintro rfl
    rcases hr with hopen | hsize
    · simp [hd.isOpen_eq_false] at hopen
    · exact Nat.ne_of_lt hd.lt_size hsize
  exact ⟨h.denotes hr hd, h.free hs hd hfree hbr hb⟩

end Waits

/-! ### The moves -/

section Moves

variable {reg₀ reg : Registry} {n : Nat} {pending : List Pending} {operands : List Ref}
  {frames : List Frame} {formulas : List Formula}

/-- The gate that waits last gets its operand. -/
theorem Underway.fill {r a : Nat} {fill : Formula → Formula} {f : Formula}
    (h : Underway reg₀ reg n ⟨.gate r :: pending, a :: operands⟩
      ⟨.hole fill :: frames, f :: formulas⟩) :
    ∃ reg', wire r a reg = .ok () reg' ∧
      Underway reg₀ reg' n ⟨pending, r :: operands⟩ ⟨frames, fill f :: formulas⟩ := by
  obtain ⟨hwaits, hpending⟩ := List.forall₂_cons.mp h.pending
  obtain ⟨⟨hd, hfree⟩, hoperands⟩ := List.forall₂_cons.mp h.operands
  obtain ⟨hapart, hpairwise⟩ := List.pairwise_cons.mp h.apart
  obtain ⟨hdistinct, hpairwise'⟩ := List.pairwise_cons.mp h.distinct
  obtain ⟨hopen, hr⟩ := hwaits.isOpen
  have hstart := h.start
  have hr' : 2 * n ≤ r := by omega
  have hnil := h.sound.net.consumers_of_isOpen hopen
  obtain ⟨net, hadd, hattached, hid⟩ := Netlist.attached_addOperand hopen hd.lt_size hfree
  have hmono : ∀ q g, reg.net.Denotes n q g → net.Denotes n q g :=
    fun q g hq => hattached.denotes (.inl hopen) hq
  have hfill : net.Denotes n r (fill f) := hwaits.fill hattached.gate_self hmono hd
  have hne : ∀ {b : Nat} {g : Formula}, reg.net.Denotes n b g → b ≠ r := by
    rintro b g hb rfl
    simp [hb.isOpen_eq_false] at hopen
  have hmem : ∀ b ∈ operands, b ≠ r := forall_of_forall₂ hoperands fun b g hb => hne hb.1
  have hra : r ≠ a := (hne hd).symm
  have hlt : r < reg.net.size := Netlist.lt_size_of_gate fun hg => by simp [hg, Gate.isOpen] at hopen
  have hsize : net.size = reg.size := by
    rw [hattached.size_eq, Registry.size]
    omega
  refine ⟨_, wire_of_addOperand hadd, ?_⟩
  refine ⟨⟨h.sound.net.attached hattached hr' (.inl hopen) hd hfree (.finished hfill), ?_⟩,
    h.extends_start.attached hattached hr fun q _ => hid q, h.start, ?_, ?_, hpairwise, ?_, ?_, ?_, ?_⟩
  · intro q hq
    rw [hid q]
    exact h.sound.fresh q (Nat.lt_of_lt_of_eq hq hsize)
  · -- the gates that still wait are others, since no gate waits twice
    refine waits_mono hpending (fun q hq => hattached.gate_of_ne ?_) hmono
    rintro rfl
    exact hapart _ hq q rfl rfl
  · refine .cons ⟨hfill, .inr ⟨?_, hfill.gate_ne_cost⟩⟩ ?_
    · rw [hattached.consumers_of_ne hra, hnil]
    · exact operands_attached hattached h.sound.net (.inl hopen) hdistinct hoperands
  · exact List.pairwise_cons.mpr ⟨fun b hb hrb => absurd hrb.symm (hmem b hb), hpairwise'⟩
  · intro q hq hqopen
    have hqr : q ≠ r := by
      rintro rfl
      rw [hfill.isOpen_eq_false] at hqopen
      cases hqopen
    rw [hattached.gate_of_ne hqr] at hqopen
    rcases List.mem_cons.mp (h.waiting q hq hqopen) with hmem | hmem
    · cases hmem
      exact absurd rfl hqr
    · exact hmem
  · -- `a` feeds `r` now, and `r` has taken its place among the operands
    intro q hq hqlt hqclosed hqnil
    by_cases hqr : q = r
    · exact hqr ▸ List.mem_cons_self
    · have hqa : q ≠ a := by
        rintro rfl
        simp [hattached.consumers_self] at hqnil
      rw [hattached.gate_of_ne hqr] at hqclosed
      rw [hattached.consumers_of_ne hqa] at hqnil
      refine List.mem_cons_of_mem r ?_
      have := h.loose q hq (Nat.lt_of_lt_of_eq hqlt hsize) hqclosed hqnil
      exact (List.mem_cons.mp this).resolve_left hqa
  · intro q hq
    by_cases hqr : q = r
    · exact hqr ▸ hfill.gate_ne_cost
    · rw [hattached.gate_of_ne hqr]
      exact h.rootless q hq

/-- The last operand goes into a new node. -/
theorem Underway.place_operand {a : Nat} {f : Formula} (gate : Gate)
    (h : Underway reg₀ reg n ⟨pending, a :: operands⟩ ⟨frames, f :: formulas⟩)
    (hgate : gate.operands = [a])
    (hstage : ∀ net, reg.net.Attached reg.size a gate net → net.Denotes n a f →
      net.Stage n reg.size) :
    ∃ reg', place gate reg = .ok reg.size reg' ∧ reg.net.Attached reg.size a gate reg'.net ∧
      reg'.size = reg.size + 1 ∧ reg'.Sound n ∧ reg₀.Extends reg' ∧
      ∀ q g, reg.net.Denotes n q g → reg'.net.Denotes n q g := by
  obtain ⟨⟨hd, hfree⟩, -⟩ := List.forall₂_cons.mp h.operands
  obtain ⟨net, hadd, hattached, hid, hid'⟩ := Netlist.attached_add reg.nextId hd.lt_size hfree hgate
  have hmono : ∀ q g, reg.net.Denotes n q g → net.Denotes n q g :=
    fun q g hq => hattached.denotes (.inr rfl) hq
  have hsize : net.size = reg.size + 1 := by
    rw [hattached.size_eq, Registry.size]
    omega
  have hle := h.extends_start.size_le
  have hstart := h.start
  have hplace := place_of_add h.sound.fresh hadd
  rw [hsize, Nat.add_sub_cancel] at hplace
  refine ⟨_, hplace, hattached, hsize, ⟨?_, Registry.fresh_add h.sound.fresh hsize hid hid'⟩,
    h.extends_start.attached hattached hle fun q hq => hid' q hq, hmono⟩
  exact h.sound.net.attached hattached (Nat.le_trans hstart hle) (.inr rfl) hd hfree
    (hstage net hattached (hmono a f hd))

/-- A new node with an open slot waits; what it reads is no operand any more. -/
theorem Underway.await {reg' : Registry} {operands' : List Ref} {formulas' : List Formula} {frame : Frame}
    (h : Underway reg₀ reg n ⟨pending, operands⟩ ⟨frames, formulas⟩) (hsound : reg'.Sound n)
    (hextends : reg₀.Extends reg') (hsize : reg'.size = reg.size + 1)
    (hwaits : Waits reg'.net n reg₀.size (.gate reg.size) frame)
    (hgate : ∀ q : Nat, q ≠ reg.size → reg'.net.gate q = reg.net.gate q)
    (hdenotes : ∀ q f, reg.net.Denotes n q f → reg'.net.Denotes n q f)
    (hoperands : List.Forall₂ (fun a f => reg'.net.Denotes n a f ∧ reg'.net.Free a) operands' formulas')
    (hdistinct : operands'.Pairwise fun a b => a = b → a < 2 * n)
    (hloose : ∀ q, reg'.net.consumers q = [] →
      reg.net.consumers q = [] ∧ (q ∈ operands → q ∈ operands')) :
    Underway reg₀ reg' n ⟨.gate reg.size :: pending, operands'⟩ ⟨frame :: frames, formulas'⟩ := by
  have hne : ∀ r, .gate r ∈ pending → r ≠ reg.size :=
    fun r hr => Nat.ne_of_lt (lt_size_of_mem h.pending hr)
  refine ⟨hsound, hextends, h.start, ?_, hoperands, ?_, hdistinct, ?_, ?_, ?_⟩
  · exact .cons hwaits (waits_mono h.pending (fun r hr => hgate r (hne r hr)) hdenotes)
  · refine List.pairwise_cons.mpr ⟨fun p hp r hr => ?_, h.apart⟩
    cases hr
    rintro rfl
    exact hne _ hp rfl
  · intro q hq hqopen
    by_cases hqs : q = reg.size
    · exact hqs ▸ List.mem_cons_self
    · rw [hgate q hqs] at hqopen
      exact List.mem_cons_of_mem _ (h.waiting q hq hqopen)
  · intro q hq hqlt hqclosed hqnil
    have hqs : q ≠ reg.size := by
      rintro rfl
      rw [hwaits.isOpen.1] at hqclosed
      cases hqclosed
    rw [hgate q hqs] at hqclosed
    obtain ⟨hnil, hkept⟩ := hloose q hqnil
    exact hkept (h.loose q hq (by omega) hqclosed hnil)
  · intro q hq b hb
    by_cases hqs : q = reg.size
    · have hopen := hwaits.isOpen.1
      rw [← hqs, hb] at hopen
      cases hopen
    · rw [hgate q hqs] at hb
      exact h.rootless q hq b hb

/-- A connective is placed, and its second operand is waited for. -/
theorem Underway.place_binary {a : Nat} {f : Formula}
    (h : Underway reg₀ reg n ⟨pending, a :: operands⟩ ⟨frames, f :: formulas⟩) (op : Connective) :
    ∃ reg', place (.binary op a none) reg = .ok reg.size reg' ∧
      Underway reg₀ reg' n ⟨.gate reg.size :: pending, operands⟩
        ⟨.hole (.binary op f) :: frames, formulas⟩ := by
  obtain ⟨⟨hd, hfree⟩, hoperands⟩ := List.forall₂_cons.mp h.operands
  obtain ⟨hdistinct, hpairwise'⟩ := List.pairwise_cons.mp h.distinct
  have hlt := hd.lt_size
  obtain ⟨reg', hplace, hattached, hsize, hsound, hextends, hmono⟩ :=
    h.place_operand (.binary op a none) rfl fun net hnet hda =>
      .waiting hnet.gate_self hda
        ((hnet.consumers_of_ne (Nat.ne_of_gt hlt)).trans (Netlist.consumers_of_size_le (Nat.le_refl _)))
  refine ⟨reg', hplace, h.await hsound hextends hsize
    (.binary h.extends_start.size_le hattached.gate_self (hmono a f hd)) (fun q hq => hattached.gate_of_ne hq)
    hmono ?_ hpairwise' ?_⟩
  · exact operands_attached hattached h.sound.net (.inr rfl) hdistinct hoperands
  · intro q hqnil
    have hqa : q ≠ a := by
      rintro rfl
      simp [hattached.consumers_self] at hqnil
    rw [hattached.consumers_of_ne hqa] at hqnil
    exact ⟨hqnil, fun hq => (List.mem_cons.mp hq).resolve_left hqa⟩

/-- A negation is placed, and its operand is waited for. -/
theorem Underway.place_not (h : Underway reg₀ reg n ⟨pending, operands⟩ ⟨frames, formulas⟩) :
    ∃ reg', place (.not none) reg = .ok reg.size reg' ∧
      Underway reg₀ reg' n ⟨.gate reg.size :: pending, operands⟩ ⟨.hole .not :: frames, formulas⟩ := by
  have hadd : reg.net.add reg.nextId (.not none) = .ok (reg.net.push reg.nextId (.not none)) := rfl
  have hplace := place_of_add h.sound.fresh hadd
  rw [Netlist.size_push, Nat.add_sub_cancel] at hplace
  have hgate : ∀ q : Nat, q ≠ reg.net.size →
      (reg.net.push reg.nextId (.not none)).gate q = reg.net.gate q :=
    fun q hq => by rw [Netlist.gate_push, if_neg hq]
  have hid : ∀ q : Nat, q ≠ reg.net.size →
      (reg.net.push reg.nextId (.not none)).id q = reg.net.id q :=
    fun q hq => by rw [Netlist.id_push, if_neg hq]
  have hself : (reg.net.push reg.nextId (.not none)).id reg.net.size = reg.nextId := by
    rw [Netlist.id_push, if_pos rfl]
  have hcons := Netlist.consumers_push reg.net reg.nextId (.not none)
  have hsize := Netlist.size_push reg.net reg.nextId (.not none)
  have hmono : ∀ q g, reg.net.Denotes n q g → (reg.net.push reg.nextId (.not none)).Denotes n q g :=
    fun q g hq => hq.mono fun p _ hp => hgate p (Nat.ne_of_lt hp)
  have hle : reg₀.size ≤ reg.net.size := h.extends_start.size_le
  refine ⟨_, hplace, h.await ⟨h.sound.net.push_not _, Registry.fresh_add h.sound.fresh hsize hself hid⟩
    ⟨?_, ?_, ?_, ?_⟩ hsize (.not hle (by simp [Registry.size])) hgate hmono
    ?_ h.distinct fun q hqnil => ⟨(hcons q).symm.trans hqnil, fun hq => hq⟩⟩
  · simp only [Registry.size, Netlist.size_push] at hle ⊢
    omega
  · intro q hq
    exact (hgate q (by omega)).trans (h.extends_start.gate_eq q hq)
  · intro q hq
    exact (hid q (by omega)).trans (h.extends_start.id_eq q hq)
  · intro q
    show _ <+: (reg.net.push reg.nextId (.not none)).consumers q
    rw [hcons]
    exact h.extends_start.consumers_prefix q
  · refine h.operands.imp ?_
    rintro b g ⟨hdb, hfreeb⟩
    refine ⟨hmono b g hdb, ?_⟩
    unfold Netlist.Free
    rw [hgate b (Nat.ne_of_lt hdb.lt_size), hcons]
    exact hfreeb

/-- A variable is an operand at once. -/
theorem Underway.push_leaf {k : Nat} (h : Underway reg₀ reg n ⟨pending, operands⟩ ⟨frames, formulas⟩)
    (hk : k < n) :
    Underway reg₀ reg n ⟨pending, Circuit.sigmoidOf n k :: operands⟩ ⟨frames, .var k :: formulas⟩ := by
  have hgate := h.sound.net.sigmoid k hk
  refine ⟨h.sound, h.extends_start, h.start, h.pending, ?_, h.apart, ?_, h.waiting, ?_, h.rootless⟩
  · exact .cons ⟨.var hk rfl hgate, .inl ⟨k, hgate⟩⟩ h.operands
  · refine List.pairwise_cons.mpr ⟨fun b _ hb => ?_, h.distinct⟩
    unfold Circuit.sigmoidOf
    omega
  · intro q hq hqlt hqclosed hqnil
    exact List.mem_cons_of_mem _ (h.loose q hq hqlt hqclosed hqnil)

/-- An open parenthesis draws an id and waits. -/
theorem Underway.push_group (h : Underway reg₀ reg n ⟨pending, operands⟩ ⟨frames, formulas⟩) :
    Underway reg₀ reg.fresh.2 n ⟨.group :: pending, operands⟩ ⟨.group :: frames, formulas⟩ := by
  refine ⟨⟨h.sound.net, ?_⟩, ⟨h.extends_start.size_le, h.extends_start.gate_eq,
    h.extends_start.id_eq, h.extends_start.consumers_prefix⟩, h.start, .cons .group h.pending,
    h.operands, ?_, h.distinct, ?_, h.loose, h.rootless⟩
  · intro q hq
    have := h.sound.fresh q hq
    rw [Registry.fresh_snd]
    simp only
    omega
  · refine List.pairwise_cons.mpr ⟨fun p _ r hr => ?_, h.apart⟩
    cases hr
  · intro q hq hqopen
    exact List.mem_cons_of_mem _ (h.waiting q hq hqopen)

/-- A closing parenthesis ends the wait of the open one. -/
theorem Underway.pop_group
    (h : Underway reg₀ reg n ⟨.group :: pending, operands⟩ ⟨.group :: frames, formulas⟩) :
    Underway reg₀ reg n ⟨pending, operands⟩ ⟨frames, formulas⟩ := by
  refine ⟨h.sound, h.extends_start, h.start, (List.forall₂_cons.mp h.pending).2, h.operands,
    (List.pairwise_cons.mp h.apart).2, h.distinct, fun q hq hqopen => ?_, h.loose, h.rootless⟩
  rcases List.mem_cons.mp (h.waiting q hq hqopen) with hmem | hmem
  · cases hmem
  · exact hmem

/-- The root of a clause is placed when everything else has found its place. -/
theorem Underway.place_cost {a : Nat} {f : Formula} (h : Underway reg₀ reg n ⟨[], [a]⟩ ⟨[], [f]⟩) :
    ∃ reg', place (.cost a) reg = .ok reg.size reg' ∧ Completes reg₀ reg' n reg.size f := by
  obtain ⟨⟨hd, hfree⟩, -⟩ := List.forall₂_cons.mp h.operands
  have hlt := hd.lt_size
  obtain ⟨reg', hplace, hattached, hsize, hsound, hextends, hmono⟩ :=
    h.place_operand (.cost a) rfl fun net hnet hda =>
      .root hnet.gate_self hda
        ((hnet.consumers_of_ne (Nat.ne_of_gt hlt)).trans (Netlist.consumers_of_size_le (Nat.le_refl _)))
  refine ⟨reg', hplace, hsound, hextends, ?_, h.extends_start.size_le,
    ⟨a, hattached.gate_self, hmono a f hd⟩, ?_⟩
  · intro q hq hqlt
    by_cases hqs : q = reg.size
    · subst hqs
      rw [hattached.gate_self]
      exact ⟨rfl, fun _ => ⟨a, rfl⟩⟩
    · rw [hattached.gate_of_ne hqs]
      -- whatever is open waits, and nothing does
      have hclosed : (reg.net.gate q).isOpen = false := by
        by_contra hopen
        cases h.waiting q hq (by simpa using hopen)
      refine ⟨hclosed, fun hqnil => ?_⟩
      have hqa : q ≠ a := by
        rintro rfl
        simp [hattached.consumers_self] at hqnil
      rw [hattached.consumers_of_ne hqa] at hqnil
      have := h.loose q hq (by simp only [Registry.size] at hqlt hqs hsize ⊢; omega) hclosed hqnil
      exact absurd (List.mem_singleton.mp this) hqa
  · intro q hq b hb
    by_contra hqs
    rw [hattached.gate_of_ne hqs] at hb
    exact h.rootless q hq b hb

end Moves

end Assembly

/-! ### Scanning -/

/-- A variable that is scanned is declared. -/
theorem Token.lt_of_scanFrom {clause : String} {n column : Nat} {chars : List Char} {tokens : List Token}
    (h : scanFrom clause n column chars = .ok tokens) :
    ∀ t ∈ tokens, ∀ k, t.symbol = .variable k → k < n := by
  induction chars generalizing column tokens with
  | nil =>
    cases h
    intro t ht
    cases ht
  | cons c rest ih =>
    -- a token that is scanned goes before those of the rest
    have hcons : ∀ symbol, (∀ k, symbol = .variable k → k < n) →
        (do return ⟨symbol, column⟩ :: (← scanFrom clause n (column + 1) rest) : Except _ _) = .ok tokens →
        ∀ t ∈ tokens, ∀ k, t.symbol = .variable k → k < n := by
      intro symbol hsymbol h
      match hrest : scanFrom clause n (column + 1) rest with
      | .error e =>
        rw [hrest] at h
        cases h
      | .ok tokens' =>
        rw [hrest] at h
        cases h
        rintro t ht k hk
        rcases List.mem_cons.mp ht with rfl | ht
        · exact hsymbol k hk
        · exact ih hrest t ht k hk
    rw [scanFrom] at h
    split at h
    · dsimp only at h
      split at h
      · cases h
      · split at h
        · cases h
        · split at h
          · cases h
          · refine hcons _ (fun k hk => ?_) h
            cases hk
            omega
    · split at h
      · rename_i symbol hsign
        refine hcons symbol (fun k hk => ?_) h
        unfold sign? at hsign
        split at hsign <;> simp_all
      · exact ih h

theorem Token.lt_of_scan {clause : String} {n : Nat} {tokens : List Token} (h : scan clause n = .ok tokens) :
    ∀ t ∈ tokens, ∀ k, t.symbol = .variable k → k < n := lt_of_scanFrom h

/-! ### Reading and assembling side by side -/

namespace Assembly

/-- An assembly goes on as the reading does, and stops with a flaw of the clause if the reading fails. -/
def Follows {α β : Type} (reg₀ : Registry) (n : Nat) (R : Registry → α → β → Prop) :
    Option β → EStateM.Result AssemblyError Registry α → Prop
  | some m, .ok s reg => R reg s m
  | none, .error (.clause (.malformed _ _ _)) reg => reg.Sound n ∧ reg₀.Extends reg
  | _, _ => False

/-- Both sides are still at work. -/
abbrev Goes (reg₀ : Registry) (n : Nat) :
    Option Reading → EStateM.Result AssemblyError Registry Stacks → Prop :=
  Follows reg₀ n fun reg s m => Underway reg₀ reg n s m

section Follows

variable {α β γ δ : Type} {reg₀ reg : Registry} {n : Nat}

/-- Either both go on, or the reading fails and the clause has a flaw. -/
theorem Follows.cases {R : Registry → α → β → Prop} {o : Option β} {r : EStateM.Result AssemblyError Registry α}
    (h : Follows reg₀ n R o r) : (∃ b a reg, o = some b ∧ r = .ok a reg ∧ R reg a b) ∨
      ∃ flaw column text reg, o = none ∧ r = .error (.clause (.malformed flaw column text)) reg ∧
        reg.Sound n ∧ reg₀.Extends reg := by
  unfold Follows at h
  split at h
  · exact .inl ⟨_, _, _, rfl, rfl, h⟩
  · exact .inr ⟨_, _, _, _, rfl, rfl, h⟩
  · cases h

/-- An assembly that goes on has a reading that goes on. -/
theorem Follows.of_ok {R : Registry → α → β → Prop} {o : Option β} {r : EStateM.Result AssemblyError Registry α} {a : α}
    (h : Follows reg₀ n R o r) (hok : r = .ok a reg) : ∃ b, o = some b ∧ R reg a b := by
  rcases h.cases with ⟨b, _, _, ho, hok', hab⟩ | ⟨_, _, _, _, -, herror, -⟩
  · cases hok.symm.trans hok'
    exact ⟨b, ho, hab⟩
  · cases hok.symm.trans herror

theorem Follows.bind {R : Registry → α → β → Prop} {S : Registry → γ → δ → Prop} {o : Option β}
    {x : AssemblyM α} {k : β → Option δ} {y : α → AssemblyM γ} (h : Follows reg₀ n R o (x reg))
    (hk : ∀ reg a b, R reg a b → Follows reg₀ n S (k b) (y a reg)) :
    Follows reg₀ n S (o.bind k) ((x >>= y) reg) := by
  rw [Effect.bind_apply]
  rcases h.cases with ⟨b, a, reg', rfl, hx, hab⟩ | ⟨flaw, column, text, reg', rfl, hx, hkeeps⟩
  · rw [hx]
    exact hk reg' a b hab
  · rw [hx]
    exact hkeeps

variable {s : Stacks} {m : Reading} {clause : String}

theorem collapse_follows (column : Nat) {pending : List Pending} {operands : List Ref}
    {frames : List Frame} {formulas : List Formula}
    (h : Underway reg₀ reg n ⟨pending, operands⟩ ⟨frames, formulas⟩) :
    Goes reg₀ n (Reading.collapse frames formulas) (collapse clause column pending operands reg) := by
  induction pending generalizing reg operands frames formulas with
  | nil =>
    cases h.pending
    exact h
  | cons p pending ih =>
    obtain ⟨frame, frames, hw, -, rfl⟩ := List.forall₂_cons_left_iff.mp h.pending
    cases p with
    | group =>
      cases hw
      exact h
    | gate r =>
      match frame, hw with
      | .hole fill, hw =>
        match operands, formulas, h.operands with
        | [], [], _ => exact ⟨h.sound, h.extends_start⟩
        | a :: operands, f :: formulas, _ =>
          obtain ⟨reg', hwire, hunder⟩ := h.fill
          show Goes reg₀ n (Reading.collapse frames (fill f :: formulas)) _
          rw [collapse, Effect.bind_of_ok hwire]
          exact ih hunder

theorem step_follows (h : Underway reg₀ reg n s m) (t : Token)
    (hindex : ∀ k, t.symbol = .variable k → k < n) :
    Goes reg₀ n (m.step t.symbol) (step clause (Circuit.sigmoidOf n) s t reg) := by
  obtain ⟨pending, operands⟩ := s
  obtain ⟨frames, formulas⟩ := m
  obtain ⟨symbol, column⟩ := t
  cases symbol with
  | «variable» k => exact collapse_follows column (h.push_leaf (hindex k rfl))
  | connective op =>
    match operands, formulas, h.operands with
    | [], [], _ => exact ⟨h.sound, h.extends_start⟩
    | a :: operands, f :: formulas, _ =>
      obtain ⟨reg', hplace, hunder⟩ := h.place_binary op
      show Goes reg₀ n (some ⟨.hole (.binary op f) :: frames, formulas⟩)
        ((place (.binary op a none) >>= fun r => pure ⟨.gate r :: pending, operands⟩) reg)
      rw [Effect.bind_of_ok hplace]
      exact hunder
  | not =>
    obtain ⟨reg', hplace, hunder⟩ := h.place_not
    show Goes reg₀ n (some ⟨.hole .not :: frames, formulas⟩)
      ((place (.not none) >>= fun r => pure ⟨.gate r :: pending, operands⟩) reg)
    rw [Effect.bind_of_ok hplace]
    exact hunder
  | openGroup => exact h.push_group
  | closeGroup =>
    match pending, frames, h with
    | [], [], h => exact ⟨h.sound, h.extends_start⟩
    | .group :: pending, frame :: frames, h =>
      obtain ⟨hwaits, -⟩ := List.forall₂_cons.mp h.pending
      cases hwaits
      exact collapse_follows column h.pop_group
    | .gate r :: pending, frame :: frames, h =>
      obtain ⟨hwaits, -⟩ := List.forall₂_cons.mp h.pending
      match frame, hwaits with
      | .hole fill, _ => exact ⟨h.sound, h.extends_start⟩
    | [], _ :: _, h => cases h.pending
    | _ :: _, [], h => cases h.pending

theorem run_follows (tokens : List Token) (h : Underway reg₀ reg n s m)
    (hindex : ∀ t ∈ tokens, ∀ k, t.symbol = .variable k → k < n) :
    Goes reg₀ n (m.run (tokens.map Token.symbol))
      (tokens.foldlM (step clause (Circuit.sigmoidOf n)) s reg) := by
  induction tokens generalizing reg s m with
  | nil => exact h
  | cons t tokens ih =>
    rw [List.map_cons, Reading.run_cons, List.foldlM_cons]
    refine Follows.bind (step_follows h t (hindex t List.mem_cons_self)) ?_
    exact fun reg s m h => ih h fun t ht => hindex t (List.mem_cons_of_mem _ ht)

/-- A clause is finished when one operand is left, and its cost is placed. -/
theorem close_follows (h : Underway reg₀ reg n s m) :
    Follows reg₀ n (fun reg root f => Completes reg₀ reg n root f) m.close (close clause s reg) := by
  refine Follows.bind (collapse_follows clause.length h) ?_
  rintro reg ⟨pending, operands⟩ ⟨frames, formulas⟩ h
  -- the stacks are equally long on both sides, so they are found wanting in the same cases
  match pending, frames, h with
  | [], [], h =>
    match operands, formulas, h with
    | [], [], h => exact ⟨h.sound, h.extends_start⟩
    | [a], [f], h =>
      obtain ⟨reg', hplace, hcompletes⟩ := h.place_cost
      show Follows reg₀ n _ (some f) (place (.cost a) reg)
      rw [hplace]
      exact hcompletes
    | _ :: _ :: _, _ :: _ :: _, h => exact ⟨h.sound, h.extends_start⟩
    | [], _ :: _, h => cases h.operands
    | _ :: _, [], h => cases h.operands
    | [_], _ :: _ :: _, h => cases (List.forall₂_cons.mp h.operands).2
    | _ :: _ :: _, [_], h => cases (List.forall₂_cons.mp h.operands).2
  | _ :: _, _ :: _, h => exact ⟨h.sound, h.extends_start⟩
  | [], _ :: _, h => cases h.pending
  | _ :: _, [], h => cases h.pending

/-- Before the first symbol nothing waits. -/
theorem Underway.begin (h : reg.Sound n) : Underway reg reg n ⟨[], []⟩ ⟨[], []⟩ := by
  refine ⟨h, .refl reg, h.net.le_size, .nil, .nil, .nil, .nil, ?_,
    fun r hr hlt => absurd hlt (Nat.not_lt_of_le hr), ?_⟩
  · intro r hr hopen
    rw [Netlist.gate_of_size_le hr] at hopen
    cases hopen
  · intro r hr a ha
    rw [Netlist.gate_of_size_le hr] at ha
    cases ha

/-- Assembling does what reading the symbols does. -/
theorem assemble_follows (h : reg.Sound n) {tokens : List Token} (hscan : Token.scan clause n = .ok tokens) :
    Follows reg n (fun reg' root f => Completes reg reg' n root f)
      (Formula.read (tokens.map Token.symbol)) (assemble n (Circuit.sigmoidOf n) clause reg) := by
  unfold assemble
  rw [hscan]
  exact Follows.bind (run_follows tokens (.begin h) (Token.lt_of_scan hscan)) fun _ _ _ h => close_follows h

/-- A clause that is not scanned leaves the registry alone. -/
theorem assemble_of_scan_error {e : ClauseError} (hscan : Token.scan clause n = .error e) :
    assemble n (Circuit.sigmoidOf n) clause reg = .error (.clause e) reg := by
  unfold assemble
  rw [hscan]
  rfl

/-- A clause that is read is assembled. -/
theorem assemble_of_read (h : reg.Sound n) {tokens : List Token} (hscan : Token.scan clause n = .ok tokens)
    {f : Formula} (hread : Formula.read (tokens.map Token.symbol) = some f) :
    ∃ root reg', assemble n (Circuit.sigmoidOf n) clause reg = .ok root reg' ∧
      Completes reg reg' n root f := by
  rcases (assemble_follows h hscan).cases with
    ⟨_, root, reg', hread', hok, hcompletes⟩ | ⟨_, _, _, _, hnone, -⟩
  · rw [hread] at hread'
    cases hread'
    exact ⟨root, reg', hok, hcompletes⟩
  · rw [hread] at hnone
    cases hnone

/-- A clause that is not read is malformed. -/
theorem assemble_of_not_read (h : reg.Sound n) {tokens : List Token}
    (hscan : Token.scan clause n = .ok tokens) (hread : Formula.read (tokens.map Token.symbol) = none) :
    ∃ flaw column text reg', assemble n (Circuit.sigmoidOf n) clause reg =
      .error (.clause (.malformed flaw column text)) reg' ∧ reg'.Sound n ∧ reg.Extends reg' := by
  rcases (assemble_follows h hscan).cases with
    ⟨_, _, _, hsome, -⟩ | ⟨flaw, column, text, reg', -, herror, hkeeps⟩
  · rw [hread] at hsome
    cases hsome
  · exact ⟨flaw, column, text, reg', herror, hkeeps⟩

/-- A clause that is assembled was read. -/
theorem read_of_assemble (h : reg.Sound n) {root : Ref} {reg' : Registry}
    (hok : assemble n (Circuit.sigmoidOf n) clause reg = .ok root reg') :
    ∃ tokens f, Token.scan clause n = .ok tokens ∧ Formula.read (tokens.map Token.symbol) = some f ∧
      Completes reg reg' n root f := by
  match hscan : Token.scan clause n with
  | .error e =>
    rw [assemble_of_scan_error hscan] at hok
    cases hok
  | .ok tokens =>
    obtain ⟨f, hread, hcompletes⟩ := (assemble_follows h hscan).of_ok hok
    exact ⟨tokens, f, rfl, hread, hcompletes⟩

/-- A clause that is rejected leaves a sound registry. -/
theorem sound_of_rejected (h : reg.Sound n) {e : AssemblyError} {reg' : Registry}
    (herror : assemble n (Circuit.sigmoidOf n) clause reg = .error e reg') :
    reg'.Sound n ∧ reg.Extends reg' := by
  match hscan : Token.scan clause n with
  | .error e =>
    rw [assemble_of_scan_error hscan] at herror
    cases herror
    exact ⟨h, .refl reg⟩
  | .ok tokens =>
    match hread : Formula.read (tokens.map Token.symbol) with
    | none =>
      obtain ⟨_, _, _, _, herror', hkeeps⟩ := assemble_of_not_read h hscan hread
      rw [herror'] at herror
      cases herror
      exact hkeeps
    | some f =>
      obtain ⟨_, _, hok, -⟩ := assemble_of_read h hscan hread
      rw [hok] at herror
      cases herror

end Follows

end Assembly

end SoftLogic
