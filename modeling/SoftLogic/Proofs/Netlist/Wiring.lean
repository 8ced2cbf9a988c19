import Mathlib.Data.List.Count
import SoftLogic.Circuit.Basic
import SoftLogic.Proofs.Clause.Grammar
import SoftLogic.Proofs.Effect

/-!
# The wiring of clauses

What the nodes of a registry stand for: `Netlist.Denotes` ties a node to the formula of the gates under it.
`Netlist.Sound` is what every registry of clauses keeps, also after clauses that were rejected halfway: the
operands and the consumers of the nodes mirror each other, only sigmoids feed several nodes, and every node
is an input, a sigmoid, a gate with an open slot, a finished gate or a root.
-/

namespace SoftLogic

/-- Whether a slot is still empty. -/
def Gate.isOpen : Gate → Bool
  | .not none | .binary _ _ none => true
  | _ => false

/-- The gate with its open slot filled. -/
def Gate.fill (a : Ref) : Gate → Gate
  | .not none => .not (some a)
  | .binary op b none => .binary op b (some a)
  | gate => gate

theorem Gate.operands_fill {gate : Gate} (h : gate.isOpen = true) (a : Ref) :
    (gate.fill a).operands = gate.operands ++ [a] := by
  match gate, h with
  | .not none, _ => rfl
  | .binary _ _ none, _ => rfl

theorem Gate.isInput_fill (a : Ref) (gate : Gate) : (gate.fill a).isInput = gate.isInput := by
  cases gate with
  | not b => cases b <;> rfl
  | binary op b c => cases c <;> rfl
  | _ => rfl

namespace Netlist

/-- The gates from a node down to the sigmoids of `n` variables make up a formula. -/
inductive Denotes (net : Netlist) (n : Nat) : Ref → Formula → Prop
  | var {r k : Nat} : k < n → r = Circuit.sigmoidOf n k → net.gate r = .sigmoid k → Denotes net n r (.var k)
  | not {r a : Ref} {f : Formula} : net.gate r = .not (some a) → Denotes net n a f →
    Denotes net n r (.not f)
  | binary {r a b : Ref} {op : Connective} {f g : Formula} : net.gate r = .binary op a (some b) →
    Denotes net n a f → Denotes net n b g → Denotes net n r (.binary op f g)

/-- The node is the cost of what stands for a formula. -/
def CostOf (net : Netlist) (n : Nat) (r : Ref) (f : Formula) : Prop :=
  ∃ a, net.gate r = .cost a ∧ net.Denotes n a f

/-- How far the wiring of a gate has come. -/
inductive Stage (net : Netlist) (n : Nat) (r : Ref) : Prop
  /-- A negation without its operand. -/
  | vacant : net.gate r = .not none → net.consumers r = [] → Stage net n r
  /-- A connective without its second operand. -/
  | waiting {op : Connective} {a : Ref} {f : Formula} : net.gate r = .binary op a none →
    net.Denotes n a f → net.consumers r = [] → Stage net n r
  /-- A gate with all its operands. -/
  | finished {f : Formula} : net.Denotes n r f → Stage net n r
  /-- The cost of a clause. -/
  | root {a : Ref} {f : Formula} : net.gate r = .cost a → net.Denotes n a f → net.consumers r = [] →
    Stage net n r

/-- The wiring of `n` variables and of the gates of clauses, finished or not. -/
structure Sound (net : Netlist) (n : Nat) : Prop where
  le_size : 2 * n ≤ net.size
  input : ∀ k < n, net.gate k = .input
  sigmoid : ∀ k < n, net.gate (Circuit.sigmoidOf n k) = .sigmoid k
  /-- The gates and the costs come after the sigmoids. -/
  stage : ∀ r, 2 * n ≤ r → r < net.size → net.Stage n r
  /-- Each link is held at both of its ends. -/
  mirrored : ∀ p m, (net.consumers p).count m = (net.operands m).count p
  /-- Only a sigmoid feeds several nodes. -/
  single : ∀ r, (net.consumers r).length ≤ 1 ∨ ∃ k, net.gate r = .sigmoid k

/-- Every node from a place on is a finished gate that feeds another one, or a root. -/
def ClosedFrom (net : Netlist) (start : Nat) : Prop :=
  ∀ r, start ≤ r → r < net.size → (net.gate r).isOpen = false ∧
    (net.consumers r = [] → ∃ a, net.gate r = .cost a)

/-- The node may get one more consumer. -/
def Free (net : Netlist) (a : Ref) : Prop :=
  (∃ k, net.gate a = .sigmoid k) ∨ net.consumers a = [] ∧ ∀ b, net.gate a ≠ .cost b

/-- `net'` is `net` with `a` as a further operand of `r`, whose gate has become `gate`.  A node that was
not there before counts as one without operands. -/
structure Attached (net : Netlist) (r a : Nat) (gate : Gate) (net' : Netlist) : Prop where
  gate_eq : ∀ q, net'.gate q = if q = r then gate else net.gate q
  consumers_eq : ∀ q, net'.consumers q = if q = a then net.consumers a ++ [r] else net.consumers q
  operands_eq : gate.operands = net.operands r ++ [a]
  size_eq : net'.size = max net.size (r + 1)

/-! ### Places beyond the last node -/

theorem gate_of_size_le {net : Netlist} {r : Nat} (h : net.size ≤ r) : net.gate r = .plain := by
  simp only [size] at h
  simp [gate, node, h]

theorem consumers_of_size_le {net : Netlist} {r : Nat} (h : net.size ≤ r) : net.consumers r = [] := by
  simp only [size] at h
  simp [consumers, node, h]

theorem lt_size_of_gate {net : Netlist} {r : Nat} (h : net.gate r ≠ .plain) : r < net.size :=
  Nat.lt_of_not_le fun hle => h (gate_of_size_le hle)

theorem lt_size_of_isOpen {net : Netlist} {r : Nat} (h : (net.gate r).isOpen = true) : r < net.size :=
  lt_size_of_gate fun hplain => by simp [hplain, Gate.isOpen] at h

/-- Only a node reads others. -/
theorem lt_size_of_mem_operands {net : Netlist} {r d : Nat} (h : d ∈ net.operands r) : r < net.size :=
  lt_size_of_gate fun hplain => by simp [operands, hplain, Gate.operands] at h

@[simp] theorem gate_push (net : Netlist) (id : Int) (gate : Gate) (q : Nat) :
    (net.push id gate).gate q = if q = net.size then gate else net.gate q := by
  unfold Netlist.gate
  rw [node_push]
  split <;> rfl

theorem id_push (net : Netlist) (id : Int) (gate : Gate) (q : Nat) :
    (net.push id gate).id q = if q = net.size then id else net.id q := by
  unfold Netlist.id
  rw [node_push]
  split <;> rfl

theorem consumers_push (net : Netlist) (id : Int) (gate : Gate) (q : Nat) :
    (net.push id gate).consumers q = net.consumers q := by
  by_cases hq : q = net.size
  · have hnil : net.consumers q = [] := consumers_of_size_le (Nat.le_of_eq hq.symm)
    rw [hnil, consumers, node_push, if_pos hq]
  · rw [consumers, node_push, if_neg hq, consumers]

/-! ### Nodes that stand for formulas -/

section Denotes

variable {net net' : Netlist} {n : Nat} {r : Nat} {f g : Formula}

/-- What a sigmoid stands for is its variable. -/
theorem Denotes.of_sigmoid {k : Nat} (h : net.Denotes n r f) (hg : net.gate r = .sigmoid k) : k < n ∧ f = .var k := by
  cases h with
  | var hk _ hg' =>
    rw [hg] at hg'
    cases hg'
    exact ⟨hk, rfl⟩
  | not hg' _ | binary hg' _ _ =>
    rw [hg] at hg'
    cases hg'

theorem Denotes.isOpen_eq_false (h : net.Denotes n r f) : (net.gate r).isOpen = false := by
  cases h with
  | var _ _ hg => rw [hg]; rfl
  | not hg _ => rw [hg]; rfl
  | binary hg _ _ => rw [hg]; rfl

theorem Denotes.gate_ne_plain (h : net.Denotes n r f) : net.gate r ≠ .plain := by
  cases h with
  | var _ _ hg => simp [hg]
  | not hg _ => simp [hg]
  | binary hg _ _ => simp [hg]

theorem Denotes.gate_ne_cost (h : net.Denotes n r f) (a : Ref) : net.gate r ≠ .cost a := by
  cases h with
  | var _ _ hg => simp [hg]
  | not hg _ => simp [hg]
  | binary hg _ _ => simp [hg]

theorem Denotes.gate_ne_input (h : net.Denotes n r f) : net.gate r ≠ .input := by
  cases h with
  | var _ _ hg => simp [hg]
  | not hg _ => simp [hg]
  | binary hg _ _ => simp [hg]

theorem Denotes.isInput_eq_false (h : net.Denotes n r f) : (net.gate r).isInput = false := by
  cases h with
  | var _ _ hg => rw [hg]; rfl
  | not hg _ => rw [hg]; rfl
  | binary hg _ _ => rw [hg]; rfl

theorem Denotes.lt_size (h : net.Denotes n r f) : r < net.size := lt_size_of_gate h.gate_ne_plain

/-- A node stands for one formula only. -/
theorem Denotes.unique (hf : net.Denotes n r f) (hg : net.Denotes n r g) : f = g := by
  induction hf generalizing g with
  | var _ _ hgate =>
    cases hg with
    | var _ _ hgate' => rw [hgate] at hgate'; cases hgate'; rfl
    | not hgate' _ => rw [hgate] at hgate'; cases hgate'
    | binary hgate' _ _ => rw [hgate] at hgate'; cases hgate'
  | not hgate _ ih =>
    cases hg with
    | var _ _ hgate' => rw [hgate] at hgate'; cases hgate'
    | not hgate' h => rw [hgate] at hgate'; cases hgate'; rw [ih h]
    | binary hgate' _ _ => rw [hgate] at hgate'; cases hgate'
  | binary hgate _ _ iha ihb =>
    cases hg with
    | var _ _ hgate' => rw [hgate] at hgate'; cases hgate'
    | not hgate' _ => rw [hgate] at hgate'; cases hgate'
    | binary hgate' ha hb => rw [hgate] at hgate'; cases hgate'; rw [iha ha, ihb hb]

/-- A formula only depends on gates without open slots. -/
theorem Denotes.mono (h : net.Denotes n r f)
    (hkeep : ∀ q : Nat, (net.gate q).isOpen = false → q < net.size → net'.gate q = net.gate q) :
    net'.Denotes n r f := by
  induction h with
  | var hk hr hg =>
    refine .var hk hr ?_
    rw [hkeep _ (by rw [hg]; rfl) (lt_size_of_gate (by simp [hg])), hg]
  | not hg _ ih =>
    refine .not ?_ ih
    rw [hkeep _ (by rw [hg]; rfl) (lt_size_of_gate (by simp [hg])), hg]
  | binary hg _ _ iha ihb =>
    refine .binary ?_ iha ihb
    rw [hkeep _ (by rw [hg]; rfl) (lt_size_of_gate (by simp [hg])), hg]

end Denotes

/-! ### Attaching an operand -/

theorem connect_of_free {net : Netlist} {a : Ref} (h : net.Free a) (r : Ref) :
    net.connect a r = .ok (net.link a r) := by
  rcases h with ⟨k, hk⟩ | ⟨hnil, hcost⟩
  · simp [connect, hk]
  · unfold connect
    rw [hnil]
    cases hg : net.gate a with
    | cost b => exact absurd hg (hcost b)
    | _ => rfl

/-- Only a node that may get a further consumer is connected. -/
theorem free_of_connect {net net' : Netlist} {a r : Ref} (h : net.connect a r = .ok net') : net.Free a := by
  by_cases hcost : ∃ b, net.gate a = .cost b
  · obtain ⟨b, hb⟩ := hcost
    rw [connect, hb] at h
    cases h
  · by_cases hsigmoid : ∃ k, net.gate a = .sigmoid k
    · exact .inl hsigmoid
    · refine .inr ⟨?_, not_exists.mp hcost⟩
      cases hnil : net.consumers a with
      | nil => rfl
      | cons c rest => cases hg : net.gate a <;> simp_all [connect]

/-- A node that was added is linked to one operand after the other. -/
theorem of_add_ok {net net' : Netlist} {id : Int} {gate : Gate} (h : net.add id gate = .ok net') :
    net' = gate.operands.foldl (fun m a => m.link a net.size) (net.push id gate) := by
  have hlink : ∀ (operands : List Ref) (m : Netlist), m.size = net.size + 1 →
      operands.foldlM (fun m a => m.connect a (m.size - 1)) m = .ok net' →
      net' = operands.foldl (fun m a => m.link a net.size) m := by
    intro operands
    induction operands with
    | nil => exact fun m _ h => (Except.ok.inj h).symm
    | cons a operands ih =>
      intro m hsize h
      rw [List.foldlM_cons] at h
      cases hconnect : m.connect a (m.size - 1) with
      | error fault =>
        rw [hconnect] at h
        cases h
      | ok m₁ =>
        rw [hconnect] at h
        have hm₁ := eq_link_of_connect hconnect
        rw [hsize, Nat.add_sub_cancel] at hm₁
        subst hm₁
        exact ih _ (by rw [size_link, hsize]) h
  exact hlink gate.operands _ (size_push net id gate) h

/-- A slot that was filled was open, and what fills it was free. -/
theorem of_addOperand_ok {net net' : Netlist} {r a : Nat} (h : net.addOperand r a = .ok net') :
    (net.gate r).isOpen = true ∧ net.Free a ∧ net' = (net.link a r).setGate r ((net.gate r).fill a) := by
  have hfill : ∀ gate : Gate, (do return (← net.connect a r).setGate r gate : Except Fault Netlist) = .ok net' →
      net.Free a ∧ net' = (net.link a r).setGate r gate := by
    intro gate h
    cases hconnect : net.connect a r with
    | error fault =>
      rw [hconnect] at h
      cases h
    | ok net₁ =>
      rw [hconnect] at h
      cases h
      exact ⟨free_of_connect hconnect, by rw [eq_link_of_connect hconnect]⟩
  unfold addOperand at h
  split at h
  · next hg => exact ⟨by rw [hg]; rfl, by rw [hg]; exact hfill _ h⟩
  · cases h
  · next hg => exact ⟨by rw [hg]; rfl, by rw [hg]; exact hfill _ h⟩
  · cases h
  · cases h

/-- A gate with one operand is placed behind the last node. -/
theorem attached_add {net : Netlist} {a : Nat} {gate : Gate} (id : Int) (ha : a < net.size)
    (hfree : net.Free a) (hgate : gate.operands = [a]) :
    ∃ net', net.add id gate = .ok net' ∧ net.Attached net.size a gate net' ∧
      net'.id net.size = id ∧ ∀ q, q ≠ net.size → net'.id q = net.id q := by
  have hfree' : (net.push id gate).Free a := by
    unfold Free
    rw [gate_push, if_neg (Nat.ne_of_lt ha), consumers_push]
    exact hfree
  have ha' : a < (net.push id gate).size := by
    rw [size_push]
    omega
  refine ⟨(net.push id gate).link a net.size, ?_, ⟨?_, ?_, ?_, ?_⟩, ?_, ?_⟩
  · unfold add
    rw [hgate]
    show (net.push id gate).connect a ((net.push id gate).size - 1) >>= pure = _
    rw [size_push, Nat.add_sub_cancel, connect_of_free hfree']
    rfl
  · intro q
    rw [gate_link, gate_push]
  · intro q
    rw [consumers_link ha', consumers_push, consumers_push]
  · rw [hgate, operands, gate_of_size_le (Nat.le_refl _)]
    rfl
  · rw [size_link, size_push]
    omega
  · rw [id_link, id_push, if_pos rfl]
  · intro q hq
    rw [id_link, id_push, if_neg hq]

/-- An open slot is filled. -/
theorem attached_addOperand {net : Netlist} {r a : Nat} (hopen : (net.gate r).isOpen = true)
    (ha : a < net.size) (hfree : net.Free a) :
    ∃ net', net.addOperand r a = .ok net' ∧ net.Attached r a ((net.gate r).fill a) net' ∧
      ∀ q, net'.id q = net.id q := by
  have hr := lt_size_of_isOpen hopen
  have hr' : r < (net.link a r).size := by rwa [size_link]
  refine ⟨(net.link a r).setGate r ((net.gate r).fill a), ?_, ⟨?_, ?_, Gate.operands_fill hopen a, ?_⟩, ?_⟩
  · unfold addOperand
    rw [connect_of_free hfree]
    match net.gate r, hopen with
    | .not none, _ => rfl
    | .binary _ _ none, _ => rfl
  · intro q
    rw [gate_setGate hr', gate_link]
  · intro q
    rw [consumers_setGate hr', consumers_link ha]
  · rw [size_setGate, size_link]
    omega
  · intro q
    rw [← id_link net a r q]
    unfold setGate Netlist.id
    rw [node_update _ _ _ _ hr']
    split <;> rfl

/-- What is added and is no leaf is attached to its operand. -/
theorem attached_of_add {net net' : Netlist} {a : Nat} {id : Int} {gate : Gate} (ha : a < net.size)
    (hgate : gate.operands = [a]) (h : net.add id gate = .ok net') :
    net.Free a ∧ net.Attached net.size a gate net' := by
  have hconnect : (net.push id gate).connect a ((net.push id gate).size - 1) = .ok net' := by
    unfold add at h
    rw [hgate, List.foldlM_cons] at h
    cases hc : (net.push id gate).connect a ((net.push id gate).size - 1) with
    | error fault =>
      rw [hc] at h
      cases h
    | ok net₁ =>
      rw [hc] at h
      exact congrArg Except.ok (Except.ok.inj h)
  have hfree := free_of_connect hconnect
  unfold Free at hfree
  rw [gate_push, if_neg (Nat.ne_of_lt ha), consumers_push] at hfree
  obtain ⟨net₁, hadd, hattached, -⟩ := attached_add id ha hfree hgate
  cases h.symm.trans hadd
  exact ⟨hfree, hattached⟩

/-- A slot that is filled was open. -/
theorem attached_of_addOperand {net net' : Netlist} {r a : Nat} (ha : a < net.size)
    (h : net.addOperand r a = .ok net') :
    (net.gate r).isOpen = true ∧ net.Free a ∧ net.Attached r a ((net.gate r).fill a) net' := by
  obtain ⟨hopen, hfree, -⟩ := of_addOperand_ok h
  obtain ⟨net₂, hadd, hattached, -⟩ := attached_addOperand hopen ha hfree
  cases h.symm.trans hadd
  exact ⟨hopen, hfree, hattached⟩

section Attached

variable {net net' : Netlist} {n r a : Nat} {gate : Gate} {f : Formula}

theorem Attached.gate_self (h : net.Attached r a gate net') : net'.gate r = gate := by
  rw [h.gate_eq, if_pos rfl]

theorem Attached.gate_of_ne (h : net.Attached r a gate net') {q : Nat} (hq : q ≠ r) :
    net'.gate q = net.gate q := by
  rw [h.gate_eq, if_neg hq]

theorem Attached.consumers_self (h : net.Attached r a gate net') :
    net'.consumers a = net.consumers a ++ [r] := by
  rw [h.consumers_eq, if_pos rfl]

theorem Attached.consumers_of_ne (h : net.Attached r a gate net') {q : Nat} (hq : q ≠ a) :
    net'.consumers q = net.consumers q := by
  rw [h.consumers_eq, if_neg hq]

theorem Attached.operands_of (h : net.Attached r a gate net') (m : Nat) :
    net'.operands m = if m = r then net.operands r ++ [a] else net.operands m := by
  unfold operands
  rw [h.gate_eq]
  split
  · exact h.operands_eq
  · rfl

/-- The new link is held at both of its ends. -/
theorem Attached.mirrored (h : net.Attached r a gate net')
    (hs : ∀ p m, (net.consumers p).count m = (net.operands m).count p) (p m : Nat) :
    (net'.consumers p).count m = (net'.operands m).count p := by
  have hmirror := hs p m
  rw [h.consumers_eq, h.operands_of]
  by_cases hp : p = a
  · subst hp
    by_cases hm : m = r
    · subst hm
      simp [hmirror]
    · simp [hm, hmirror, Ne.symm hm]
  · by_cases hm : m = r
    · subst hm
      simp [hp, hmirror, Ne.symm hp]
    · simp [hp, hm, hmirror]

/-- Attaching keeps the formulas that are there. -/
theorem Attached.denotes (h : net.Attached r a gate net')
    (hr : (net.gate r).isOpen = true ∨ r = net.size) {q : Nat} (hq : net.Denotes n q f) :
    net'.Denotes n q f := by
  refine hq.mono fun p hopen hp => h.gate_of_ne ?_
  rintro rfl
  rcases hr with hr | hr
  · rw [hopen] at hr
    cases hr
  · omega

theorem Sound.attached (hs : net.Sound n) (h : net.Attached r a gate net') (hr : 2 * n ≤ r)
    (hopen : (net.gate r).isOpen = true ∨ r = net.size) (ha : net.Denotes n a f) (hfree : net.Free a)
    (hstage : net'.Stage n r) : net'.Sound n := by
  have hplain : ∀ k, net.gate r ≠ .sigmoid k := by
    rcases hopen with hopen | rfl
    · intro k hk
      rw [hk] at hopen
      cases hopen
    · intro k hk
      rw [gate_of_size_le (Nat.le_refl _)] at hk
      cases hk
  have hle := hs.le_size
  have hsize := h.size_eq
  refine ⟨by omega, ?_, ?_, ?_, ?_, ?_⟩
  · intro k hk
    rw [h.gate_of_ne (by omega), hs.input k hk]
  · intro k hk
    rw [h.gate_of_ne (by unfold Circuit.sigmoidOf; omega), hs.sigmoid k hk]
  · intro q hq hlt
    by_cases hqr : q = r
    · exact hqr ▸ hstage
    · have hlt : q < net.size := by
        rcases hopen with hopen | hopen
        · have : r < net.size := lt_size_of_gate fun hg => by simp [hg, Gate.isOpen] at hopen
          omega
        · omega
      have hgate : net'.gate q = net.gate q := h.gate_of_ne hqr
      -- `a` is finished, so a node that is open or a root keeps its empty list of consumers
      cases hs.stage q hq hlt with
      | vacant hg hc =>
        have hqa : q ≠ a := by
          rintro rfl
          simpa [hg, Gate.isOpen] using ha.isOpen_eq_false
        exact .vacant (hgate.trans hg) ((h.consumers_of_ne hqa).trans hc)
      | waiting hg hd hc =>
        have hqa : q ≠ a := by
          rintro rfl
          simpa [hg, Gate.isOpen] using ha.isOpen_eq_false
        exact .waiting (hgate.trans hg) (h.denotes hopen hd) ((h.consumers_of_ne hqa).trans hc)
      | finished hd => exact .finished (h.denotes hopen hd)
      | root hg hd hc =>
        have hqa : q ≠ a := by
          rintro rfl
          exact ha.gate_ne_cost _ hg
        exact .root (hgate.trans hg) (h.denotes hopen hd) ((h.consumers_of_ne hqa).trans hc)
  · exact h.mirrored hs.mirrored
  · intro q
    by_cases hqa : q = a
    · subst hqa
      rcases hfree with ⟨k, hk⟩ | ⟨hnil, -⟩
      · refine .inr ⟨k, ?_⟩
        rw [h.gate_of_ne (fun hqr => hplain k (hqr ▸ hk)), hk]
      · left
        simp [h.consumers_self, hnil]
    · rw [h.consumers_of_ne hqa]
      rcases hs.single q with hone | ⟨k, hk⟩
      · exact .inl hone
      · refine .inr ⟨k, ?_⟩
        rw [h.gate_of_ne (fun hqr => hplain k (hqr ▸ hk)), hk]

end Attached

section Sound

variable {net net' : Netlist} {n : Nat}

/-- The sigmoids stand for the variables. -/
theorem Sound.denotes_sigmoid (h : net.Sound n) {k : Nat} (hk : k < n) :
    net.Denotes n (Circuit.sigmoidOf n k) (.var k) := .var hk rfl (h.sigmoid k hk)

theorem Sound.sigmoid_of_le (h : net.Sound n) {r : Nat} (hr : n ≤ r) (hlt : r < 2 * n) :
    net.Denotes n r (.var (r - n)) ∧ net.gate r = .sigmoid (r - n) := by
  have hd := h.denotes_sigmoid (k := r - n) (by omega)
  have hg := h.sigmoid (r - n) (by omega)
  rw [Circuit.sigmoidOf, Nat.add_sub_cancel' hr] at hd hg
  exact ⟨hd, hg⟩

/-- The sigmoids are finished gates, so every node but the inputs is at some stage. -/
theorem Sound.stage_of_le (h : net.Sound n) {r : Nat} (hr : n ≤ r) (hlt : r < net.size) : net.Stage n r := by
  by_cases hle : 2 * n ≤ r
  · exact h.stage r hle hlt
  · exact .finished (h.sigmoid_of_le hr (Nat.lt_of_not_le hle)).1

/-- Reading and being read are the same link. -/
theorem Sound.mem_operands_iff (h : net.Sound n) {r d : Nat} : d ∈ net.operands r ↔ r ∈ net.consumers d := by
  rw [← List.count_pos_iff, ← List.count_pos_iff, h.mirrored d r]

/-- A gate with an open slot feeds nothing yet. -/
theorem Sound.consumers_of_isOpen (h : net.Sound n) {r : Nat} (hopen : (net.gate r).isOpen = true) :
    net.consumers r = [] := by
  have hlt : r < net.size := lt_size_of_gate fun hg => by simp [hg, Gate.isOpen] at hopen
  by_cases hrn : r < n
  · simp [h.input r hrn, Gate.isOpen] at hopen
  · cases h.stage_of_le (Nat.le_of_not_lt hrn) hlt with
    | vacant _ hc => exact hc
    | waiting _ _ hc => exact hc
    | finished hd => simp [hd.isOpen_eq_false] at hopen
    | root _ _ hc => exact hc

/-- A cost feeds nothing. -/
theorem Sound.consumers_of_cost (h : net.Sound n) {r : Nat} {a : Ref} (hg : net.gate r = .cost a) :
    net.consumers r = [] := by
  have hlt : r < net.size := lt_size_of_gate (by simp [hg])
  by_cases hrn : r < n
  · simp [h.input r hrn] at hg
  · cases h.stage_of_le (Nat.le_of_not_lt hrn) hlt with
    | vacant _ hc => exact hc
    | waiting _ _ hc => exact hc
    | finished hd => exact absurd hg (hd.gate_ne_cost a)
    | root _ _ hc => exact hc

/-- What stands for a formula among the first nodes is a sigmoid. -/
theorem Sound.sigmoid_of_denotes (h : net.Sound n) {r : Nat} {f : Formula} (hd : net.Denotes n r f)
    (hr : r < 2 * n) : ∃ k, net.gate r = .sigmoid k := by
  by_cases hrn : r < n
  · exact absurd (h.input r hrn) hd.gate_ne_input
  · exact ⟨r - n, (h.sigmoid_of_le (Nat.le_of_not_lt hrn) hr).2⟩

/-- An operand that was free stays free while another one is attached. -/
theorem Attached.free {r a b : Nat} {gate : Gate} {g : Formula} (h : net.Attached r a gate net')
    (hs : net.Sound n) (hd : net.Denotes n b g) (hfree : net.Free b) (hbr : b ≠ r)
    (hab : a = b → a < 2 * n) : net'.Free b := by
  unfold Free
  rw [h.gate_of_ne hbr]
  by_cases hb : b = a
  · subst hb
    exact .inl (hs.sigmoid_of_denotes hd (hab rfl))
  · rw [h.consumers_of_ne hb]
    exact hfree

/-- A negation without operand is placed behind the last node. -/
theorem Sound.push_not (h : net.Sound n) (id : Int) : (net.push id (.not none)).Sound n := by
  have hle := h.le_size
  have hkeep : ∀ q : Nat, (net.gate q).isOpen = false → q < net.size →
      (net.push id (.not none)).gate q = net.gate q := by
    intro q _ hq
    rw [gate_push, if_neg (Nat.ne_of_lt hq)]
  refine ⟨by rw [size_push]; omega, ?_, ?_, ?_, ?_, ?_⟩
  · intro k hk
    rw [gate_push, if_neg (by omega), h.input k hk]
  · intro k hk
    rw [gate_push, if_neg (by unfold Circuit.sigmoidOf; omega), h.sigmoid k hk]
  · intro q hq hlt
    by_cases hqs : q = net.size
    · subst hqs
      exact .vacant (by simp) (by rw [consumers_push, consumers_of_size_le (Nat.le_refl _)])
    · rw [size_push] at hlt
      have hgate : (net.push id (.not none)).gate q = net.gate q := by rw [gate_push, if_neg hqs]
      have hcons := consumers_push net id (.not none) q
      cases h.stage q hq (by omega) with
      | vacant hg hc => exact .vacant (hgate.trans hg) (hcons.trans hc)
      | waiting hg hd hc => exact .waiting (hgate.trans hg) (hd.mono hkeep) (hcons.trans hc)
      | finished hd => exact .finished (hd.mono hkeep)
      | root hg hd hc => exact .root (hgate.trans hg) (hd.mono hkeep) (hcons.trans hc)
  · intro p m
    rw [consumers_push, h.mirrored]
    unfold operands
    rw [gate_push]
    split
    · subst m
      rw [gate_of_size_le (Nat.le_refl _)]
      rfl
    · rfl
  · intro q
    rw [consumers_push]
    rcases h.single q with hone | ⟨k, hk⟩
    · exact .inl hone
    · refine .inr ⟨k, ?_⟩
      rw [hkeep q (by rw [hk]; rfl) (lt_size_of_gate (by simp [hk])), hk]

end Sound

end Netlist

/-! ### Faults of wiring -/

/-- The faults with which wiring is refused. -/
inductive Fault.OfWiring : Fault → Prop
  | alreadyFeeds (id : Int) (gate : Gate) (consumer refused : Int) :
    OfWiring (.alreadyFeeds id gate.symbol consumer refused)
  | feedsNothing (id : Int) : OfWiring (.feedsNothing id)
  | takesNoInput (id : Int) (gate : Gate) : OfWiring (.takesNoInput id gate.symbol)
  | operandTaken (id operand : Int) : OfWiring (.operandTaken id operand)
  | operandsTaken (id : Int) (op : Connective) (first second refused : Int) :
    OfWiring (.operandsTaken id op.symbol first second refused)

namespace Netlist

section Faults

variable {net : Netlist} {f : Fault}

theorem ofWiring_connect {a c : Ref} (h : net.connect a c = .error f) : f.OfWiring := by
  unfold connect at h
  split at h
  · cases h
    exact .feedsNothing _
  · cases h
  · cases h
  · cases h
    exact .alreadyFeeds _ _ _ _

theorem ofWiring_add {id : Int} {gate : Gate} (h : net.add id gate = .error f) : f.OfWiring := by
  obtain ⟨a, -, net', hround⟩ := Effect.of_foldlM_error h
  exact ofWiring_connect hround

theorem ofWiring_addOperand {r operand : Ref} (h : net.addOperand r operand = .error f) : f.OfWiring := by
  -- an open slot is filled if the operand can be connected
  have hconnect : ∀ k : Netlist → Netlist, (do return k (← net.connect operand r)) = .error f → f.OfWiring := by
    intro k hk
    cases hconnect : net.connect operand r with
    | ok net' =>
      rw [hconnect] at hk
      cases hk
    | error f' =>
      rw [hconnect] at hk
      cases hk
      exact ofWiring_connect hconnect
  unfold addOperand at h
  split at h
  · exact hconnect _ h
  · cases h
    exact .operandTaken _ _
  · exact hconnect _ h
  · cases h
    exact .operandsTaken _ _ _ _ _
  · cases h
    exact .takesNoInput _ _

end Faults

end Netlist

end SoftLogic
