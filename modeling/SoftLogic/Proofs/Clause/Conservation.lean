import SoftLogic.Proofs.Clause.Drawing
import SoftLogic.Proofs.Clause.Numbering
import SoftLogic.Proofs.Circuit.Construction

/-!
# What becomes of the tokens of a clause

The gates that the assembly of a clause places are those of the tree that is drawn of it (`Assembly.Drawn`): each operator
at its place, each slot filled with what the tree says, and each variable read by the node that the drawing notes down.
So an accepted clause, whether or not the grammar derives it, ends up as one tree under its cost, in which every operator
and every variable of the text stands exactly once, and which no gate of the clause is left out of
(`Assembly.conserves_tokens`).
-/

namespace SoftLogic

open Effect

/-! ### Trees in a netlist -/

namespace Tree

/-- The gates at the places of a tree are wired as it says. -/
def StandsIn (net : Netlist) (n : Nat) : Tree → Prop
  | .leaf k => k < n ∧ net.gate (Circuit.sigmoidOf n k) = .sigmoid k
  | .not r t => net.gate r = .not (some (t.root n)) ∧ t.StandsIn net n
  | .binary r op t u => net.gate r = .binary op (t.root n) (some (u.root n)) ∧ t.StandsIn net n ∧ u.StandsIn net n

/-- The nodes that read a variable, among readings. -/
def readers (k : Nat) (readings : List (Nat × Ref)) : List Ref := (readings.filter fun e => e.1 == k).map Prod.snd

variable {net net' : Netlist} {n : Nat} {t : Tree}

theorem readers_append (k : Nat) (l l' : List (Nat × Ref)) : readers k (l ++ l') = readers k l ++ readers k l' := by
  simp [readers]

theorem StandsIn.isOpen_eq_false (h : t.StandsIn net n) : (net.gate (t.root n)).isOpen = false := by
  cases t with
  | leaf k => rw [root, h.2]; rfl
  | not r t => rw [root, h.1]; rfl
  | binary r op t u => rw [root, h.1]; rfl

theorem StandsIn.lt_size (h : t.StandsIn net n) : t.root n < net.size := by
  refine Netlist.lt_size_of_gate fun hplain => ?_
  cases t with
  | leaf k => rw [root, h.2] at hplain; cases hplain
  | not r t => rw [root, h.1] at hplain; cases hplain
  | binary r op t u => rw [root, h.1] at hplain; cases hplain

/-- A tree only depends on gates without open slots. -/
theorem StandsIn.mono (h : t.StandsIn net n)
    (hkeep : ∀ q : Nat, (net.gate q).isOpen = false → q < net.size → net'.gate q = net.gate q) : t.StandsIn net' n := by
  have hroot : net'.gate (t.root n) = net.gate (t.root n) := hkeep _ h.isOpen_eq_false h.lt_size
  induction t with
  | leaf k => exact ⟨h.1, hroot.trans h.2⟩
  | not r t ih => exact ⟨hroot.trans h.1, ih h.2 (hkeep _ h.2.isOpen_eq_false h.2.lt_size)⟩
  | binary r op t u iht ihu =>
    exact ⟨hroot.trans h.1, iht h.2.1 (hkeep _ h.2.1.isOpen_eq_false h.2.1.lt_size),
      ihu h.2.2 (hkeep _ h.2.2.isOpen_eq_false h.2.2.lt_size)⟩

end Tree

namespace Gap

/-- The gate at the place of a gap waits for what it lacks. -/
def HangsIn (net : Netlist) (n : Nat) : Gap → Prop
  | .not r => net.gate r = .not none
  | .binary r op t => net.gate r = .binary op (t.root n) none ∧ t.StandsIn net n

variable {net net' : Netlist} {n : Nat} {g : Gap}

theorem HangsIn.mono (h : g.HangsIn net n) (hgate : net'.gate g.place = net.gate g.place)
    (hstands : ∀ t : Tree, t.StandsIn net n → t.StandsIn net' n) : g.HangsIn net' n := by
  cases g with
  | not r => exact hgate.trans h
  | binary r op t => exact ⟨hgate.trans h.1, hstands t h.2⟩

/-- A gap that gets its last operand becomes a tree. -/
theorem HangsIn.fill {u : Tree} (h : g.HangsIn net n) (hgate : net'.gate g.place = (net.gate g.place).fill (u.root n))
    (hstands : ∀ t : Tree, t.StandsIn net n → t.StandsIn net' n) (hu : u.StandsIn net n) :
    (g.fill u).StandsIn net' n := by
  cases g with
  | not r =>
    rw [place, show net.gate r = _ from h] at hgate
    exact ⟨hgate, hstands u hu⟩
  | binary r op t =>
    rw [place, h.1] at hgate
    exact ⟨hgate, hstands t h.2, hstands u hu⟩

end Gap

namespace Netlist

variable {net net' : Netlist} {n r a k : Nat} {gate : Gate} {t : Tree}

theorem Attached.standsIn (h : net.Attached r a gate net') (hr : (net.gate r).isOpen = true ∨ r = net.size)
    (ht : t.StandsIn net n) : t.StandsIn net' n := by
  refine ht.mono fun q hopen hq => h.gate_of_ne ?_
  rintro rfl
  rcases hr with hr | hr
  · rw [hopen] at hr
    cases hr
  · omega

/-- A sigmoid gets a further consumer just if it is what was attached. -/
theorem Attached.consumers_sigmoid (h : net.Attached r (t.root n) gate net') (hs : net.Sound n) (ht : t.StandsIn net n)
    (hk : k < n) : net'.consumers (Circuit.sigmoidOf n k) =
      net.consumers (Circuit.sigmoidOf n k) ++ Tree.readers k (t.stem r) := by
  have hsigmoid := hs.sigmoid k hk
  have hother : t.stem r = [] → t.root n ≠ Circuit.sigmoidOf n k → net'.consumers (Circuit.sigmoidOf n k) =
      net.consumers (Circuit.sigmoidOf n k) ++ Tree.readers k (t.stem r) := by
    intro hstem hne
    rw [h.consumers_of_ne hne.symm, hstem]
    exact (List.append_nil _).symm
  cases t with
  | leaf j =>
    by_cases hjk : j = k
    · subst hjk
      rw [show Circuit.sigmoidOf n j = (Tree.leaf j).root n from rfl, h.consumers_self]
      simp [Tree.stem, Tree.readers]
    · have hne : Circuit.sigmoidOf n k ≠ (Tree.leaf j).root n := fun heq => hjk (Nat.add_left_cancel heq).symm
      rw [h.consumers_of_ne hne]
      simp [Tree.stem, Tree.readers, hjk]
  | not q t =>
    refine hother rfl fun heq => ?_
    rw [← heq, Tree.root, ht.1] at hsigmoid
    cases hsigmoid
  | binary q op t u =>
    refine hother rfl fun heq => ?_
    rw [← heq, Tree.root, ht.1] at hsigmoid
    cases hsigmoid

end Netlist

namespace Assembly

/-! ### The relation between an assembly and a drawing -/

/-- What waits in an assembly and in a drawing. -/
inductive Outlined (net : Netlist) (n : Nat) : Pending → Slot → Prop
  | group : Outlined net n .group .group
  | gap {g : Gap} : g.HangsIn net n → Outlined net n (.gate g.place) (.gap g)

/-- The state of an assembly that began in `reg₀` and that of the drawing. -/
structure Drawn (reg₀ reg : Registry) (n : Nat) (s : Stacks) (d : Drawing) : Prop where
  pending : List.Forall₂ (Outlined reg.net n) s.pending d.slots
  operands : List.Forall₂ (fun a t => a = t.root n ∧ t.StandsIn reg.net n) s.operands d.trees
  next : d.next = reg.size
  /-- The sigmoids have got the consumers that were noted down. -/
  consumers : ∀ k < n, reg.net.consumers (Circuit.sigmoidOf n k) =
    reg₀.net.consumers (Circuit.sigmoidOf n k) ++ Tree.readers k d.readings

section Draws

variable {reg₀ reg reg' : Registry} {n : Nat} {s s' : Stacks} {m : Reading} {d : Drawing} {clause : String}
  {pending : List Pending} {operands : List Ref} {frames : List Frame} {formulas : List Formula} {slots : List Slot}
  {trees : List Tree} {next : Nat} {readings : List (Nat × Ref)}

theorem of_wire_ok {r a : Ref} (h : wire r a reg = .ok () reg') :
    ∃ net, reg.net.addOperand r a = .ok net ∧ reg' = { reg with net := net } := by
  unfold wire at h
  rw [get_bind] at h
  unfold Registry.wire at h
  cases hadd : reg.net.addOperand r a with
  | ok net =>
    rw [hadd] at h
    cases h
    exact ⟨net, rfl, rfl⟩
  | error fault =>
    rw [hadd] at h
    cases h

theorem of_place_ok {gate : Gate} {r : Ref} (h : place gate reg = .ok r reg') :
    ∃ net, reg.net.add reg.nextId gate = .ok net ∧ r = net.size - 1 ∧ reg' = ⟨net, reg.nextId + 1⟩ := by
  rcases place_cases gate reg with ⟨net, hadd, hok⟩ | ⟨e, herror⟩
  · rw [hok] at h
    cases h
    exact ⟨net, hadd, rfl, rfl⟩
  · rw [herror] at h
    cases h

theorem outlined_mono {net net' : Netlist} (h : List.Forall₂ (Outlined net n) pending slots)
    (hgate : ∀ r, .gate r ∈ pending → net'.gate r = net.gate r)
    (hstands : ∀ t : Tree, t.StandsIn net n → t.StandsIn net' n) : List.Forall₂ (Outlined net' n) pending slots := by
  refine ((List.forall₂_and_left _ _).mpr ⟨fun p hp => hp, h⟩).imp ?_
  rintro p slot ⟨hp, hout⟩
  cases hout with
  | group => exact .group
  | gap hg => exact .gap (hg.mono (hgate _ hp) hstands)

/-- The gate that waits last gets its operand. -/
theorem Drawn.fill {r a : Nat} {g : Gap} {t : Tree} {frame : Frame} {f : Formula}
    (h : Underway reg₀ reg n ⟨.gate r :: pending, a :: operands⟩ ⟨frame :: frames, f :: formulas⟩)
    (hd : Drawn reg₀ reg n ⟨.gate r :: pending, a :: operands⟩ ⟨.gap g :: slots, t :: trees, next, readings⟩)
    (hwire : wire r a reg = .ok () reg') :
    Drawn reg₀ reg' n ⟨pending, r :: operands⟩ ⟨slots, g.fill t :: trees, next, readings ++ t.stem g.place⟩ := by
  obtain ⟨hout, hpending⟩ := List.forall₂_cons.mp hd.pending
  obtain ⟨⟨rfl, ht⟩, hoperands⟩ := List.forall₂_cons.mp hd.operands
  obtain ⟨hapart, -⟩ := List.pairwise_cons.mp h.apart
  obtain ⟨net, hadd, rfl⟩ := of_wire_ok hwire
  cases hout with
  | gap hg =>
    obtain ⟨hopen, -, hattached⟩ := Netlist.attached_of_addOperand ht.lt_size hadd
    have hstands : ∀ u : Tree, u.StandsIn reg.net n → u.StandsIn net n := fun u hu => hattached.standsIn (.inl hopen) hu
    have hlt : g.place < reg.net.size := Netlist.lt_size_of_isOpen hopen
    refine ⟨outlined_mono hpending (fun q hq => hattached.gate_of_ne ?_) hstands, .cons ⟨?_, ?_⟩ ?_, ?_, fun k hk => ?_⟩
    · -- no other gate that waits has the same place
      rintro rfl
      exact hapart _ hq _ rfl rfl
    · cases g <;> rfl
    · exact hg.fill hattached.gate_self hstands ht
    · exact hoperands.imp fun b u hb => ⟨hb.1, hstands u hb.2⟩
    · refine hd.next.trans ?_
      show reg.net.size = net.size
      rw [hattached.size_eq]
      exact (Nat.max_eq_left hlt).symm
    · rw [hattached.consumers_sigmoid h.sound.net ht hk, hd.consumers k hk, Tree.readers_append, List.append_assoc]

theorem collapse_draws (column : Nat) (h : Underway reg₀ reg n ⟨pending, operands⟩ ⟨frames, formulas⟩)
    (hd : Drawn reg₀ reg n ⟨pending, operands⟩ ⟨slots, trees, next, readings⟩)
    (hok : collapse clause column pending operands reg = .ok s' reg') :
    ∃ d', Drawing.collapse next slots trees readings = some d' ∧ Drawn reg₀ reg' n s' d' := by
  induction pending generalizing reg operands frames formulas slots trees readings with
  | nil =>
    cases hd.pending
    cases hok
    exact ⟨_, rfl, hd⟩
  | cons p pending ih =>
    obtain ⟨slot, slots, hout, -, rfl⟩ := List.forall₂_cons_left_iff.mp hd.pending
    obtain ⟨frame, frames, hwaits, -, rfl⟩ := List.forall₂_cons_left_iff.mp h.pending
    cases hout with
    | group =>
      cases hok
      exact ⟨_, rfl, hd⟩
    | @gap g hg =>
      cases operands with
      | nil => cases hok
      | cons a operands =>
        obtain ⟨t, trees, -, -, rfl⟩ := List.forall₂_cons_left_iff.mp hd.operands
        obtain ⟨f, formulas, -, -, rfl⟩ := List.forall₂_cons_left_iff.mp h.operands
        cases frame with
        | group => cases hwaits
        | hole fill =>
          obtain ⟨reg₁, hwire, hunder⟩ := h.fill
          rw [collapse, bind_of_ok hwire] at hok
          obtain ⟨d', hd', hdrawn⟩ := ih hunder (Drawn.fill h hd hwire) hok
          exact ⟨d', hd', hdrawn⟩

/-- A gate with an open slot is placed and waits. -/
theorem Drawn.await {r : Ref} {gate : Gate} {g : Gap} {trees' : List Tree} {readings' : List (Nat × Ref)}
    (h : Underway reg₀ reg n s m) (hd : Drawn reg₀ reg n s d) (hplace : place gate reg = .ok r reg')
    (hsize : reg'.size = reg.size + 1) (hg : g.HangsIn reg'.net n) (hplace' : g.place = reg.size)
    (hgate : ∀ q : Nat, q ≠ reg.size → reg'.net.gate q = reg.net.gate q)
    (htrees : List.Forall₂ (fun a t => a = t.root n ∧ t.StandsIn reg.net n) operands trees')
    (hconsumers : ∀ k < n, reg'.net.consumers (Circuit.sigmoidOf n k) =
      reg₀.net.consumers (Circuit.sigmoidOf n k) ++ Tree.readers k readings') :
    Drawn reg₀ reg' n ⟨.gate r :: s.pending, operands⟩ ⟨.gap g :: d.slots, trees', d.next + 1, readings'⟩ := by
  have hstands : ∀ u : Tree, u.StandsIn reg.net n → u.StandsIn reg'.net n :=
    fun u hu => hu.mono fun q _ hq => hgate q (Nat.ne_of_lt hq)
  obtain ⟨net, -, hr, rfl⟩ := of_place_ok hplace
  have hr : r = g.place := by
    rw [hplace', hr]
    show net.size - 1 = _
    rw [show net.size = reg.size + 1 from hsize, Nat.add_sub_cancel]
  subst hr
  refine ⟨.cons (.gap hg) (outlined_mono hd.pending (fun q hq => hgate q ?_) hstands),
    htrees.imp fun b u hb => ⟨hb.1, hstands u hb.2⟩, ?_, hconsumers⟩
  · exact Nat.ne_of_lt (lt_size_of_mem h.pending hq)
  · rw [hsize, hd.next]

theorem step_draws (h : Underway reg₀ reg n s m) (hd : Drawn reg₀ reg n s d) (t : Token)
    (hindex : ∀ k, t.symbol = .variable k → k < n)
    (hok : step clause (Circuit.sigmoidOf n) s t reg = .ok s' reg') :
    ∃ d', d.step t.symbol = some d' ∧ Drawn reg₀ reg' n s' d' := by
  obtain ⟨pending, operands⟩ := s
  obtain ⟨frames, formulas⟩ := m
  obtain ⟨slots, trees, next, readings⟩ := d
  obtain ⟨symbol, column⟩ := t
  cases symbol with
  | «variable» k =>
    have hk := hindex k rfl
    refine collapse_draws column (h.push_leaf hk) ⟨hd.pending, .cons ⟨rfl, hk, ?_⟩ hd.operands, hd.next, hd.consumers⟩ hok
    exact h.sound.net.sigmoid k hk
  | connective op =>
    cases operands with
    | nil => cases hok
    | cons a operands =>
      obtain ⟨t, trees, ⟨rfl, ht⟩, htrees, rfl⟩ := List.forall₂_cons_left_iff.mp hd.operands
      obtain ⟨r, reg₁, hplace, hok⟩ := of_bind_ok hok
      cases hok
      obtain ⟨net, hadd, -, rfl⟩ := of_place_ok hplace
      obtain ⟨-, hattached⟩ := Netlist.attached_of_add ht.lt_size rfl hadd
      refine ⟨_, rfl, Drawn.await h hd hplace ?_ ⟨?_, hattached.standsIn (.inr rfl) ht⟩ hd.next
        (fun q hq => hattached.gate_of_ne hq) htrees fun k hk => ?_⟩
      · show net.size = reg.net.size + 1
        rw [hattached.size_eq]
        omega
      · rw [hd.next]
        exact hattached.gate_self
      · rw [hattached.consumers_sigmoid h.sound.net ht hk, hd.consumers k hk, Tree.readers_append, List.append_assoc,
          hd.next]
        rfl
  | not =>
    obtain ⟨r, reg₁, hplace, hok⟩ := of_bind_ok hok
    cases hok
    obtain ⟨net, hadd, -, rfl⟩ := of_place_ok hplace
    cases hadd
    refine ⟨_, rfl, Drawn.await h hd hplace (Netlist.size_push _ _ _) ?_ hd.next (fun q hq => ?_) hd.operands fun k hk => ?_⟩
    · show (reg.net.push reg.nextId (.not none)).gate next = .not none
      rw [Netlist.gate_push]
      exact if_pos hd.next
    · exact (Netlist.gate_push _ _ _ _).trans (if_neg hq)
    · exact (Netlist.consumers_push _ _ _ _).trans (hd.consumers k hk)
  | openGroup =>
    cases hok
    exact ⟨_, rfl, .cons .group hd.pending, hd.operands, hd.next, hd.consumers⟩
  | closeGroup =>
    match pending, slots, h, hd with
    | [], _, _, _ => cases hok
    | .gate r :: pending, _, _, _ => cases hok
    | .group :: pending, slot :: slots, h, hd =>
      obtain ⟨hout, hpending⟩ := List.forall₂_cons.mp hd.pending
      cases hout
      obtain ⟨frame, frames, hwaits, -, rfl⟩ := List.forall₂_cons_left_iff.mp h.pending
      cases hwaits
      exact collapse_draws column h.pop_group ⟨hpending, hd.operands, hd.next, hd.consumers⟩ hok
    | .group :: pending, [], _, hd => cases hd.pending

theorem run_draws (tokens : List Token) (h : Underway reg₀ reg n s m) (hd : Drawn reg₀ reg n s d)
    (hindex : ∀ t ∈ tokens, ∀ k, t.symbol = .variable k → k < n)
    (hok : tokens.foldlM (step clause (Circuit.sigmoidOf n)) s reg = .ok s' reg') :
    ∃ m' d', Underway reg₀ reg' n s' m' ∧ d.run (tokens.map Token.symbol) = some d' ∧ Drawn reg₀ reg' n s' d' := by
  induction tokens generalizing reg s m d with
  | nil =>
    cases hok
    exact ⟨m, d, h, rfl, hd⟩
  | cons t tokens ih =>
    rw [List.foldlM_cons] at hok
    obtain ⟨s₁, reg₁, hstep, hok⟩ := of_bind_ok hok
    have ht := hindex t List.mem_cons_self
    obtain ⟨d₁, hd₁, hdrawn⟩ := step_draws h hd t ht hstep
    obtain ⟨m₁, -, hunder⟩ := (step_follows h t ht).of_ok hstep
    obtain ⟨m', d', hunder', hrun, hdrawn'⟩ := ih hunder hdrawn (fun t ht => hindex t (List.mem_cons_of_mem _ ht)) hok
    refine ⟨m', d', hunder', ?_, hdrawn'⟩
    rw [List.map_cons, Drawing.run_cons, hd₁]
    exact hrun

/-- An accepted clause ends as one tree, whose cost is the last node. -/
theorem close_draws {root : Ref} (h : Underway reg₀ reg n s m) (hd : Drawn reg₀ reg n s d)
    (hok : close clause s reg = .ok root reg') :
    ∃ t next readings, Drawing.collapse d.next d.slots d.trees d.readings = some ⟨[], [t], next, readings⟩ ∧
      root = next ∧ reg'.size = next + 1 ∧ reg'.net.gate root = .cost (t.root n) ∧ t.StandsIn reg'.net n ∧
      ∀ k < n, reg'.net.consumers (Circuit.sigmoidOf n k) =
        reg₀.net.consumers (Circuit.sigmoidOf n k) ++ Tree.readers k (readings ++ t.stem root) := by
  obtain ⟨⟨pending, operands⟩, reg₁, hcollapse, hok⟩ := of_bind_ok hok
  obtain ⟨d', hd', hdrawn⟩ := collapse_draws _ h hd hcollapse
  obtain ⟨m₁, -, hunder⟩ := (collapse_follows clause.length h).of_ok hcollapse
  obtain ⟨slots, trees, next, readings⟩ := d'
  match pending, operands, hok, hdrawn with
  | [], [a], hok, hdrawn =>
    cases hdrawn.pending
    obtain ⟨t, trees, ⟨rfl, ht⟩, htrees, rfl⟩ := List.forall₂_cons_left_iff.mp hdrawn.operands
    cases htrees
    obtain ⟨net, hadd, rfl, rfl⟩ := of_place_ok hok
    obtain ⟨-, hattached⟩ := Netlist.attached_of_add ht.lt_size rfl hadd
    have hnext : next = reg₁.net.size := hdrawn.next
    have hsize : net.size = next + 1 := by
      rw [hattached.size_eq, hnext]
      omega
    refine ⟨t, next, readings, hd', ?_, hsize, ?_, hattached.standsIn (.inr rfl) ht, fun k hk => ?_⟩
    · rw [hsize, Nat.add_sub_cancel]
    · rw [hsize, Nat.add_sub_cancel, hnext]
      exact hattached.gate_self
    · rw [hattached.consumers_sigmoid hunder.sound.net ht hk, hdrawn.consumers k hk, Tree.readers_append,
        List.append_assoc, hsize, Nat.add_sub_cancel, hnext]
  | [], [], hok, _ => cases hok
  | [], _ :: _ :: _, hok, _ => cases hok
  | _ :: _, _, hok, _ => cases hok

/-- An assembled clause is the cost of the tree that is drawn of its symbols, which takes the places behind the last
node. -/
theorem assemble_draws {root : Ref} (h : reg.Sound n)
    (hok : assemble n (Circuit.sigmoidOf n) clause reg = .ok root reg') :
    ∃ tokens d t readings, Token.scan clause n = .ok tokens ∧
      (Drawing.blank reg.size).run (tokens.map Token.symbol) = some d ∧
      Drawing.collapse d.next d.slots d.trees d.readings = some ⟨[], [t], root, readings⟩ ∧
      reg'.size = root + 1 ∧ reg'.net.gate root = .cost (t.root n) ∧ t.StandsIn reg'.net n ∧
      ∀ k < n, reg'.net.consumers (Circuit.sigmoidOf n k) =
        reg.net.consumers (Circuit.sigmoidOf n k) ++ Tree.readers k (readings ++ t.stem root) := by
  obtain ⟨tokens, -, hscan, -⟩ := read_of_assemble h hok
  unfold assemble at hok
  rw [hscan] at hok
  obtain ⟨s, reg₁, hrun, hclose⟩ := of_bind_ok hok
  have hblank : Drawn reg reg n ⟨[], []⟩ (.blank reg.size) := by
    refine ⟨.nil, .nil, rfl, fun k _ => ?_⟩
    exact (List.append_nil _).symm
  obtain ⟨m, d, hunder, hd, hdrawn⟩ := run_draws tokens (.begin h) hblank (Token.lt_of_scan hscan) hrun
  obtain ⟨t, next, readings, hcollapse, rfl, hrest⟩ := close_draws hunder hdrawn hclose
  exact ⟨tokens, d, t, readings, hscan, hd, hcollapse, hrest⟩

end Draws

end Assembly

/-! ### Accepted clauses -/

namespace Symbol

/-- Whether the symbol is a variable. -/
def isVariable : Symbol → Bool
  | .variable _ => true
  | _ => false

/-- Whether the symbol joins two operands. -/
def isConnective : Symbol → Bool
  | .connective _ => true
  | _ => false

end Symbol

/-- A list of symbols has a surplus of as many formulas as it has more variables than connectives. -/
theorem surplus_eq (w : List Symbol) :
    surplus w = (w.countP Symbol.isVariable : Int) - w.countP Symbol.isConnective := by
  induction w with
  | nil => rfl
  | cons x w ih =>
    rw [surplus_cons, ih, List.countP_cons, List.countP_cons]
    cases x <;> simp [Symbol.supply, Symbol.isVariable, Symbol.isConnective] <;> omega

namespace Tree

variable {n k : Nat} {w : List Symbol}

/-- A variable is read as often as it stands in a tree. -/
theorem length_readers (k : Nat) (t : Tree) (r : Ref) :
    (readers k (t.readings r)).length = (t.entries n).countP fun e => e.1 = .variable k := by
  induction t generalizing r with
  | leaf j => by_cases hj : j = k <;> simp [readers, readings, entries, hj]
  | not q t ih => simpa [readings, entries] using ih q
  | binary q op t u iht ihu =>
    rw [readings, readers_append, List.length_append, iht, ihu, entries, List.countP_append, List.countP_cons]
    simp

theorem countP_places (k : Nat) (next : Nat) (w : List Symbol) :
    ((places n next w).countP fun e => e.1 = .variable k) = w.count (.variable k) := by
  induction w generalizing next with
  | nil => rfl
  | cons x w ih => cases x <;> simp [places, List.countP_cons, List.count_cons, ih]

/-- The operators of a text take all places from the first free one on. -/
theorem exists_mem_places {next r : Nat} (hr : next ≤ r) (hlt : r < next + operators w) :
    ∃ x, (x, r) ∈ places n next w := by
  induction w generalizing next with
  | nil =>
    rw [operators_nil] at hlt
    omega
  | cons x w ih =>
    have hnew : ∀ x w, r < next + (operators w + 1) → (∀ hr : next + 1 ≤ r, r < next + 1 + operators w →
        ∃ x, (x, r) ∈ places n (next + 1) w) → ∃ y, (y, r) ∈ (x, next) :: places n (next + 1) w := by
      intro x w hlt ih
      by_cases hrn : r = next
      · exact ⟨x, hrn ▸ List.mem_cons_self⟩
      · obtain ⟨y, hy⟩ := ih (by omega) (by omega)
        exact ⟨y, List.mem_cons_of_mem _ hy⟩
    cases x with
    | «variable» k =>
      obtain ⟨y, hy⟩ := ih hr (by simpa using hlt)
      exact ⟨y, List.mem_cons_of_mem _ hy⟩
    | connective op => exact hnew (.connective op) w (by simpa using hlt) fun hr hlt => ih hr hlt
    | not => exact hnew .not w (by simpa using hlt) fun hr hlt => ih hr hlt
    | openGroup => exact ih hr (by simpa using hlt)
    | closeGroup => exact ih hr (by simpa using hlt)

/-- From `reg` to `reg'` the tree was wired under a cost at `root`, of the symbols of a text and of nothing else. -/
structure MadeOf (t : Tree) (n : Nat) (w : List Symbol) (reg reg' : Registry) (root : Ref) : Prop where
  /-- The root is the cost of the tree, whose gates have all their operands. -/
  cost : reg'.net.gate root = .cost (t.root n)
  stands : t.StandsIn reg'.net n
  /-- The tree has the variables and the operators of the text, each once; the operators have the places of their own
  that follow the last node. -/
  entries : (t.entries n).Perm (places n reg.size w)
  /-- There is no new node but those of the tree and the root. -/
  whole : ∀ r, reg.size ≤ r → r < reg'.size → r = root ∨ ∃ x, (x, r) ∈ t.entries n
  /-- Each sigmoid has got one more consumer for each time that its variable stands in the text, the node that reads it
  there. -/
  consumers : ∀ k < n, ∃ new, reg'.net.consumers (Circuit.sigmoidOf n k) =
    reg.net.consumers (Circuit.sigmoidOf n k) ++ new ∧ new.Perm (readers k (t.readings root)) ∧
      new.length = w.count (.variable k)

end Tree

namespace Assembly

/-- An accepted clause becomes one tree under a cost, of the variables and operators of its text and of nothing else.
Its parentheses match, and it has one more variable than connectives. -/
theorem conserves_tokens {n : Nat} {reg reg' : Registry} (h : reg.Reachable n) {clause : String} {root : Ref}
    (hok : assemble n (Circuit.sigmoidOf n) clause reg = .ok root reg') :
    ∃ tokens, ∃ t : Tree, Token.scan clause n = .ok tokens ∧ t.MadeOf n (tokens.map Token.symbol) reg reg' root ∧
      (∀ u v, tokens.map Token.symbol = u ++ v → 0 ≤ depth u) ∧ depth (tokens.map Token.symbol) = 0 ∧
      (tokens.map Token.symbol).countP Symbol.isVariable =
        (tokens.map Token.symbol).countP Symbol.isConnective + 1 := by
  obtain ⟨tokens, d, t, readings, hscan, hrun, hcollapse, hsize, hcost, hstands, hconsumers⟩ :=
    assemble_draws h.sound hok
  obtain ⟨hroot, hentries, hreadings⟩ := Drawing.tree_conserves (n := n) hrun hcollapse
  have hacceptable : Acceptable (tokens.map Token.symbol) := by
    obtain ⟨tokens', f, hscan', hread, -⟩ := read_of_assemble h.sound hok
    cases hscan.symm.trans hscan'
    exact (Formula.read_isSome_iff _).mp (Option.isSome_iff_exists.mpr ⟨f, hread⟩)
  have hsurplus := hacceptable.remaining
  rw [surplus_eq] at hsurplus
  refine ⟨tokens, t, hscan, ⟨hcost, hstands, hentries, fun r hr hlt => ?_, fun k hk => ⟨_, hconsumers k hk, ?_, ?_⟩⟩,
    fun u v huv => hacceptable.balanced.depth_nonneg huv, hacceptable.balanced.depth_eq_zero, by omega⟩
  · by_cases hrr : r = root
    · exact .inl hrr
    · obtain ⟨x, hx⟩ := Tree.exists_mem_places (n := n) hr (w := tokens.map Token.symbol) (by omega)
      exact .inr ⟨x, hentries.mem_iff.mpr hx⟩
  · exact (hreadings.filter _).map _
  · have hperm : (Tree.readers k (readings ++ t.stem root)).Perm (Tree.readers k (t.readings root)) :=
      (hreadings.filter _).map _
    rw [hperm.length_eq, Tree.length_readers (n := n), hentries.countP_eq, Tree.countP_places]

/-- In `$0 $0 ^ ~`, which the grammar does not derive, the connective gets its second operand in the end. -/
theorem conserves_far_operands : ∃ reg root reg', reg.Reachable 1 ∧
    assemble 1 (Circuit.sigmoidOf 1) "$0 $0 ^ ~" reg = .ok root reg' ∧ ∃ t : Tree,
      t.MadeOf 1 [.variable 0, .variable 0, .connective .and, .not] reg reg' root := by
  obtain ⟨reg, hreg, -⟩ := Circuit.placeVariables_ok 1
  have hreachable : reg.Reachable 1 := .start hreg
  have hscan : Token.scan "$0 $0 ^ ~" 1 =
      .ok [⟨.variable 0, 0⟩, ⟨.variable 0, 3⟩, ⟨.connective .and, 6⟩, ⟨.not, 8⟩] := by decide
  obtain ⟨root, reg', hok, -⟩ := assemble_of_read (f := .binary .and (.var 0) (.not (.var 0))) hreachable.sound hscan rfl
  obtain ⟨tokens, t, hscan', hmade, -⟩ := conserves_tokens hreachable hok
  cases hscan.symm.trans hscan'
  exact ⟨reg, root, reg', hreachable, hok, t, hmade⟩

end Assembly

end SoftLogic
