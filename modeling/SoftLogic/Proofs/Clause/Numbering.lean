import SoftLogic.Proofs.Clause.Assembly

/-!
# How ids are drawn

An id is drawn for every node and for every opening parenthesis, which becomes no node.  So the ids of the nodes
grow in creation order, also when a clause is rejected halfway (`Registry.Ordered`), and the number of ids without
a node is that of the parentheses that were taken (`Assembly.spare_assemble`).

Which tokens an assembly takes is said twice: `Assembly.taken` goes along with the assembly, and `Reading.taken`
only needs the symbols.  The two agree as far as assembling follows reading.
-/

namespace SoftLogic

open Effect

/-! ### Wiring leaves the ids alone -/

namespace Netlist

variable {net net' : Netlist} {r a : Ref}

/-- The nodes of `net'` have the ids of the nodes of `net`. -/
structure SameIds (net net' : Netlist) : Prop where
  size_eq : net'.size = net.size
  id_eq : ∀ q, net'.id q = net.id q

theorem SameIds.refl (net : Netlist) : net.SameIds net := ⟨rfl, fun _ => rfl⟩

theorem SameIds.trans {net'' : Netlist} (h : net.SameIds net') (h' : net'.SameIds net'') : net.SameIds net'' :=
  ⟨h'.size_eq.trans h.size_eq, fun q => (h'.id_eq q).trans (h.id_eq q)⟩

theorem sameIds_link (net : Netlist) (a c : Ref) : net.SameIds (net.link a c) :=
  ⟨size_link net a c, fun q => id_link net a c q⟩

theorem sameIds_setGate (hr : r < net.size) (gate : Gate) : net.SameIds (net.setGate r gate) := by
  refine ⟨size_setGate net r gate, fun q => ?_⟩
  unfold setGate Netlist.id
  rw [node_update _ _ _ _ hr]
  split <;> rfl

theorem sameIds_addOperand (h : net.addOperand r a = .ok net') : net.SameIds net' := by
  obtain ⟨hopen, -, rfl⟩ := of_addOperand_ok h
  have hr := lt_size_of_isOpen hopen
  exact (sameIds_link net a r).trans (sameIds_setGate (by rwa [size_link]) _)

/-- However many operands a new node has, linking it to them leaves the ids alone. -/
theorem sameIds_of_add {id : Int} {gate : Gate} (h : net.add id gate = .ok net') : (net.push id gate).SameIds net' := by
  rw [of_add_ok h]
  exact List.foldlRecOn gate.operands _ (motive := fun m => (net.push id gate).SameIds m) (.refl _)
    fun m hm a _ => hm.trans (sameIds_link m a net.size)

/-- A node that is added has the given id, and the others keep theirs. -/
theorem ids_add {id : Int} {gate : Gate} (h : net.add id gate = .ok net') :
    net'.size = net.size + 1 ∧ ∀ q : Nat, net'.id q = if q = net.size then id else net.id q := by
  have hsame := sameIds_of_add h
  exact ⟨hsame.size_eq.trans (size_push net id gate), fun q => (hsame.id_eq q).trans (id_push net id gate q)⟩

end Netlist

/-! ### Ids in order -/

/-- The ids grow from node to node, and each of them was drawn. -/
structure Registry.Ordered (reg : Registry) : Prop where
  increasing : ∀ q r, q < r → r < reg.size → reg.net.id q < reg.net.id r
  drawn : ∀ r < reg.size, reg.net.id r < reg.nextId

/-- The number of ids that were drawn for no node. -/
def Registry.spare (reg : Registry) : Int := reg.nextId - reg.size

namespace Registry

variable {reg : Registry}

/-- Drawing an id leaves the ids of the nodes in order. -/
theorem Ordered.fresh (h : reg.Ordered) : reg.fresh.2.Ordered := by
  refine ⟨h.increasing, fun r hr => ?_⟩
  have := h.drawn r hr
  show reg.net.id r < ((reg.nextId + 1 : Nat) : Int)
  omega

/-- A new node is the last one, and its id is beyond all that were drawn. -/
theorem Ordered.add (h : reg.Ordered) {gate : Gate} {net : Netlist} (hadd : reg.net.add reg.nextId gate = .ok net) :
    (Registry.mk net (reg.nextId + 1)).Ordered := by
  obtain ⟨hsize, hid⟩ := Netlist.ids_add hadd
  refine ⟨fun (q r : Nat) hqr (hr : r < net.size) => ?_, fun (r : Nat) (hr : r < net.size) => ?_⟩
  · have hq : q < reg.net.size := by omega
    show net.id q < net.id r
    rw [hid, hid, if_neg (Nat.ne_of_lt hq)]
    split
    · exact h.drawn q hq
    · exact h.increasing q r hqr (show r < reg.net.size by omega)
  · show net.id r < ((reg.nextId + 1 : Nat) : Int)
    rw [hid]
    split
    · omega
    · have := h.drawn r (show r < reg.net.size by omega)
      omega

theorem Ordered.sameIds (h : reg.Ordered) {net : Netlist} (hsame : reg.net.SameIds net) :
    { reg with net := net }.Ordered := by
  refine ⟨fun q r hqr (hr : r < net.size) => ?_, fun r (hr : r < net.size) => ?_⟩
  · show net.id q < net.id r
    rw [hsame.id_eq, hsame.id_eq]
    exact h.increasing q r hqr (Nat.lt_of_lt_of_eq hr hsame.size_eq)
  · show net.id r < reg.nextId
    rw [hsame.id_eq]
    exact h.drawn r (Nat.lt_of_lt_of_eq hr hsame.size_eq)

/-- Ids that are in order name their nodes. -/
theorem Ordered.find? (h : reg.Ordered) {r : Ref} (hr : r < reg.size) :
    reg.find? (reg.net.id r) = some r := by
  have hid : ∀ (q : Ref) (hq : q < reg.net.nodes.size), reg.net.nodes[q].id = reg.net.id q :=
    fun q hq => by simp [Netlist.id, Netlist.node, hq]
  refine Array.findIdx?_eq_some_iff_getElem.mpr ⟨hr, beq_iff_eq.mpr (hid r hr), fun q hq => ?_⟩
  rw [hid q (Nat.lt_trans hq hr)]
  simpa using Int.ne_of_lt (h.increasing q r hq hr)

end Registry

namespace Assembly

variable {reg reg' : Registry} {clause : String} {leaf : Nat → Ref}

/-- The registry refused a node. -/
def Refused {α : Type} : EStateM.Result AssemblyError Registry α → Prop
  | .error (.register _) _ => True
  | _ => False

/-- Placing draws an id, and then the node is added or refused. -/
theorem place_cases (gate : Gate) (reg : Registry) :
    (∃ net, reg.net.add reg.nextId gate = .ok net ∧
      place gate reg = .ok (net.size - 1) ⟨net, reg.nextId + 1⟩) ∨
    ∃ e, place gate reg = .error (.register e) { reg with nextId := reg.nextId + 1 } := by
  by_cases hcontains : Registry.contains { reg with nextId := reg.nextId + 1 } reg.nextId = true
  · have hinsert : Registry.insert { reg with nextId := reg.nextId + 1 } reg.nextId gate =
        .error (.duplicate reg.nextId) := by rw [Registry.insert, if_pos hcontains]
    exact .inr ⟨_, place_of_insert_error hinsert⟩
  · cases hadd : reg.net.add reg.nextId gate with
    | ok net =>
      have hinsert : Registry.insert { reg with nextId := reg.nextId + 1 } reg.nextId gate =
          .ok ⟨net, reg.nextId + 1⟩ := by rw [Registry.insert, if_neg hcontains, hadd]
      exact .inl ⟨net, rfl, place_of_insert_ok hinsert⟩
    | error fault =>
      have hinsert : Registry.insert { reg with nextId := reg.nextId + 1 } reg.nextId gate =
          .error (.wiring fault) := by rw [Registry.insert, if_neg hcontains, hadd]
      exact .inr ⟨_, place_of_insert_error hinsert⟩

/-- An open slot is filled, or the registry is left as it was. -/
theorem wire_cases (r a : Ref) (reg : Registry) :
    (∃ net, reg.net.SameIds net ∧ wire r a reg = .ok () { reg with net := net }) ∨
      ∃ e, wire r a reg = .error (.register e) reg := by
  unfold wire
  rw [get_bind]
  unfold Registry.wire
  cases hadd : reg.net.addOperand r a with
  | ok net => exact .inl ⟨net, Netlist.sameIds_addOperand hadd, rfl⟩
  | error fault => exact .inr ⟨.wiring fault, rfl⟩

theorem ordered_place (gate : Gate) : Keeps Registry.Ordered (place gate) := by
  intro reg h
  rcases place_cases gate reg with ⟨net, hadd, hok⟩ | ⟨e, herror⟩
  · rw [hok]
    exact h.add hadd
  · rw [herror]
    exact h.fresh

theorem ordered_wire (r a : Ref) : Keeps Registry.Ordered (wire r a) := by
  intro reg h
  rcases wire_cases r a reg with ⟨net, hsame, hok⟩ | ⟨e, herror⟩
  · rw [hok]
    exact h.sameIds hsame
  · rw [herror]
    exact h

theorem ordered_fresh : Keeps Registry.Ordered (modify fun reg => reg.fresh.2 : AssemblyM Unit) :=
  fun _ h => h.fresh

/-- Whatever wiring keeps, folding operands keeps. -/
theorem keeps_collapse {I : Registry → Prop} (hwire : ∀ r a, Keeps I (wire r a)) (column : Nat)
    (pending : List Pending) (operands : List Ref) : Keeps I (collapse clause column pending operands) := by
  induction pending generalizing operands with
  | nil => exact keeps_pure _
  | cons p pending ih =>
    cases p with
    | group => exact keeps_pure _
    | gate r =>
      cases operands with
      | nil => exact fun _ h => h
      | cons a operands => exact (hwire r a).bind fun _ => ih (r :: operands)

theorem ordered_step (s : Stacks) (t : Token) : Keeps Registry.Ordered (step clause leaf s t) := by
  obtain ⟨pending, operands⟩ := s
  obtain ⟨symbol, column⟩ := t
  cases symbol with
  | «variable» k => exact keeps_collapse ordered_wire column pending (leaf k :: operands)
  | connective op =>
    cases operands with
    | nil => exact keeps_throw _
    | cons a operands => exact (ordered_place _).bind fun _ => keeps_pure _
  | not => exact (ordered_place _).bind fun _ => keeps_pure _
  | openGroup => exact ordered_fresh.bind fun _ => keeps_pure _
  | closeGroup =>
    match pending with
    | [] => exact keeps_throw _
    | .gate r :: pending => exact keeps_throw _
    | .group :: pending => exact keeps_collapse ordered_wire column pending operands

theorem ordered_close (s : Stacks) : Keeps Registry.Ordered (close clause s) := by
  refine (keeps_collapse ordered_wire _ _ _).bind fun s => ?_
  split
  · exact ordered_place _
  · exact keeps_throw _
  · exact keeps_throw _
  · exact keeps_throw _

/-- Ids stay in order, whether a clause is accepted or not. -/
theorem ordered_assemble (n : Nat) (leaf : Nat → Ref) (clause : String) :
    Keeps Registry.Ordered (assemble n leaf clause) := by
  unfold assemble
  match Token.scan clause n with
  | .error e => exact keeps_throw _
  | .ok tokens => exact (keeps_foldlM (fun t _ s => ordered_step s t) _).bind fun s => ordered_close s

/-! ### Ids without a node -/

theorem spare_place {gate : Gate} {r : Ref} (h : place gate reg = .ok r reg') : reg'.spare = reg.spare := by
  rcases place_cases gate reg with ⟨net, hadd, hok⟩ | ⟨e, herror⟩
  · rw [hok] at h
    cases h
    have hsize := (Netlist.ids_add hadd).1
    show ((reg.nextId + 1 : Nat) : Int) - (net.size : Int) = reg.nextId - reg.net.size
    omega
  · rw [herror] at h
    cases h

theorem spare_wire (k : Int) (r a : Ref) : Keeps (fun reg => reg.spare = k) (wire r a) := by
  intro reg h
  rcases wire_cases r a reg with ⟨net, hsame, hok⟩ | ⟨e, herror⟩
  · rw [hok]
    show (reg.nextId : Int) - (net.size : Int) = k
    rw [hsame.size_eq]
    exact h
  · rw [herror]
    exact h

theorem spare_collapse (clause : String) (column : Nat) (pending : List Pending) (operands : List Ref) (reg : Registry) :
    (left (collapse clause column pending operands reg)).spare = reg.spare :=
  (keeps_collapse (spare_wire reg.spare) column pending operands).left rfl

/-- An opening parenthesis draws an id for no node, and no other symbol does. -/
theorem spare_step {s : Stacks} {t : Token} (h : ¬Refused (step clause leaf s t reg)) :
    (left (step clause leaf s t reg)).spare = reg.spare + [t.symbol].count .openGroup := by
  have hplace : ∀ (gate : Gate) (next : Ref → Stacks),
      ¬Refused ((place gate >>= fun r => pure (next r)) reg) →
      (left ((place gate >>= fun r => pure (next r)) reg)).spare = reg.spare := by
    intro gate next h
    rcases place_cases gate reg with ⟨net, -, hok⟩ | ⟨e, herror⟩
    · rw [bind_of_ok hok]
      exact spare_place hok
    · rw [bind_of_error herror] at h
      exact absurd trivial h
  obtain ⟨pending, operands⟩ := s
  obtain ⟨symbol, column⟩ := t
  cases symbol with
  | «variable» k => exact (spare_collapse clause column pending (leaf k :: operands) reg).trans (Int.add_zero _).symm
  | connective op =>
    cases operands with
    | nil => exact (Int.add_zero _).symm
    | cons a operands => exact (hplace _ _ h).trans (Int.add_zero _).symm
  | not => exact (hplace _ _ h).trans (Int.add_zero _).symm
  | openGroup =>
    show ((reg.nextId + 1 : Nat) : Int) - reg.size = reg.nextId - reg.size + 1
    omega
  | closeGroup =>
    match pending with
    | [] => exact (Int.add_zero _).symm
    | .gate r :: pending => exact (Int.add_zero _).symm
    | .group :: pending => exact (spare_collapse clause column pending operands reg).trans (Int.add_zero _).symm

theorem spare_close {s : Stacks} (h : ¬Refused (close clause s reg)) :
    (left (close clause s reg)).spare = reg.spare := by
  unfold close at h ⊢
  have hcollapse := spare_collapse clause clause.length s.pending s.operands reg
  match hs : collapse clause clause.length s.pending s.operands reg with
  | .error e reg' =>
    rw [hs] at hcollapse
    rw [bind_of_error hs]
    exact hcollapse
  | .ok ⟨pending, operands⟩ reg' =>
    rw [hs] at hcollapse
    rw [bind_of_ok hs] at h ⊢
    refine Eq.trans ?_ hcollapse
    match pending, operands, h with
    | [], [a], h =>
      rcases place_cases (.cost a) reg' with ⟨net, -, hok⟩ | ⟨e, herror⟩
      · show (left (place (.cost a) reg')).spare = _
        rw [hok]
        exact spare_place hok
      · have h : ¬Refused (place (.cost a) reg') := h
        rw [herror] at h
        exact absurd trivial h
    | [], [], _ => rfl
    | [], _ :: _ :: _, _ => rfl
    | _ :: _, _, _ => rfl

/-! ### What is taken of a clause -/

/-- The tokens that an assembly takes, up to the one at which it stops. -/
def taken (clause : String) (leaf : Nat → Ref) : List Token → Stacks → Registry → List Token
  | [], _, _ => []
  | t :: tokens, s, reg =>
    t :: match step clause leaf s t reg with
      | .ok s reg => taken clause leaf tokens s reg
      | .error _ _ => []

/-- Each opening parenthesis among the tokens that were taken has drawn an id for no node. -/
theorem spare_run (tokens : List Token) {s : Stacks} (h : ¬Refused (tokens.foldlM (step clause leaf) s reg)) :
    (left (tokens.foldlM (step clause leaf) s reg)).spare =
      reg.spare + ((taken clause leaf tokens s reg).map Token.symbol).count .openGroup := by
  induction tokens generalizing s reg with
  | nil => exact (Int.add_zero _).symm
  | cons t tokens ih =>
    have hcount : ∀ w : List Symbol, ((t.symbol :: w).count .openGroup : Int) =
        [t.symbol].count .openGroup + w.count .openGroup := by
      intro w
      rw [← List.singleton_append, List.count_append, Int.natCast_add]
    rw [List.foldlM_cons] at h ⊢
    rw [taken, List.map_cons, hcount, ← Int.add_assoc]
    have hstep : ¬Refused (step clause leaf s t reg) → _ := spare_step
    match hs : step clause leaf s t reg with
    | .ok s' reg' =>
      rw [hs] at hstep
      rw [bind_of_ok hs] at h ⊢
      rw [← hstep (fun h => h)]
      exact ih h
    | .error e reg' =>
      rw [hs] at hstep
      rw [bind_of_error hs] at h ⊢
      refine (hstep ?_).trans (Int.add_zero _).symm
      cases e with
      | clause e => exact fun h => h
      | register e => exact fun _ => h trivial

end Assembly

/-- The symbols that a reading takes, up to the one at which it stops. -/
def Reading.taken (m : Reading) : List Symbol → List Symbol
  | [] => []
  | x :: w =>
    x :: match m.step x with
      | some m => m.taken w
      | none => []

namespace Assembly

variable {reg₀ reg : Registry} {n : Nat} {s : Stacks} {m : Reading} {clause : String}

/-- An assembly takes the tokens whose symbols a reading takes. -/
theorem taken_follows (tokens : List Token) (h : Underway reg₀ reg n s m)
    (hindex : ∀ t ∈ tokens, ∀ k, t.symbol = .variable k → k < n) :
    (taken clause (Circuit.sigmoidOf n) tokens s reg).map Token.symbol = m.taken (tokens.map Token.symbol) := by
  induction tokens generalizing reg s m with
  | nil => rfl
  | cons t tokens ih =>
    have hstep : Goes reg₀ n (m.step t.symbol) (step clause (Circuit.sigmoidOf n) s t reg) :=
      step_follows h t (hindex t List.mem_cons_self)
    rw [taken, List.map_cons, List.map_cons, Reading.taken]
    rcases hstep.cases with ⟨m', s', reg', hm, hs, h'⟩ | ⟨flaw, column, text, reg', hm, hs, -⟩
    · rw [hm, hs]
      exact congrArg _ (ih h' fun t ht => hindex t (List.mem_cons_of_mem _ ht))
    · rw [hm, hs]
      rfl

theorem Follows.not_refused {α β : Type} {R : Registry → α → β → Prop} {o : Option β}
    {r : EStateM.Result AssemblyError Registry α} (h : Follows reg₀ n R o r) : ¬Refused r := by
  rcases h.cases with ⟨b, a, reg', -, rfl, -⟩ | ⟨flaw, column, text, reg', -, rfl, -⟩
  · exact fun h => h
  · exact fun h => h

/-- The symbols of a clause over `n` variables that its assembly takes.  It takes none if the clause is not
scanned. -/
def consumed (n : Nat) (clause : String) : List Symbol :=
  match Token.scan clause n with
  | .ok tokens => (Reading.mk [] []).taken (tokens.map Token.symbol)
  | .error _ => []

/-- Whether a clause is accepted or not, the parentheses that were taken of it have drawn ids for no node. -/
theorem spare_assemble (h : reg.Sound n) (clause : String) :
    (left (assemble n (Circuit.sigmoidOf n) clause reg)).spare =
      reg.spare + (consumed n clause).count .openGroup := by
  unfold consumed
  match hscan : Token.scan clause n with
  | .error e =>
    rw [assemble_of_scan_error hscan]
    exact (Int.add_zero _).symm
  | .ok tokens =>
    have hbegin : Underway reg reg n ⟨[], []⟩ ⟨[], []⟩ := .begin h
    have hindex := Token.lt_of_scan hscan
    have hrun : Goes reg n _ (tokens.foldlM (step clause (Circuit.sigmoidOf n)) ⟨[], []⟩ reg) :=
      run_follows tokens hbegin hindex
    have hspare := spare_run tokens hrun.not_refused
    rw [taken_follows tokens hbegin hindex] at hspare
    unfold assemble
    rw [hscan]
    show (left ((tokens.foldlM (step clause (Circuit.sigmoidOf n)) ⟨[], []⟩ >>= close clause) reg)).spare = _
    rcases hrun.cases with ⟨m, s, reg', -, hs, hunder⟩ | ⟨flaw, column, text, reg', -, hs, -⟩
    · rw [hs] at hspare
      rw [bind_of_ok hs, ← hspare]
      exact spare_close (close_follows hunder).not_refused
    · rw [hs] at hspare
      rw [bind_of_error hs]
      exact hspare

end Assembly

end SoftLogic
