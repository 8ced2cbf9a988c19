import SoftLogic.Proofs.Clause.Conservation
import SoftLogic.Proofs.Clause.Occurrences
import SoftLogic.Proofs.Netlist.Growth

/-!
# Clauses are appended

Assembling a clause wires its variables as it goes along, before it is known whether the clause is well formed.  Still
nothing that was there is disturbed by it, in a text that is accepted or in one that is rejected
(`Assembly.appends_assemble`): a clause reads sigmoids and nodes of its own, so only sigmoids get new consumers, and all
of these are new nodes (`Netlist.Appends`).

What the grammar derives is moreover laid in the order of its text (`Expression.Laid`): the operators have the ids and
the places that follow, one after the other, and each variable gets its readers from left to right.
-/

namespace SoftLogic

open Effect

/-- `reg` is `reg₀` with further nodes and ids. -/
structure Registry.Appends (reg₀ reg : Registry) : Prop where
  net : reg₀.net.Appends reg.net
  nextId_le : reg₀.nextId ≤ reg.nextId

theorem Registry.Appends.refl (reg : Registry) : reg.Appends reg := ⟨.refl reg.net, Nat.le_refl _⟩

namespace Assembly

/-! ### Any text -/

/-- What waits is new, and what is to be read may be read. -/
structure Within (net₀ : Netlist) (s : Stacks) : Prop where
  pending : ∀ r, .gate r ∈ s.pending → net₀.size ≤ r
  operands : ∀ a ∈ s.operands, net₀.Lends a

section Appends

variable {reg₀ : Registry} {clause : String} {leaf : Nat → Ref} {r a : Nat} {pending : List Pending}
  {operands : List Ref} {s : Stacks}

theorem Within.of_gate (h : Within reg₀.net ⟨.gate r :: pending, operands⟩) :
    reg₀.net.size ≤ r ∧ Within reg₀.net ⟨pending, operands⟩ :=
  ⟨h.pending r List.mem_cons_self, fun q hq => h.pending q (List.mem_cons_of_mem _ hq), h.operands⟩

theorem Within.of_operand (h : Within reg₀.net ⟨pending, a :: operands⟩) :
    reg₀.net.Lends a ∧ Within reg₀.net ⟨pending, operands⟩ :=
  ⟨h.operands a List.mem_cons_self, h.pending, fun b hb => h.operands b (List.mem_cons_of_mem a hb)⟩

theorem Within.cons_gate (h : Within reg₀.net ⟨pending, operands⟩) (hr : reg₀.net.size ≤ r) :
    Within reg₀.net ⟨.gate r :: pending, operands⟩ := by
  refine ⟨fun q hq => ?_, h.operands⟩
  rcases List.mem_cons.mp hq with heq | hq
  · cases heq
    exact hr
  · exact h.pending q hq

theorem Within.cons_operand (h : Within reg₀.net ⟨pending, operands⟩) (ha : reg₀.net.Lends a) :
    Within reg₀.net ⟨pending, a :: operands⟩ := by
  refine ⟨h.pending, fun b hb => ?_⟩
  rcases List.mem_cons.mp hb with rfl | hb
  · exact ha
  · exact h.operands b hb

theorem appends_place {gate : Gate} (hgate : ∀ a ∈ gate.operands, reg₀.net.Lends a) :
    Yields reg₀.Appends (reg₀.net.size ≤ ·) (place gate) := by
  constructor
  · intro reg h
    rcases place_cases gate reg with ⟨net, hadd, hok⟩ | ⟨e, herror⟩
    · rw [hok]
      exact ⟨h.net.add hgate hadd, Nat.le_succ_of_le h.nextId_le⟩
    · rw [herror]
      exact ⟨h.net, Nat.le_succ_of_le h.nextId_le⟩
  · intro reg r reg' h hok
    obtain ⟨net, hadd, rfl, -⟩ := of_place_ok hok
    rw [(Netlist.ids_add hadd).1, Nat.add_sub_cancel]
    exact h.net.size_le

theorem appends_wire (hr : reg₀.net.size ≤ r) (ha : reg₀.net.Lends a) : Keeps reg₀.Appends (wire r a) := by
  intro reg h
  rcases wire_cases r a reg with ⟨net, -, hok⟩ | ⟨e, herror⟩
  · obtain ⟨net', hadd, heq⟩ := of_wire_ok hok
    rw [hok, heq]
    exact ⟨h.net.addOperand hr ha hadd, h.nextId_le⟩
  · rw [herror]
    exact h

/-- A gate that has got its last operand may be read. -/
theorem appends_collapse (column : Nat) (h : Within reg₀.net ⟨pending, operands⟩) :
    Yields reg₀.Appends (Within reg₀.net) (collapse clause column pending operands) := by
  induction pending generalizing operands with
  | nil => exact yields_pure h
  | cons p pending ih =>
    cases p with
    | group => exact yields_pure h
    | gate r =>
      cases operands with
      | nil => exact ⟨fun _ h => h, nofun⟩
      | cons a operands =>
        obtain ⟨hr, h⟩ := h.of_gate
        obtain ⟨ha, h⟩ := h.of_operand
        have hwire : Yields reg₀.Appends (fun _ => True) (wire r a) := ⟨appends_wire hr ha, fun _ _ _ _ _ => trivial⟩
        exact hwire.bind fun _ _ => ih (h.cons_operand (.inl hr))

theorem appends_step (h : Within reg₀.net s) (t : Token)
    (hleaf : ∀ k, t.symbol = .variable k → reg₀.net.Lends (leaf k)) :
    Yields reg₀.Appends (Within reg₀.net) (step clause leaf s t) := by
  obtain ⟨pending, operands⟩ := s
  obtain ⟨symbol, column⟩ := t
  cases symbol with
  | «variable» k => exact appends_collapse column (h.cons_operand (hleaf k rfl))
  | connective op =>
    cases operands with
    | nil => exact yields_throw _
    | cons a operands =>
      obtain ⟨ha, h⟩ := h.of_operand
      refine (appends_place fun b hb => ?_).bind fun r hr => yields_pure (h.cons_gate hr)
      obtain rfl : b = a := List.mem_singleton.mp hb
      exact ha
  | not =>
    have hgate : ∀ a ∈ (Gate.not none).operands, reg₀.net.Lends a := fun _ ha => absurd ha List.not_mem_nil
    exact (appends_place hgate).bind fun r hr => yields_pure (h.cons_gate hr)
  | openGroup =>
    have hfresh : Yields reg₀.Appends (fun _ => True) (modify fun reg => reg.fresh.2 : AssemblyM Unit) :=
      ⟨fun _ h => ⟨h.net, Nat.le_succ_of_le h.nextId_le⟩, fun _ _ _ _ _ => trivial⟩
    refine hfresh.bind fun _ _ => yields_pure ⟨fun q hq => ?_, h.operands⟩
    rcases List.mem_cons.mp hq with heq | hq
    · cases heq
    · exact h.pending q hq
  | closeGroup =>
    match pending, h with
    | [], _ => exact yields_throw _
    | .gate r :: pending, _ => exact yields_throw _
    | .group :: pending, h =>
      exact appends_collapse column ⟨fun q hq => h.pending q (List.mem_cons_of_mem _ hq), h.operands⟩

theorem appends_close (h : Within reg₀.net s) : Keeps reg₀.Appends (close clause s) := by
  have hclose : Yields reg₀.Appends (fun _ => True) (close clause s) := by
    refine (appends_collapse clause.length h).bind fun s hs => ?_
    obtain ⟨pending, operands⟩ := s
    match pending, operands with
    | [], [a] =>
      have hgate : ∀ b ∈ (Gate.cost a).operands, reg₀.net.Lends b := by
        intro b hb
        obtain rfl : b = a := List.mem_singleton.mp hb
        exact hs.operands b List.mem_cons_self
      exact ⟨(appends_place hgate).keeps, fun _ _ _ _ _ => trivial⟩
    | [], [] => exact yields_throw _
    | [], _ :: _ :: _ => exact yields_throw _
    | _ :: _, _ => exact yields_throw _
  exact hclose.keeps

/-- Whatever becomes of a text whose variables are sigmoids, it is appended. -/
theorem appends_assemble {n : Nat} (hleaf : ∀ k < n, ∃ j, reg₀.net.gate (leaf k) = .sigmoid j) (clause : String) :
    reg₀.Appends (left (assemble n leaf clause reg₀)) := by
  unfold assemble
  match hscan : Token.scan clause n with
  | .error e => exact .refl reg₀
  | .ok tokens =>
    have hrun : Yields reg₀.Appends (Within reg₀.net) (tokens.foldlM (step clause leaf) ⟨[], []⟩) :=
      yields_foldlM (fun t ht s hs => appends_step hs t fun k hk => .inr (hleaf k (Token.lt_of_scan hscan t ht k hk)))
        ⟨nofun, nofun⟩
    have hall : Yields reg₀.Appends (fun _ => True) (tokens.foldlM (step clause leaf) ⟨[], []⟩ >>= close clause) :=
      hrun.bind fun s hs => ⟨appends_close hs, fun _ _ _ _ _ => trivial⟩
    exact hall.keeps.left (.refl reg₀)

end Appends

end Assembly

/-! ### The ids of a text -/

/-- The number of ids that a text draws: one for each operator, and one for each opening parenthesis. -/
def draws (w : List Symbol) : Nat := operators w + w.count .openGroup

/-- The ids of the operators of a text, from left to right, when `next` is the next id to hand out. -/
def idsFrom : Nat → List Symbol → List Int
  | _, [] => []
  | next, .connective _ :: w | next, .not :: w => next :: idsFrom (next + 1) w
  | next, .openGroup :: w => idsFrom (next + 1) w
  | next, .variable _ :: w | next, .closeGroup :: w => idsFrom next w

theorem draws_cons (x : Symbol) (w : List Symbol) : draws (x :: w) = draws [x] + draws w := by
  have hcount : ([x] ++ w).count Symbol.openGroup = [x].count .openGroup + w.count .openGroup := List.count_append
  rw [List.singleton_append] at hcount
  unfold draws
  rw [operators_cons x w, hcount]
  omega

theorem idsFrom_cons (next : Nat) (x : Symbol) (w : List Symbol) :
    idsFrom next (x :: w) = idsFrom next [x] ++ idsFrom (next + draws [x]) w := by
  cases x <;> rfl

namespace Netlist

variable {net net' : Netlist}

theorem SameIds.ids_eq (h : net.SameIds net') (nextId nextId' : Nat) :
    (Registry.mk net' nextId').ids = (Registry.mk net nextId).ids := by
  have hsize : net'.nodes.size = net.nodes.size := h.size_eq
  refine List.ext_getElem (by simp [Registry.ids, hsize]) fun q hq hq' => ?_
  have hid := h.id_eq q
  have hlt : q < net.nodes.size := by simpa [Registry.ids] using hq'
  have hlt' : q < net'.nodes.size := hsize ▸ hlt
  simpa [Registry.ids, Netlist.id, node, hlt, hlt'] using hid

theorem ids_of_add {id : Int} {gate : Gate} (h : net.add id gate = .ok net') (nextId nextId' : Nat) :
    (Registry.mk net' nextId').ids = (Registry.mk net nextId).ids ++ [id] := by
  have hsame := sameIds_of_add h
  rw [hsame.ids_eq nextId nextId']
  simp [Registry.ids, push]

end Netlist

namespace Assembly

variable {reg reg' : Registry} {clause : String} {leaf : Nat → Ref} {s s' : Stacks}

theorem ids_of_place {gate : Gate} {r : Ref} (h : place gate reg = .ok r reg') :
    reg'.ids = reg.ids ++ [(reg.nextId : Int)] ∧ reg'.nextId = reg.nextId + 1 := by
  obtain ⟨net, hadd, -, rfl⟩ := of_place_ok h
  exact ⟨Netlist.ids_of_add hadd _ _, rfl⟩

theorem ids_of_collapse {column : Nat} {pending : List Pending} {operands : List Ref}
    (h : collapse clause column pending operands reg = .ok s' reg') : reg'.ids = reg.ids ∧ reg'.nextId = reg.nextId := by
  have hwire : ∀ r a, Keeps (fun reg' : Registry => reg'.ids = reg.ids ∧ reg'.nextId = reg.nextId) (wire r a) := by
    rintro r a reg₁ ⟨hids, hnext⟩
    rcases wire_cases r a reg₁ with ⟨net, hsame, hok⟩ | ⟨e, herror⟩
    · rw [hok]
      exact ⟨(hsame.ids_eq _ _).trans hids, hnext⟩
    · rw [herror]
      exact ⟨hids, hnext⟩
  exact (keeps_collapse hwire column pending operands).ok ⟨rfl, rfl⟩ h

/-- A step gives the next id to the operator that it takes. -/
theorem ids_of_step {t : Token} (h : step clause leaf s t reg = .ok s' reg') :
    reg'.ids = reg.ids ++ idsFrom reg.nextId [t.symbol] ∧ reg'.nextId = reg.nextId + draws [t.symbol] := by
  obtain ⟨pending, operands⟩ := s
  obtain ⟨symbol, column⟩ := t
  cases symbol with
  | «variable» k =>
    obtain ⟨hids, hnext⟩ := ids_of_collapse h
    exact ⟨hids.trans (List.append_nil _).symm, hnext⟩
  | connective op =>
    cases operands with
    | nil => cases h
    | cons a operands =>
      obtain ⟨r, reg₁, hplace, hok⟩ := of_bind_ok h
      cases hok
      exact ids_of_place hplace
  | not =>
    obtain ⟨r, reg₁, hplace, hok⟩ := of_bind_ok h
    cases hok
    exact ids_of_place hplace
  | openGroup =>
    cases h
    exact ⟨(List.append_nil _).symm, rfl⟩
  | closeGroup =>
    match pending, h with
    | [], h => cases h
    | .gate r :: pending, h => cases h
    | .group :: pending, h =>
      obtain ⟨hids, hnext⟩ := ids_of_collapse h
      exact ⟨hids.trans (List.append_nil _).symm, hnext⟩

theorem ids_of_run {tokens : List Token} (h : tokens.foldlM (step clause leaf) s reg = .ok s' reg') :
    reg'.ids = reg.ids ++ idsFrom reg.nextId (tokens.map Token.symbol) ∧
      reg'.nextId = reg.nextId + draws (tokens.map Token.symbol) := by
  induction tokens generalizing s reg with
  | nil =>
    cases h
    exact ⟨(List.append_nil _).symm, rfl⟩
  | cons t tokens ih =>
    rw [List.foldlM_cons] at h
    obtain ⟨s₁, reg₁, hstep, hrun⟩ := of_bind_ok h
    obtain ⟨hids, hnext⟩ := ids_of_step hstep
    obtain ⟨hids', hnext'⟩ := ih hrun
    rw [hids, hnext] at hids'
    rw [hnext] at hnext'
    rw [List.map_cons, idsFrom_cons, draws_cons t.symbol (tokens.map _), ← List.append_assoc, ← Nat.add_assoc]
    exact ⟨hids', hnext'⟩

/-- The operators of an accepted clause have ids in the order of its text, and the root has the last one. -/
theorem ids_of_assemble {n : Nat} {root : Ref} {tokens : List Token} (hscan : Token.scan clause n = .ok tokens)
    (h : assemble n leaf clause reg = .ok root reg') :
    reg'.ids = reg.ids ++ idsFrom reg.nextId (tokens.map Token.symbol) ++
        [((reg.nextId + draws (tokens.map Token.symbol) : Nat) : Int)] ∧
      reg'.nextId = reg.nextId + draws (tokens.map Token.symbol) + 1 := by
  unfold assemble at h
  rw [hscan] at h
  obtain ⟨s, reg₁, hrun, hclose⟩ := of_bind_ok h
  obtain ⟨hids, hnext⟩ := ids_of_run hrun
  obtain ⟨⟨pending, operands⟩, reg₂, hcollapse, hplace⟩ := of_bind_ok hclose
  obtain ⟨hids', hnext'⟩ := ids_of_collapse hcollapse
  match pending, operands, hplace with
  | [], [a], hplace =>
    obtain ⟨hids'', hnext''⟩ := ids_of_place hplace
    rw [hids'', hnext'', hids', hnext', hids, hnext]
    exact ⟨rfl, rfl⟩
  | [], [], hplace => cases hplace
  | [], _ :: _ :: _, hplace => cases hplace
  | _ :: _, _, hplace => cases hplace

end Assembly

/-! ### Grammatical texts -/

namespace Tree

theorem map_fst_readings (n : Nat) (t : Tree) (r : Ref) :
    (t.readings r).map Prod.fst = (t.entries n).filterMap fun e => e.1.index? := by
  induction t generalizing r with
  | leaf k => rfl
  | not q t ih => exact ih q
  | binary q op t u iht ihu =>
    rw [readings, List.map_append, iht, ihu, entries, List.filterMap_append]
    rfl

theorem filterMap_places (n next : Nat) (w : List Symbol) :
    (places n next w).filterMap (fun e => e.1.index?) = w.filterMap Symbol.index? := by
  induction w generalizing next with
  | nil => rfl
  | cons x w ih => cases x <;> simp only [places, List.filterMap_cons, ih] <;> rfl

end Tree

/-- From `reg` to `reg'` a derivation was laid in the order of its text, under a cost at `root`. -/
structure Expression.Laid (e : Expression) (n : Nat) (reg reg' : Registry) (root : Ref) : Prop where
  /-- The root is the last node. -/
  size : reg'.size = root + 1
  cost : reg'.net.gate root = .cost ((e.tree reg.size).root n)
  stands : (e.tree reg.size).StandsIn reg'.net n
  /-- From left to right, the operators are the nodes that follow the last one. -/
  entries : (e.tree reg.size).entries n = Tree.places n reg.size e.symbols
  /-- The new nodes have ids in the order of the text, with one left out for each opening parenthesis. -/
  ids : reg'.ids = reg.ids ++ idsFrom reg.nextId e.symbols ++ [((reg.nextId + draws e.symbols : Nat) : Int)]
  nextId : reg'.nextId = reg.nextId + draws e.symbols + 1
  /-- From left to right, the variables of the text have readers. -/
  readings : ((e.tree reg.size).readings root).map Prod.fst = e.symbols.filterMap Symbol.index?
  /-- Each sigmoid feeds the readers of its variable, after what it fed before. -/
  consumers : ∀ k < n, reg'.net.consumers (Circuit.sigmoidOf n k) =
    reg.net.consumers (Circuit.sigmoidOf n k) ++ Tree.readers k ((e.tree reg.size).readings root)

/-- What the grammar derives is assembled, and laid in the order of its text. -/
theorem Expression.Derives.laid {e : Expression} {n : Nat} {clause : String} {reg : Registry} (he : e.Derives n clause)
    (h : reg.Sound n) : ∃ root reg', Assembly.assemble n (Circuit.sigmoidOf n) clause reg = .ok root reg' ∧
      e.Laid n reg reg' root := by
  obtain ⟨tokens, hscan, hread⟩ := he.read
  obtain ⟨root, reg', hok, -⟩ := Assembly.assemble_of_read h hscan hread
  obtain ⟨tokens', d, t, readings, hscan', hrun, hcollapse, hsize, hcost, hstands, hconsumers⟩ :=
    Assembly.assemble_draws h hok
  cases hscan.symm.trans hscan'
  obtain ⟨hids, hnext⟩ := Assembly.ids_of_assemble hscan hok
  obtain ⟨tokens', hscan', hsymbols⟩ := he
  cases hscan.symm.trans hscan'
  rw [hsymbols] at hrun hids hnext
  -- the drawing of a derivation is known, and with it what is left in the end
  rw [Drawing.run_expression e (show Drawing.Quiet (Drawing.blank reg.size).slots from trivial)] at hrun
  cases hrun
  cases hcollapse
  refine ⟨_, reg', hok, hsize, hcost, hstands, e.entries_tree n reg.size, hids, hnext, ?_, fun k hk => ?_⟩
  · rw [Tree.map_fst_readings n, e.entries_tree, Tree.filterMap_places]
  · rw [hconsumers k hk, Tree.readings_eq]
    rfl

end SoftLogic
