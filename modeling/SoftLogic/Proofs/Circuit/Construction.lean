import SoftLogic.Proofs.Clause.Assembly

/-!
# Registries of circuits

`Registry.Reachable` is every registry that a circuit can hold: the variables are placed first, and then
clauses are assembled, accepted or not, in any order.  All of them are sound.  In the circuit of a program
every clause was accepted, so nothing waits in it: `Circuit.Complete`.
-/

namespace SoftLogic

/-- The registries over `n` variables that assembling clauses leads to. -/
inductive Registry.Reachable (n : Nat) : Registry → Prop
  | start {reg : Registry} : Circuit.placeVariables n .empty = .ok () reg → Reachable n reg
  | accepted {reg reg' : Registry} {clause : String} {root : Ref} : Reachable n reg →
    Assembly.assemble n (Circuit.sigmoidOf n) clause reg = .ok root reg' → Reachable n reg'
  | rejected {reg reg' : Registry} {clause : String} {e : AssemblyError} : Reachable n reg →
    Assembly.assemble n (Circuit.sigmoidOf n) clause reg = .error e reg' → Reachable n reg'

/-! ### Placing the variables -/

/-- A registry of `i` inputs and of the sigmoids of the first `j` of them. -/
structure Registry.Leaves (reg : Registry) (i j : Nat) : Prop where
  size : reg.net.size = i + j
  gate : ∀ r : Nat, reg.net.gate r = if r < i then .input else if r < i + j then .sigmoid (r - i) else .plain
  consumers : ∀ r : Nat, reg.net.consumers r = if r < j then [i + r] else []
  fresh : ∀ r : Nat, r < reg.size → reg.net.id r < reg.nextId
  nextId : reg.nextId = i + j

namespace Registry.Leaves

variable {reg : Registry} {n i j : Nat}

theorem empty : Registry.empty.Leaves 0 0 :=
  ⟨rfl, fun r => Netlist.gate_of_size_le (Nat.zero_le r), fun r =>
    Netlist.consumers_of_size_le (Nat.zero_le r), fun r hr => absurd hr (Nat.not_lt_zero r), rfl⟩

theorem place_input (h : reg.Leaves i 0) :
    ∃ reg', Assembly.place .input reg = .ok i reg' ∧ reg'.Leaves (i + 1) 0 := by
  have hadd : reg.net.add reg.nextId .input = .ok (reg.net.push reg.nextId .input) := rfl
  have hplace := Assembly.place_of_add h.fresh hadd
  have hsize := h.size
  rw [Netlist.size_push, Nat.add_sub_cancel, hsize] at hplace
  refine ⟨_, hplace, ?_, ?_, ?_, ?_, congrArg (· + 1) h.nextId⟩
  · rw [Netlist.size_push, hsize]
  · intro r
    rw [Netlist.gate_push, h.gate, hsize]
    split_ifs <;> first | rfl | omega
  · intro r
    rw [Netlist.consumers_push, h.consumers]
    rfl
  · intro r hr
    refine Registry.fresh_add h.fresh (Netlist.size_push _ _ _) ?_ ?_ r hr
    · exact (Netlist.id_push _ _ _ _).trans (if_pos rfl)
    · intro q hq
      exact (Netlist.id_push _ _ _ _).trans (if_neg hq)

theorem place_sigmoid (h : reg.Leaves i j) (hj : j < i) :
    ∃ reg', Assembly.place (.sigmoid j) reg = .ok (i + j) reg' ∧ reg'.Leaves i (j + 1) := by
  have hsize := h.size
  have hfree : reg.net.Free j := by
    refine .inr ⟨?_, ?_⟩
    · rw [h.consumers, if_neg (Nat.lt_irrefl j)]
    · intro b
      rw [h.gate, if_pos hj]
      exact Gate.noConfusion
  obtain ⟨net, hadd, hattached, hid, hid'⟩ :=
    Netlist.attached_add reg.nextId (by omega) hfree (show (Gate.sigmoid j).operands = [j] from rfl)
  have hplace := Assembly.place_of_add h.fresh hadd
  have hsize' : net.size = i + (j + 1) := by
    rw [hattached.size_eq]
    omega
  rw [hsize', ← Nat.add_assoc, Nat.add_sub_cancel] at hplace
  refine ⟨_, hplace, hsize', ?_, ?_, ?_, congrArg (· + 1) h.nextId⟩
  · intro r
    rw [hattached.gate_eq, h.gate, hsize]
    by_cases hr : r = i + j
    · rw [if_pos hr, if_neg (by omega), if_pos (by omega), hr, Nat.add_sub_cancel_left]
    · rw [if_neg hr]
      split_ifs <;> first | rfl | omega
  · intro r
    rw [hattached.consumers_eq, h.consumers, h.consumers, hsize]
    by_cases hr : r = j
    · rw [if_pos hr, if_neg (Nat.lt_irrefl j), if_pos (by omega), hr, List.nil_append]
    · rw [if_neg hr]
      split_ifs <;> first | rfl | omega
  · intro r hr
    refine Registry.fresh_add h.fresh ?_ hid hid' r hr
    rw [hsize', Registry.size, hsize, Nat.add_assoc]

theorem sound (h : reg.Leaves n n) : reg.Sound n := by
  have hsize := h.size
  refine ⟨⟨by omega, ?_, ?_, fun (r : Nat) hr hlt => by omega, ?_, fun r => .inl ?_⟩, h.fresh⟩
  · intro k hk
    rw [h.gate, if_pos hk]
  · intro k hk
    rw [h.gate, if_neg (by unfold Circuit.sigmoidOf; omega), if_pos (by unfold Circuit.sigmoidOf; omega),
      Circuit.sigmoidOf, Nat.add_sub_cancel_left]
  · -- input `p` feeds sigmoid `n + p`, and sigmoid `m` reads input `m - n`
    intro (p : Nat) (m : Nat)
    have hcount : ∀ a b : Nat, List.count (α := Ref) a [b] = if b = a then 1 else 0 :=
      fun a b => by rw [List.count_singleton]; simp
    rw [h.consumers, Netlist.operands, h.gate]
    by_cases hp : p < n
    · rw [if_pos hp, hcount]
      split_ifs with hm hm' hm' <;> simp only [Gate.operands, hcount, List.count_nil] <;> first
        | omega
        | rw [if_pos (by omega)]
        | rw [if_neg (by omega)]
    · rw [if_neg hp, List.count_nil]
      split_ifs with hm hm' <;> simp only [Gate.operands, hcount, List.count_nil]
      rw [if_neg (by omega)]
  · rw [h.consumers]
    split <;> simp

end Registry.Leaves

/-- The variables are placed without fail. -/
theorem Circuit.placeVariables_ok (n : Nat) :
    ∃ reg, placeVariables n .empty = .ok () reg ∧ reg.Leaves n n := by
  obtain ⟨reg₁, h₁, hinputs⟩ := Effect.forM_range (n := n)
    (f := fun _ => discard (Assembly.place .input)) (P := fun k reg => reg.Leaves k 0) (fun k _ reg h => by
      obtain ⟨reg', hplace, h'⟩ := h.place_input
      refine ⟨reg', ?_, h'⟩
      show (Assembly.place .input >>= fun _ => pure ()) reg = _
      rw [Effect.bind_of_ok hplace]
      rfl) Registry.Leaves.empty
  obtain ⟨reg₂, h₂, hsigmoids⟩ := Effect.forM_range (n := n)
    (f := fun leaf => discard (Assembly.place (.sigmoid leaf)))
    (P := fun k reg => reg.Leaves n k) (fun k hk reg h => by
      obtain ⟨reg', hplace, h'⟩ := h.place_sigmoid hk
      refine ⟨reg', ?_, h'⟩
      show (Assembly.place (.sigmoid k) >>= fun _ => pure ()) reg = _
      rw [Effect.bind_of_ok hplace]
      rfl) hinputs
  refine ⟨reg₂, ?_, hsigmoids⟩
  unfold placeVariables inputsOf
  rw [Effect.bind_of_ok h₁]
  exact h₂

/-! ### Assembling clauses -/

theorem Registry.Reachable.sound {n : Nat} {reg : Registry} (h : reg.Reachable n) : reg.Sound n := by
  induction h with
  | start hreg =>
    obtain ⟨reg', hplace, hleaves⟩ := Circuit.placeVariables_ok n
    rw [hplace] at hreg
    cases hreg
    exact hleaves.sound
  | accepted _ hok ih =>
    obtain ⟨_, _, _, _, hcompletes⟩ := Assembly.read_of_assemble ih hok
    exact hcompletes.sound
  | rejected _ herror ih => exact (Assembly.sound_of_rejected ih herror).1

/-- The node at `root` stands for a clause over `n` variables. -/
def Netlist.Roots (net : Netlist) (n : Nat) (clause : String) (root : Ref) : Prop :=
  ∃ tokens f, Token.scan clause n = .ok tokens ∧ Formula.read (tokens.map Token.symbol) = some f ∧
    net.CostOf n root f

theorem Registry.Extends.roots {reg reg' : Registry} {n : Nat} {clause : String} {root : Ref}
    (h : reg.Extends reg') (hroot : reg.net.Roots n clause root) : reg'.net.Roots n clause root := by
  obtain ⟨tokens, f, hscan, hread, a, hgate, hd⟩ := hroot
  have hlt : root < reg.size := Netlist.lt_size_of_gate (by simp [hgate])
  exact ⟨tokens, f, hscan, hread, a, (h.gate_eq root hlt).trans hgate, h.denotes hd⟩

/-- What is closed stays closed when closed gates are added. -/
theorem Registry.Extends.closedFrom {reg reg' : Registry} {start : Nat} (h : reg.Extends reg')
    (hclosed : reg.net.ClosedFrom start) (hnew : reg'.net.ClosedFrom reg.size) :
    reg'.net.ClosedFrom start := by
  intro r hr hlt
  by_cases hold : r < reg.size
  · rw [h.gate_eq r hold]
    obtain ⟨hopen, hroot⟩ := hclosed r hr hold
    exact ⟨hopen, fun hnil => hroot (List.prefix_nil.mp (hnil ▸ h.consumers_prefix r))⟩
  · exact hnew r (Nat.le_of_not_lt hold) hlt

/-- Clauses that were all accepted, one after the other. -/
structure Registry.Grown (reg reg' : Registry) (n : Nat) (clauses : List String) (roots : List Ref) :
    Prop where
  reachable : reg'.Reachable n
  extends_start : reg.Extends reg'
  closed : reg'.net.ClosedFrom reg.size
  nodup : roots.Nodup
  mem_roots : ∀ r, r ∈ roots ↔ reg.size ≤ r ∧ ∃ a, reg'.net.gate r = .cost a
  roots : List.Forall₂ (reg'.net.Roots n) clauses roots

theorem Assembly.grown_of_mapM {n : Nat} {clauses : List String} {reg reg' : Registry} {roots : List Ref}
    (h : reg.Reachable n) (hok : clauses.mapM (assemble n (Circuit.sigmoidOf n)) reg = .ok roots reg') :
    reg.Grown reg' n clauses roots := by
  induction clauses generalizing reg roots with
  | nil =>
    cases hok
    refine ⟨h, .refl _, fun r hr hlt => absurd hlt (Nat.not_lt_of_le hr), .nil, fun r => ?_, .nil⟩
    refine ⟨fun hr => absurd hr List.not_mem_nil, ?_⟩
    rintro ⟨hr, a, ha⟩
    rw [Netlist.gate_of_size_le hr] at ha
    cases ha
  | cons clause clauses ih =>
    rw [List.mapM_cons] at hok
    obtain ⟨root, reg₁, hassemble, hok⟩ := Effect.of_bind_ok hok
    obtain ⟨rest, reg₂, hrest, hok⟩ := Effect.of_bind_ok hok
    cases hok
    obtain ⟨tokens, f, hscan, hread, hcompletes⟩ := read_of_assemble h.sound hassemble
    have hgrown := ih (h.accepted hassemble) hrest
    obtain ⟨a, hgate, hd⟩ := hcompletes.source
    have hlt : root < reg₁.size := Netlist.lt_size_of_gate (by simp [hgate])
    have hle := hcompletes.size_le
    have hkeep := hgrown.extends_start
    have hroot : reg'.net.Roots n clause root := hkeep.roots ⟨tokens, f, hscan, hread, a, hgate, hd⟩
    refine ⟨hgrown.reachable, hcompletes.extends_start.trans hkeep,
      hkeep.closedFrom hcompletes.closed hgrown.closed, List.nodup_cons.mpr ⟨fun hmem => ?_,
      hgrown.nodup⟩, fun r => ⟨fun hr => ?_, ?_⟩, .cons hroot hgrown.roots⟩
    · exact absurd ((hgrown.mem_roots root).mp hmem).1 (Nat.not_le_of_lt hlt)
    · rcases List.mem_cons.mp hr with rfl | hr
      · exact ⟨hle, a, (hkeep.gate_eq _ hlt).trans hgate⟩
      · obtain ⟨hr, ha⟩ := (hgrown.mem_roots r).mp hr
        exact ⟨Nat.le_trans hcompletes.extends_start.size_le hr, ha⟩
    · rintro ⟨hr, b, hb⟩
      by_cases hold : r < reg₁.size
      · rw [hkeep.gate_eq r hold] at hb
        exact hcompletes.only r hr b hb ▸ List.mem_cons_self
      · exact List.mem_cons_of_mem _ ((hgrown.mem_roots r).mpr ⟨Nat.le_of_not_lt hold, b, hb⟩)

/-- The derivation is one of the text of a clause over `n` variables. -/
def Expression.Derives (e : Expression) (n : Nat) (clause : String) : Prop :=
  ∃ tokens, Token.scan clause n = .ok tokens ∧ tokens.map Token.symbol = e.symbols

theorem Expression.Derives.read {e : Expression} {n : Nat} {clause : String} (h : e.Derives n clause) :
    ∃ tokens, Token.scan clause n = .ok tokens ∧ Formula.read (tokens.map Token.symbol) = some e.formula := by
  obtain ⟨tokens, hscan, hsymbols⟩ := h
  exact ⟨tokens, hscan, by rw [hsymbols, Formula.read_symbols]⟩

/-- The derivation of the only line of a program. -/
theorem Expression.Derives.singleton {e : Expression} {n : Nat} {clause : String} (h : e.Derives n clause)
    (hclause : Circuit.significant [clause] = [clause]) :
    List.Forall₂ (fun line e => Expression.Derives e n line) (Circuit.significant [clause]) [e] := by
  rw [hclause]
  exact .cons h .nil

/-- Clauses that are all derived are all accepted. -/
theorem Assembly.mapM_of_derives {n : Nat} {clauses : List String} {es : List Expression} {reg : Registry}
    (h : reg.Sound n) (hderived : List.Forall₂ (fun clause e => Expression.Derives e n clause) clauses es) :
    ∃ roots reg', clauses.mapM (assemble n (Circuit.sigmoidOf n)) reg = .ok roots reg' := by
  induction hderived generalizing reg with
  | nil => exact ⟨[], reg, rfl⟩
  | cons he _ ih =>
    obtain ⟨tokens, hscan, hread⟩ := he.read
    obtain ⟨root, reg₁, hok, hcompletes⟩ := assemble_of_read h hscan hread
    obtain ⟨roots, reg₂, hrest⟩ := ih hcompletes.sound
    refine ⟨root :: roots, reg₂, ?_⟩
    rw [List.mapM_cons, Effect.bind_of_ok hok, Effect.bind_of_ok hrest]
    rfl

/-! ### Circuits -/

/-- A circuit in whose registry nothing waits, with a root for each line. -/
structure Circuit.Complete (c : Circuit) (lines : List String) : Prop where
  reachable : c.registry.Reachable c.numVars
  closed : c.net.ClosedFrom (2 * c.numVars)
  nodup : c.roots.Nodup
  mem_roots : ∀ r, r ∈ c.roots ↔ ∃ a, c.net.gate r = .cost a
  roots : List.Forall₂ (c.net.Roots c.numVars) lines c.roots

/-- A circuit in whose registry nothing waits, whatever else was assembled there beside its own clauses. -/
structure Circuit.Sealed (c : Circuit) : Prop where
  reachable : c.registry.Reachable c.numVars
  closed : c.net.ClosedFrom (2 * c.numVars)
  roots : ∀ r ∈ c.roots, ∃ a, c.net.gate r = .cost a

theorem Circuit.Complete.sealed {c : Circuit} {lines : List String} (h : c.Complete lines) : c.Sealed :=
  ⟨h.reachable, h.closed, fun r hr => (h.mem_roots r).mp hr⟩

/-- The circuit of a program comes about by placing the variables and assembling the clauses. -/
theorem Circuit.of_ofProgram_ok {p : Program} {c : Circuit} (h : ofProgram p = .ok c) :
    p.declared = c.numVars ∧ ∃ reg, placeVariables c.numVars .empty = .ok () reg ∧
      reg.Leaves c.numVars c.numVars ∧ (significant p.clauses).mapM
        (Assembly.assemble c.numVars (sigmoidOf c.numVars)) reg = .ok c.roots c.registry := by
  unfold ofProgram at h
  split at h
  · cases h
  · dsimp only at h
    obtain ⟨reg, hplace, hleaves⟩ := placeVariables_ok p.declared.toNat
    have hall : placeAll p.declared.toNat (significant p.clauses) .empty =
        (significant p.clauses).mapM (Assembly.assemble p.declared.toNat (sigmoidOf p.declared.toNat)) reg := by
      unfold placeAll
      rw [Effect.bind_of_ok hplace]
    rw [hall] at h
    match hok : (significant p.clauses).mapM
        (Assembly.assemble p.declared.toNat (sigmoidOf p.declared.toNat)) reg with
    | .error e reg' =>
      rw [hok] at h
      cases h
    | .ok roots reg' =>
      rw [hok] at h
      cases h
      refine ⟨?_, reg, hplace, hleaves, hok⟩
      simp only
      omega

/-- The circuit of a program is complete. -/
theorem Circuit.complete_of_ofProgram {p : Program} {c : Circuit} (h : ofProgram p = .ok c) :
    c.Complete (significant p.clauses) ∧ p.declared = c.numVars := by
  obtain ⟨hdeclared, reg, hplace, hleaves, hok⟩ := of_ofProgram_ok h
  have hgrown := Assembly.grown_of_mapM (.start hplace) hok
  have hsize : reg.size = 2 * c.numVars := by
    rw [Nat.two_mul]
    exact hleaves.size
  refine ⟨⟨hgrown.reachable, hsize ▸ hgrown.closed, hgrown.nodup, ?_, hgrown.roots⟩, hdeclared⟩
  -- the variables are no roots, so all roots came with the clauses
  intro r
  refine (hgrown.mem_roots r).trans ⟨And.right, fun ha => ⟨?_, ha⟩⟩
  obtain ⟨a, ha⟩ := ha
  by_contra hlt
  have hlt : r < reg.size := Nat.lt_of_not_le hlt
  have hgate := hgrown.extends_start.gate_eq r hlt
  rw [hleaves.gate, show c.registry.net.gate r = .cost a from ha] at hgate
  split_ifs at hgate

/-- A program whose lines are all derived has a circuit. -/
theorem Circuit.ofProgram_ok {p : Program} {n : Nat} {es : List Expression} (hdeclared : p.declared = n)
    (hderived : List.Forall₂ (fun line e => Expression.Derives e n line) (significant p.clauses) es) :
    ∃ c, ofProgram p = .ok c ∧ c.numVars = n := by
  obtain ⟨reg₁, hplace, hleaves⟩ := placeVariables_ok n
  obtain ⟨roots, reg₂, hok⟩ := Assembly.mapM_of_derives hleaves.sound hderived
  have hall : placeAll n (significant p.clauses) .empty = .ok roots reg₂ := by
    unfold placeAll
    rw [Effect.bind_of_ok hplace, hok]
  refine ⟨⟨n, reg₂, (significant p.clauses).map stripped, roots⟩, ?_, rfl⟩
  unfold ofProgram
  rw [hdeclared, if_neg (Int.not_lt.mpr (Int.natCast_nonneg n))]
  simp only [Int.toNat_natCast, hall]

/-- The circuit of the clause `$0` over one variable. -/
def Circuit.atom : Circuit :=
  ⟨1, ⟨⟨#[⟨0, .input, [1]⟩, ⟨1, .sigmoid 0, [2]⟩, ⟨2, .cost 1, []⟩]⟩, 3⟩, ["$0"], [2]⟩

theorem Circuit.ofProgram_atom : ofProgram ⟨1, ["$0"]⟩ = .ok atom := by decide +kernel

theorem Circuit.numVars_assemble (c : Circuit) (clause : String) :
    (c.assemble clause).2.numVars = c.numVars := by
  unfold assemble
  split <;> rfl

theorem Circuit.roots_assemble (c : Circuit) (clause : String) : (c.assemble clause).2.roots = c.roots := by
  unfold assemble
  split <;> rfl

/-- A further clause leads to a reachable registry. -/
theorem Circuit.reachable_assemble {c : Circuit} (h : c.registry.Reachable c.numVars) (clause : String) :
    (c.assemble clause).2.registry.Reachable c.numVars := by
  unfold assemble
  match hassemble : Assembly.assemble c.numVars (sigmoidOf c.numVars) clause c.registry with
  | .ok root reg => exact h.accepted hassemble
  | .error e reg => exact h.rejected hassemble

end SoftLogic
