import SoftLogic.Proofs.Circuit.Memory
import SoftLogic.Proofs.Clause.Places

/-!
# What can be refused

A clause is refused for its own characters only, whatever was assembled before it: `ClauseError.Blames`.  The
registry never refuses a node, since ids are drawn in order and what is wired is free.  In a session none of whose
clauses was left half assembled, a call whose arguments fit the circuit is not refused at all
(`Session.Steady.returns`), since evaluating and pulling only need values in the inputs, and no call takes these
away.
-/

namespace SoftLogic

open Effect

/-! ### Clauses -/

/-- The characters of a clause over `n` variables are to blame: they have a flaw, or somewhere a variable is named
that is not declared or whose index is too long to be read. -/
inductive ClauseError.Blames (n : Nat) (chars : List Char) : ClauseError → Prop
  | malformed (flaw : Flaw) (column : Option Nat) (clause : String) :
    Blames n chars (.malformed flaw column clause)
  | undeclared {before rest : List Char} : chars = before ++ '$' :: rest →
    n ≤ Text.ofDigits (rest.takeWhile Char.isDigit) →
    Blames n chars (.undeclared (Text.ofDigits (rest.takeWhile Char.isDigit)) n)
  | longIndex {before rest : List Char} : chars = before ++ '$' :: rest →
    Text.maxDigits < (rest.takeWhile Char.isDigit).length →
    Blames n chars (.longIndex (rest.takeWhile Char.isDigit).length)

/-- A scan stops at characters that are to blame. -/
theorem Token.blames_of_scanFrom {clause : String} {n column : Nat} {chars : List Char} {e : ClauseError}
    (h : scanFrom clause n column chars = .error e) : e.Blames n chars := by
  rcases scanFrom_cases clause n column chars with ⟨tokens, hok, -⟩ | ⟨e', i, herror, hoffence⟩
  · cases hok.symm.trans h
  · cases herror.symm.trans h
    obtain ⟨hi, hsign⟩ := List.getElem?_eq_some_iff.mp hoffence.sign
    have hchars : chars = chars.take i ++ '$' :: chars.drop (i + 1) := by
      rw [← hsign, ← List.drop_eq_getElem_cons hi, List.take_append_drop]
    cases hoffence.offends with
    | bare _ => exact .malformed _ _ _
    | long hlong => exact .longIndex hchars hlong
    | undeclared hnil hshort hrange =>
      -- the number of variables is no more than an index that was short enough to be read
      have hrange := Int.ofNat_le.mp hrange
      have hindex := Text.width_ofDigits (fun _ => Text.of_mem_takeWhile) hnil hshort
      have hwidth : Text.width (Int.natAbs n) ≤ Text.maxDigits := (Text.width_mono hrange).trans hindex
      rw [Text.refusalNaming_of_short hwidth]
      exact .undeclared hchars hrange

/-- What is rejected is rejected for its characters: the registry refuses nothing. -/
theorem Assembly.blames_of_rejected {n : Nat} {reg reg' : Registry} {clause : String} {e : AssemblyError}
    (h : reg.Sound n) (herror : assemble n (Circuit.sigmoidOf n) clause reg = .error e reg') :
    ∃ e', e = .clause e' ∧ e'.Blames n clause.toList := by
  match hscan : Token.scan clause n with
  | .error e' =>
    rw [assemble_of_scan_error hscan] at herror
    cases herror
    exact ⟨e', rfl, Token.blames_of_scanFrom hscan⟩
  | .ok tokens =>
    match hread : Formula.read (tokens.map Token.symbol) with
    | none =>
      obtain ⟨flaw, column, text, _, herror', -⟩ := assemble_of_not_read h hscan hread
      rw [herror'] at herror
      cases herror
      exact ⟨_, rfl, .malformed flaw column text⟩
    | some f =>
      obtain ⟨_, _, hok, -⟩ := assemble_of_read h hscan hread
      rw [hok] at herror
      cases herror

/-- A clause that is not scanned leaves a circuit alone. -/
theorem Circuit.assemble_of_scan_error {c : Circuit} {clause : String} {e : ClauseError}
    (hscan : Token.scan clause c.numVars = .error e) : c.assemble clause = (.error (.clause e), c) := by
  unfold assemble
  rw [Assembly.assemble_of_scan_error hscan]

/-- A further clause gets its root, or its characters are to blame. -/
theorem Circuit.assemble_cases {c : Circuit} (h : c.registry.Reachable c.numVars) (clause : String) :
    (∃ root a, (c.assemble clause).1 = .ok root ∧ (c.assemble clause).2.net.gate root = .cost a) ∨
      ∃ e, (c.assemble clause).1 = .error (.clause e) ∧ e.Blames c.numVars clause.toList := by
  unfold assemble
  match hassemble : Assembly.assemble c.numVars (sigmoidOf c.numVars) clause c.registry with
  | .ok root reg =>
    obtain ⟨_, _, _, _, hcompletes⟩ := Assembly.read_of_assemble h.sound hassemble
    obtain ⟨a, ha, -⟩ := hcompletes.source
    exact .inl ⟨root, a, rfl, ha⟩
  | .error e reg =>
    obtain ⟨e', rfl, hblames⟩ := Assembly.blames_of_rejected h.sound hassemble
    exact .inr ⟨e', rfl, hblames⟩

/-! ### Circuits in which nothing waits -/

namespace Circuit

variable {c : Circuit}

theorem Sealed.wired (h : c.Sealed) : c.Wired := ⟨h.reachable, h.roots⟩

/-- Nothing waits after a clause that was accepted, or one that left no node behind. -/
theorem Sealed.assemble (h : c.Sealed) {clause : String} (hclause : (c.assemble clause).1.isOk = true ∨
    (c.assemble clause).2.net = c.net) : (c.assemble clause).2.Sealed := by
  obtain ⟨hwired, -⟩ := h.wired.assemble clause
  refine ⟨hwired.reachable, ?_, hwired.roots⟩
  rw [numVars_assemble]
  rcases hclause with haccepted | hsame
  · unfold Circuit.assemble at haccepted ⊢
    match hassemble : Assembly.assemble c.numVars (sigmoidOf c.numVars) clause c.registry with
    | .ok root reg =>
      obtain ⟨_, _, _, _, hcompletes⟩ := Assembly.read_of_assemble h.reachable.sound hassemble
      exact hcompletes.extends_start.closedFrom h.closed hcompletes.closed
    | .error e reg =>
      rw [hassemble] at haccepted
      cases haccepted
  · rw [hsame]
    exact h.closed

variable {R : Type} [Scalar R]

/-! ### What keeps the values of the inputs -/

theorem Sealed.grounded_costAt (h : c.Sealed) (values : Tensor R) :
    Keeps (Signals.Grounded c.net c.numVars) (c.costAt values) := by
  rcases vector?_cases c values with ⟨e, he⟩ | ⟨ys, hys, rfl, -⟩
  · intro s hs
    rw [costAt_of_refused he]
    exact hs
  · exact keeps_of_returns fun s hs => h.costAt_returns hys hs

theorem Sealed.grounded_clauseValues (h : c.Sealed) (values : Tensor R) :
    Keeps (Signals.Grounded c.net c.numVars) (c.clauseValues values) := by
  rcases vector?_cases c values with ⟨e, he⟩ | ⟨ys, hys, rfl, -⟩
  · intro s hs
    rw [clauseValues_of_refused he]
    exact hs
  · exact keeps_of_returns fun s hs => h.clauseValues_returns hys hs

theorem Sealed.keeps_reset (h : c.Sealed) :
    Keeps (Signals.Grounded c.net c.numVars) (c.reset : CircuitM R Unit) := fun _ hs => h.grounded_reset hs

theorem Sealed.grounded_gradient (h : c.Sealed) :
    Keeps (Signals.Grounded c.net c.numVars) (c.gradient : CircuitM R (List R)) :=
  keeps_of_returns fun _ hs => h.gradient_returns hs

end Circuit

namespace Circuit

variable {R : Type} [Numeric R] {c : Circuit}

/-- An assignment of the right length is judged. -/
theorem Sealed.satisfiedBy_returns (h : c.Sealed) {s : Signals R} {bits : List Bool}
    (hbits : bits.length = c.numVars) (hs : s.Grounded c.net c.numVars) :
    ∃ satisfied s', c.satisfiedBy (.vector bits) s = .ok satisfied s' ∧ s'.Grounded c.net c.numVars := by
  obtain ⟨truths, s', hok, hs'⟩ := h.clauseValues_returns ((length_certain bits).trans hbits) hs
  exact ⟨truths.all (· == 1), s', satisfiedBy_of_clauseValues hok, hs'⟩

theorem Sealed.grounded_satisfiedBy (h : c.Sealed) (assignment : Tensor Bool) :
    Keeps (Signals.Grounded c.net c.numVars) (c.satisfiedBy assignment : CircuitM R Bool) :=
  (h.grounded_clauseValues _).bind fun _ => keeps_pure _

theorem Sealed.grounded_costAndGradient (h : c.Sealed) (values : Tensor R) :
    Keeps (Signals.Grounded c.net c.numVars) (c.costAndGradient values) :=
  h.keeps_reset.bind fun _ => (h.grounded_costAt values).bind fun _ =>
    h.grounded_gradient.bind fun _ => keeps_pure _

theorem Sealed.grounded_centralDifference (h : c.Sealed) (xs : List R) (eps : R) (i : Nat) :
    Keeps (Signals.Grounded c.net c.numVars) (c.centralDifference xs eps i) :=
  (h.grounded_costAt _).bind fun _ => h.keeps_reset.bind fun _ =>
    (h.grounded_costAt _).bind fun _ => h.keeps_reset.bind fun _ => still_quotient _ _ _

theorem Sealed.grounded_differenceGradient (h : c.Sealed) (values : Tensor R) (eps : R) :
    Keeps (Signals.Grounded c.net c.numVars) (c.differenceGradient values eps) := by
  have hthrow : ∀ e : Refusal, Keeps (Signals.Grounded c.net c.numVars)
      (c.reset >>= fun _ => (throw e : CircuitM R (List R))) := fun e => h.keeps_reset.bind fun _ => keeps_throw e
  unfold differenceGradient
  match values.shape with
  | .error e => exact keeps_throw _
  | .ok shape =>
    simp only
    split
    · exact h.keeps_reset.bind fun _ => keeps_pure []
    · split
      · exact hthrow .noPlaces
      · match c.vector? values with
        | .error e => exact hthrow e
        | .ok xs => exact h.keeps_reset.bind fun _ => keeps_mapM fun i _ => h.grounded_centralDifference xs eps i

end Circuit

/-! ### Sessions -/

section Calls

variable {R : Type} [Numeric R]

/-- The calls without arguments, and those with one value for each of `n` variables. -/
inductive Call.Fitting (n : Nat) : Call R → Prop
  | forward {xs : List R} : xs.length = n → Fitting n (.forward (.vector xs))
  | backward : Fitting n .backward
  | reset : Fitting n .reset
  | clauseTruths {xs : List R} : xs.length = n → Fitting n (.clauseTruths (.vector xs))
  | satisfied {bits : List Bool} : bits.length = n → Fitting n (.satisfied (.vector bits))

namespace Session

variable {c : Circuit} {t : Session R}

/-- Each of the calls returns or leaves no node behind, so no clause is left half assembled. -/
def Tidy (t : Session R) : List (Call R) → Prop
  | [] => True
  | call :: calls =>
    ((t.call call).1 = true ∨ (t.call call).2.circuit.net = t.circuit.net) ∧ (t.call call).2.Tidy calls

/-- Nothing waits in the circuit, and its inputs hold values. -/
structure Steady (t : Session R) : Prop where
  closed : t.circuit.Sealed
  grounded : t.signals.Grounded t.circuit.net t.circuit.numVars

theorem steady_start (h : c.Sealed) : (start c : Session R).Steady := ⟨h, h.grounded_signals⟩

/-- The inputs of a circuit that has grown hold their values still. -/
theorem grounded_extend {s : Signals R} {reg : Registry} (h : c.registry.Extends reg) (hc : c.net.Sound c.numVars)
    (hs : s.Grounded c.net c.numVars) : (s.extend reg.net).Grounded reg.net c.numVars := by
  have hle : c.net.size ≤ reg.net.size := h.size_le
  have hsize := hs.size
  refine ⟨Signals.size_extend (hsize ▸ hle), fun k hk => ?_⟩
  have hvars := hc.le_size
  have hlt : k < s.cells.size := by omega
  rw [Signals.cell_extend _ hlt]
  exact hs.held k hk

theorem steady_finish {α : Type} {x : CircuitM R α} {s : Signals R} (h : c.Sealed)
    (hx : Keeps (Signals.Grounded c.net c.numVars) x) (hs : s.Grounded c.net c.numVars) :
    (finish c (x s)).2.Steady := by
  refine ⟨?_, ?_⟩
  · rw [circuit_finish]
    exact h
  · rw [circuit_finish]
    exact keeps_finish hx hs

/-- A call leaves a session steady, whether it returns or not, unless it is a clause that leaves nodes behind. -/
theorem Steady.call (h : t.Steady) {call : Call R} (hcall : (t.call call).1 = true ∨
    (t.call call).2.circuit.net = t.circuit.net) : (t.call call).2.Steady := by
  cases call with
  | forward values => exact steady_finish h.closed (h.closed.grounded_costAt values) h.grounded
  | backward => exact steady_finish h.closed h.closed.grounded_gradient h.grounded
  | reset => exact steady_finish h.closed h.closed.keeps_reset h.grounded
  | clauseTruths values => exact steady_finish h.closed (h.closed.grounded_clauseValues values) h.grounded
  | satisfied bits => exact steady_finish h.closed (h.closed.grounded_satisfiedBy bits) h.grounded
  | costAndGradient values =>
    exact steady_finish h.closed (h.closed.grounded_costAndGradient values) h.grounded
  | differenceGradient values eps =>
    exact steady_finish h.closed (h.closed.grounded_differenceGradient values eps) h.grounded
  | build clause =>
    obtain ⟨-, hextends⟩ := h.closed.wired.assemble clause
    refine ⟨h.closed.assemble hcall, ?_⟩
    have hgrounded := grounded_extend hextends h.closed.net_closed.sound h.grounded
    rw [← t.circuit.numVars_assemble clause] at hgrounded
    exact hgrounded

theorem Steady.after (h : t.Steady) {calls : List (Call R)} (hcalls : t.Tidy calls) : (t.after calls).Steady := by
  induction calls generalizing t with
  | nil => exact h
  | cons call calls ih => exact ih (h.call hcalls.1) hcalls.2

omit [Numeric R] in
theorem returns_finish {α : Type} {I : Signals R → Prop} {x : CircuitM R α} {s : Signals R}
    (hx : ∃ a s', x s = .ok a s' ∧ I s') : (finish c (x s)).1 = true := by
  obtain ⟨a, s', hok, -⟩ := hx
  rw [hok]
  rfl

/-- In a steady session a call that fits returns. -/
theorem Steady.returns (h : t.Steady) {call : Call R} (hcall : call.Fitting t.circuit.numVars) :
    (t.call call).1 = true := by
  cases hcall with
  | forward hxs => exact returns_finish (h.closed.costAt_returns hxs h.grounded)
  | backward => exact returns_finish (h.closed.gradient_returns h.grounded)
  | reset => rfl
  | clauseTruths hxs => exact returns_finish (h.closed.clauseValues_returns hxs h.grounded)
  | satisfied hbits => exact returns_finish (h.closed.satisfiedBy_returns hbits h.grounded)

/-- After any calls on an accepted circuit, a further clause gets its root or is itself to blame.  If the calls left
no clause half assembled, every call that fits returns. -/
theorem refusals_after {p : Program} (hc : Circuit.ofProgram p = .ok c) (calls : List (Call R)) :
    (∀ clause : String,
      (∃ root a further, ((start c).after calls).circuit.assemble clause = (.ok root, further) ∧
        further.net.gate root = .cost a) ∨
      ∃ e further, ((start c).after calls).circuit.assemble clause = (.error (.clause e), further) ∧
        e.Blames c.numVars clause.toList) ∧
    ((start c).Tidy calls → ∀ call : Call R, call.Fitting c.numVars →
      (((start c).after calls).call call).1 = true) := by
  obtain ⟨hcomplete, -⟩ := Circuit.complete_of_ofProgram hc
  have hnumVars : ((start c : Session R).after calls).circuit.numVars = c.numVars := numVars_after _ calls
  have hready := (ready_start (R := R) hcomplete.wired).after calls
  refine ⟨fun clause => ?_, fun htidy call hcall => ?_⟩
  · rcases Circuit.assemble_cases hready.wired.reachable clause with
      ⟨root, a, hok, hroot⟩ | ⟨e, herror, hblames⟩
    · exact .inl ⟨root, a, _, Prod.ext hok rfl, hroot⟩
    · exact .inr ⟨e, _, Prod.ext herror rfl, hnumVars ▸ hblames⟩
  · exact ((steady_start hcomplete.sealed).after htidy).returns (hnumVars.symm ▸ hcall)

/-- After a further clause, a rejected one that leaves nothing behind and a cost that was never reset, the next
clause is rejected for a variable and the gradient is pulled. -/
theorem refusals_after_further_clause : ∃ (c : Circuit) (t : Session Extended) (e : ClauseError)
    (further : Circuit), Circuit.ofProgram ⟨1, ["$0"]⟩ = .ok c ∧
      t = (start c).after [.build "~($0)", .build "$0 $0", .forward (.vector [.finite 2])] ∧
      (start c : Session Extended).Tidy [.build "~($0)", .build "$0 $0", .forward (.vector [.finite 2])] ∧
      t.circuit.assemble "~$1" = (.error (.clause e), further) ∧ e.Blames 1 "~$1".toList ∧
      (t.call .backward).1 = true := by
  have htidy : (start Circuit.atom : Session Extended).Tidy
      [.build "~($0)", .build "$0 $0", .forward (.vector [.finite 2])] :=
    ⟨.inl (by decide +kernel), .inr (by decide +kernel), .inr (congrArg Circuit.net (circuit_finish _)), trivial⟩
  obtain ⟨hclauses, hreturns⟩ := refusals_after Circuit.ofProgram_atom
    [.build "~($0)", .build "$0 $0", .forward (.vector [Extended.finite 2])]
  rcases hclauses "~$1" with ⟨root, a, further, hok, -⟩ | ⟨e, further, herror, hblames⟩
  · -- the cost does not matter to the circuit, and without it the clause can be assembled by computation
    have hcircuit : ((start Circuit.atom).after [.build "~($0)", .build "$0 $0",
        .forward (.vector [Extended.finite 2])]).circuit =
        ((start Circuit.atom : Session Extended).after [.build "~($0)", .build "$0 $0"]).circuit := circuit_finish _
    have hrejected : (((start Circuit.atom : Session Extended).after
        [.build "~($0)", .build "$0 $0"]).circuit.assemble "~$1").1.isOk = false := by decide +kernel
    rw [← hcircuit, hok] at hrejected
    cases hrejected
  · exact ⟨_, _, e, further, Circuit.ofProgram_atom, rfl, htidy, herror, hblames, hreturns htidy _ .backward⟩

/-- Zero written with 4301 digits names a variable that is declared, and still the clause is rejected. -/
theorem refusal_of_long_index : Circuit.ofProgram ⟨1, ["$0"]⟩ = .ok Circuit.atom ∧
    Text.ofDigits (List.replicate 4301 '0') = 0 ∧
    Circuit.atom.assemble (.ofList ('$' :: List.replicate 4301 '0')) =
      (.error (.clause (.longIndex 4301)), Circuit.atom) := by
  have hlength : (List.replicate 4301 '0').length = 4301 := List.length_replicate
  have hdigits : ∀ d ∈ List.replicate 4301 '0', d.isDigit = true := fun d hd => by
    rw [List.eq_of_mem_replicate hd]
    rfl
  have hscan := Token.scan_of_maxDigits_lt hdigits (by rw [hlength]; decide) Circuit.atom.numVars
  rw [hlength] at hscan
  exact ⟨Circuit.ofProgram_atom, Text.ofDigits_zeros 4301, Circuit.assemble_of_scan_error hscan⟩

end Session

end Calls

end SoftLogic
