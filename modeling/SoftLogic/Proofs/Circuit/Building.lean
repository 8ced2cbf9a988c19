import SoftLogic.Proofs.Circuit.Refusals
import SoftLogic.Proofs.Circuit.Representation
import SoftLogic.Proofs.Clause.Appending

/-!
# Building beside a circuit

A clause that is built beside the clauses of a circuit, and that may be rejected halfway, leaves the circuit what it was.
Its nodes keep what they carry, and whatever is evaluated at any values has the outcome that it had before, a refusal
included (`Session.build_appends`).  For evaluating goes from the roots to their operands, and these were not touched.
-/

namespace SoftLogic

open Effect

/-! ### Circuits that grow -/

/-- `c'` is `c` with further nodes. -/
structure Circuit.Grows (c c' : Circuit) : Prop where
  registry : c.registry.Appends c'.registry
  numVars : c'.numVars = c.numVars
  roots : c'.roots = c.roots

namespace Circuit

variable {c c' : Circuit}

theorem Wired.grows_assemble (h : c.Wired) (clause : String) : c.Grows (c.assemble clause).2 := by
  refine ⟨?_, c.numVars_assemble clause, c.roots_assemble clause⟩
  rw [registry_assemble]
  exact Assembly.appends_assemble (fun k hk => ⟨k, h.sound.sigmoid k hk⟩) clause

theorem Wired.root_lt_size (h : c.Wired) {r : Ref} (hr : r ∈ c.roots) : r < c.net.size := by
  obtain ⟨a, ha⟩ := h.roots r hr
  exact Netlist.lt_size_of_gate (by rw [ha]; exact Gate.noConfusion)

section Lifts

variable {R : Type} [Scalar R]

theorem Grows.vector? (h : c.Grows c') {S : Type} (values : Tensor S) : c'.vector? values = c.vector? values := by
  unfold Circuit.vector?
  rw [h.numVars]

theorem Grows.lifts_write (h : c.Grows c') (hc : c.Wired) (values : Tensor R) :
    Netlist.Appends.Same c.net c'.net (c.write values) (c'.write values) := by
  have hle := hc.sound.le_size
  unfold write
  rw [h.vector? values, inputs, inputs, h.numVars]
  cases c.vector? values with
  | error e => exact lifts_throw e
  | ok xs =>
    refine lifts_forM fun p hp => (h.registry.net.lifts_hold ?_ p.2).adaptExcept _
    have hmem : p.1 < c.numVars := List.mem_range.mp (List.of_mem_zip hp).1
    have hvars : c.numVars ≤ c.net.size := by omega
    exact Nat.lt_of_lt_of_le hmem hvars

theorem Grows.lifts_totalCost (h : c.Grows c') (hc : c.Wired) (hc' : c'.Wired) :
    Netlist.Appends.Same c.net c'.net (c.totalCost : CircuitM R R) c'.totalCost := by
  unfold totalCost
  rw [h.roots]
  refine lifts_foldlM (fun root hroot total => ?_) 0
  exact ((h.registry.net.lifts_evaluate hc.sound hc'.sound (hc.root_lt_size hroot)).adaptExcept _).bind fun x =>
    lifts_pure (total + x)

theorem Grows.lifts_costAt (h : c.Grows c') (hc : c.Wired) (hc' : c'.Wired) (values : Tensor R) :
    Netlist.Appends.Same c.net c'.net (c.costAt values) (c'.costAt values) :=
  (h.lifts_write hc values).bind fun _ => h.lifts_totalCost hc hc'

theorem Grows.lifts_truths (h : c.Grows c') (hc : c.Wired) (hc' : c'.Wired) :
    Netlist.Appends.Same c.net c'.net (c.roots.mapM fun root => (lift (c.net.truth root) : CircuitM R R))
      (c'.roots.mapM fun root => lift (c'.net.truth root)) := by
  rw [h.roots]
  exact lifts_mapM fun root hroot =>
    (h.registry.net.lifts_truth hc.sound hc'.sound (hc.root_lt_size hroot)).adaptExcept _

/-- The truth values are known before the reset. -/
theorem outcome_clauseValues (c : Circuit) (values : Tensor R) (s : Signals R) :
    outcome (c.clauseValues values s) =
      outcome ((c.write values >>= fun _ => c.roots.mapM fun root => lift (c.net.truth root)) s) := by
  have hreset : ∀ (truths : List R) (s : Signals R), ∃ s', (c.reset >>= fun _ => pure truths) s = .ok truths s' :=
    fun truths s => ⟨_, rfl⟩
  unfold clauseValues
  rw [← bind_assoc, outcome_bind_of_returns (f := id) hreset, Except.map_id]
  rfl

theorem Grows.outcome_clauseValues (h : c.Grows c') (hc : c.Wired) (hc' : c'.Wired) (values : Tensor R) {s : Signals R}
    (hsize : s.cells.size = c.net.size) :
    outcome (c'.clauseValues values (s.extend c'.net)) = outcome (c.clauseValues values s) := by
  rw [Circuit.outcome_clauseValues, Circuit.outcome_clauseValues,
    ((h.lifts_write hc values).bind fun _ => h.lifts_truths hc hc').apply s hsize, outcome_carry]

end Lifts

theorem outcome_satisfiedBy {R : Type} [Numeric R] (c : Circuit) (assignment : Tensor Bool) (s : Signals R) :
    outcome (c.satisfiedBy assignment s) =
      (outcome (c.clauseValues (assignment.map Numeric.certain) s)).map fun truths => truths.all (· == 1) :=
  outcome_bind_of_returns (fun _ s => ⟨s, rfl⟩) s

end Circuit

/-! ### Sessions -/

namespace Session

variable {R : Type} [Numeric R]

/-- In `t'` there are nodes beside those of `t`, and nothing that `t` is asked is answered otherwise. -/
structure Undisturbed (t t' : Session R) : Prop where
  grows : t.circuit.Grows t'.circuit
  /-- What consumes is a node. -/
  consumer : ∀ r, ∀ d ∈ t'.circuit.net.consumers r, d < t'.circuit.net.size
  cells : ∀ r < t.circuit.net.size, t'.signals.cell r = t.signals.cell r
  costAt : ∀ values, outcome (t'.circuit.costAt values t'.signals) = outcome (t.circuit.costAt values t.signals)
  clauseValues : ∀ values,
    outcome (t'.circuit.clauseValues values t'.signals) = outcome (t.circuit.clauseValues values t.signals)
  satisfiedBy : ∀ assignment,
    outcome (t'.circuit.satisfiedBy assignment t'.signals) = outcome (t.circuit.satisfiedBy assignment t.signals)

theorem Ready.undisturbed_build {t : Session R} (h : t.Ready) (clause : String) :
    t.Undisturbed (t.call (.build clause)).2 := by
  have hgrows := h.wired.grows_assemble clause
  have hwired := (h.wired.assemble clause).1
  have hsize := h.fits.size
  have hclauses : ∀ values, outcome ((t.circuit.assemble clause).2.clauseValues values
      (t.signals.extend (t.circuit.assemble clause).2.net)) = outcome (t.circuit.clauseValues values t.signals) :=
    fun values => hgrows.outcome_clauseValues h.wired hwired values hsize
  refine ⟨hgrows, fun r d hd => ?_, fun r hr => Signals.cell_extend _ (hsize ▸ hr), fun values => ?_, hclauses,
    fun assignment => ?_⟩
  · refine Netlist.lt_size_of_gate fun hplain => ?_
    have hmem : r ∈ ((t.circuit.assemble clause).2.net.gate d).operands := hwired.sound.mem_operands_iff.mpr hd
    rw [show (t.circuit.assemble clause).2.net.gate d = .plain from hplain] at hmem
    cases hmem
  · exact (congrArg outcome ((hgrows.lifts_costAt h.wired hwired values).apply _ hsize)).trans (outcome_carry _)
  · rw [Circuit.outcome_satisfiedBy, Circuit.outcome_satisfiedBy]
    exact congrArg _ (hclauses _)

/-- A text whose symbols cannot be told apart changes nothing. -/
theorem Ready.build_of_scan_error {t : Session R} (h : t.Ready) {clause : String} {e : ClauseError}
    (hscan : Token.scan clause t.circuit.numVars = .error e) : (t.call (.build clause)).2 = t := by
  have hassemble : t.circuit.assemble clause = (.error (.clause e), t.circuit) := Circuit.assemble_of_scan_error hscan
  have hextend : t.signals.extend t.circuit.net = t.signals := by
    have hsize := h.fits.size
    have hsize' := Signals.size_extend (Nat.le_of_eq hsize)
    refine Signals.ext_cell (hsize'.trans hsize.symm) fun r hr => Signals.cell_extend _ ?_
    rwa [hsize, ← hsize']
  show Session.mk (t.circuit.assemble clause).2 (t.signals.extend (t.circuit.assemble clause).2.net) = t
  rw [hassemble, hextend]

/-- After any calls on an accepted circuit, building a clause appends to the circuit and does not disturb it, whether the
clause is accepted or not.  A clause that cannot be scanned changes nothing at all, and one that the grammar derives is
laid in the order of its text. -/
theorem build_appends {p : Program} {c : Circuit} (hc : Circuit.ofProgram p = .ok c) (calls : List (Call R))
    (clause : String) :
    ((start c).after calls).Undisturbed (((start c).after calls).call (.build clause)).2 ∧
    (∀ e, Token.scan clause c.numVars = .error e →
      (((start c).after calls).call (.build clause)).2 = (start c).after calls) ∧
    ∀ e : Expression, e.Derives c.numVars clause → ∃ root,
      (((start c).after calls).circuit.assemble clause).1 = .ok root ∧
      e.Laid c.numVars ((start c).after calls).circuit.registry
        (((start c).after calls).call (.build clause)).2.circuit.registry root := by
  have hready : ((start c).after calls).Ready := (ready_start (Circuit.complete_of_ofProgram hc).1.wired).after calls
  have hvars : ((start c).after calls).circuit.numVars = c.numVars := numVars_after (start c) calls
  refine ⟨hready.undisturbed_build clause, fun e hscan => hready.build_of_scan_error (hvars ▸ hscan), fun e he => ?_⟩
  obtain ⟨root, reg', hok, hlaid⟩ := he.laid (hvars ▸ hready.wired.reachable.sound)
  refine ⟨root, ?_, ?_⟩
  · unfold Circuit.assemble
    rw [hvars, hok]
  · show e.Laid _ _ (((start c).after calls).circuit.assemble clause).2.registry root
    rw [Circuit.registry_assemble, hvars, hok]
    exact hlaid

/-- After `$0 ^` was rejected halfway and a cost was evaluated, `$0 ^ (~$0)` is built beside the clause `$0`. -/
theorem build_appends_after_rejection : ∃ (c : Circuit) (t t' : Session Extended) (root : Ref) (e : Expression),
    Circuit.ofProgram ⟨1, ["$0"]⟩ = .ok c ∧
      t = (start c).after [.build "$0 ^", .forward (.vector [.finite 0])] ∧
      t' = (t.call (.build "$0 ^ (~$0)")).2 ∧ t.Undisturbed t' ∧
      e.symbols = [.variable 0, .connective .and, .openGroup, .not, .variable 0, .closeGroup] ∧
      e.Laid 1 t.circuit.registry t'.circuit.registry root := by
  obtain ⟨hundisturbed, -, hlaid⟩ := build_appends (R := Extended) Circuit.ofProgram_atom
    [.build "$0 ^", .forward (.vector [.finite 0])] "$0 ^ (~$0)"
  have hderives : Expression.Derives (.chain (.operand (.var 0)) .and (.group (.operand (.not (.var 0))))) 1
      "$0 ^ (~$0)" :=
    ⟨[⟨.variable 0, 0⟩, ⟨.connective .and, 3⟩, ⟨.openGroup, 5⟩, ⟨.not, 6⟩, ⟨.variable 0, 7⟩, ⟨.closeGroup, 9⟩],
      by decide, rfl⟩
  obtain ⟨root, -, hlaid⟩ := hlaid _ hderives
  exact ⟨_, _, _, root, _, Circuit.ofProgram_atom, rfl, rfl, hundisturbed, rfl, hlaid⟩

end Session

end SoftLogic
