import SoftLogic.CommandLine.Run
import SoftLogic.Proofs.Circuit.Construction
import SoftLogic.Proofs.Clause.Places
import SoftLogic.Proofs.Effect
import SoftLogic.Proofs.Text.OneLine

/-!
# Failures of commands

A command may fail in many ways, and not all of them would be caught.  Those that a command can meet before it prints
are: `CommandError.Reported`.  Each of them is reported on one line, whatever the input has in it, since a text of the
input only comes into a message between quotes.
-/

namespace SoftLogic

open Effect Text

/-! ### Failures that are caught -/

/-- A fault of wiring, or of an operation that the kind of node never supports. -/
def Fault.isCaught (f : Fault) : Bool := f.category == .wiring || f.category == .illegal

/-- A failure that a command reports.  Any other one would break the command off. -/
def CommandError.isCaught : CommandError → Bool
  | .circuit (.notInteger _) | .settings (.blank _) => false
  | .circuit (.assembly (.register (.wiring f))) | .solve (.refused (.fault f)) | .fault f => f.isCaught
  | .solve (.refused .noPlaces) | .solve (.refused .zeroStep) => false
  | .file _ | .circuit _ | .settings _ | .solve _ => true

/-- The failure is reported, on one line. -/
structure CommandError.Reported (e : CommandError) : Prop where
  isCaught : e.isCaught = true
  oneLine : OneLine e.message

/-! ### Files -/

namespace Files

variable {files : Files} {name : String} {e : FileError}

theorem reported_of_ne_other (h : ∀ reason, e ≠ .other reason) : (CommandError.file e).Reported := by
  refine ⟨rfl, ?_⟩
  show OneLine e.message
  cases e with
  | other reason => exact absurd rfl (h reason)
  | nullByte => decide
  | missing name | directory name | notDirectory name | tooLong name =>
    unfold FileError.message
    simp only [oneLine_append, oneLine_toString, oneLine_quoted, and_true]
    exact oneLine_literal rfl

theorem follow_ne_other (place : Place) (part reason : String) :
    follow files name place part ≠ .error (.other reason) := by
  unfold follow lookUp
  dsimp only
  repeat' split
  all_goals simp

/-- A file that is not read is not read for one of the reasons that are told apart. -/
theorem reported_of_read (h : files.read name = .error e) : (CommandError.file e).Reported := by
  refine reported_of_ne_other fun reason => ?_
  rintro rfl
  unfold read at h
  dsimp only at h
  split at h
  · cases h
  · split at h
    · cases h
    · split at h
      · next hfollow =>
        cases h
        obtain ⟨part, -, place, hround⟩ := of_foldlM_error hfollow
        exact follow_ne_other place part reason hround
      · cases h
      · cases h

end Files

/-! ### Wiring -/

theorem Connective.isBoundary_symbol (op : Connective) : isBoundary op.symbol = false := by
  cases op <;> rfl

theorem Gate.isBoundary_symbol (g : Gate) : isBoundary g.symbol = false := by
  cases g with
  | binary op a b => exact op.isBoundary_symbol
  | plain | input | sigmoid _ | not _ | cost _ => rfl

theorem Fault.OfWiring.reported {f : Fault} (h : f.OfWiring) : (CommandError.fault f).Reported := by
  refine ⟨by cases h <;> rfl, ?_⟩
  show OneLine f.message
  cases h with
  | alreadyFeeds | feedsNothing | takesNoInput | operandTaken | operandsTaken =>
    unfold message
    simp only [oneLine_append, oneLine_toString, oneLine_int, oneLine_char, Gate.isBoundary_symbol,
      Connective.isBoundary_symbol, and_true]
    and_intros <;> exact oneLine_literal rfl

/-! ### Clauses -/

/-- The clause is rejected with an error that is reported. -/
def AssemblyError.Reported (e : AssemblyError) : Prop := (CommandError.circuit (.assembly e)).Reported

theorem RegisterError.reported_duplicate (id : Int) : AssemblyError.Reported (.register (.duplicate id)) := by
  refine ⟨rfl, ?_⟩
  show OneLine (message _)
  unfold message
  simp only [oneLine_append, oneLine_toString, oneLine_int, and_true]
  and_intros <;> exact oneLine_literal rfl

theorem RegisterError.reported_wiring {f : Fault} (h : f.OfWiring) : AssemblyError.Reported (.register (.wiring f)) :=
  ⟨h.reported.isCaught, h.reported.oneLine⟩

/-- The gate that a flaw names, if it names one, is named by the tag of a kind. -/
def Flaw.Named : Flaw → Prop
  | .noOperand symbol => ∃ gate : Gate, gate.symbol = symbol
  | _ => True

theorem Flaw.Named.oneLine_message {flaw : Flaw} (h : flaw.Named) : OneLine flaw.message := by
  cases flaw with
  | noLeftOperand op =>
    unfold message
    simp only [oneLine_append, oneLine_toString, oneLine_char, op.isBoundary_symbol, and_true]
    and_intros <;> exact oneLine_literal rfl
  | noOperand symbol =>
    obtain ⟨gate, rfl⟩ := h
    unfold message
    simp only [oneLine_append, oneLine_toString, oneLine_char, gate.isBoundary_symbol, and_true]
    and_intros <;> exact oneLine_literal rfl
  | unconnected count =>
    unfold message
    simp only [oneLine_append, oneLine_toString, oneLine_nat, and_true]
    and_intros <;> exact oneLine_literal rfl
  | bareSign | unmatchedClose | unclosedOpen | noOperands =>
    unfold message
    exact oneLine_literal rfl

theorem Flaw.Named.reported {flaw : Flaw} (h : flaw.Named) (column : Option Nat) (clause : String) :
    AssemblyError.Reported (.clause (.malformed flaw column clause)) := by
  refine ⟨rfl, ?_⟩
  show OneLine (ClauseError.message _)
  cases column with
  | some _ | none =>
    unfold ClauseError.message
    simp only [oneLine_append, oneLine_toString, oneLine_nat, oneLine_quoted, h.oneLine_message, and_true, true_and]
    and_intros <;> exact oneLine_literal rfl

theorem Token.reported_of_scan {clause : String} {declared : Int} {e : ClauseError}
    (h : scan clause declared = .error e) : AssemblyError.Reported (.clause e) := by
  rcases scanFrom_cases clause declared 0 clause.toList with ⟨tokens, hok, -⟩ | ⟨e', i, herror, hoffence⟩
  · cases hok.symm.trans h
  · cases herror.symm.trans h
    cases hoffence.offends with
    | bare _ => exact Flaw.Named.reported (by trivial) _ _
    | long _ =>
      refine ⟨rfl, ?_⟩
      show OneLine (ClauseError.message _)
      unfold ClauseError.message
      simp only [oneLine_append, oneLine_toString, oneLine_nat, and_true]
      and_intros <;> exact oneLine_literal rfl
    | undeclared _ _ _ =>
      refine refusalNaming_all (P := fun e => AssemblyError.Reported (.clause e)) ⟨rfl, ?_⟩ fun e => ⟨rfl, ?_⟩
      · show OneLine (ClauseError.message _)
        unfold ClauseError.message
        simp only [oneLine_append, oneLine_toString, oneLine_nat, oneLine_int, and_true]
        and_intros <;> exact oneLine_literal rfl
      · exact oneLine_writeError e

namespace Assembly

theorem raises_place (gate : Gate) : Raises AssemblyError.Reported (place gate) := by
  refine Raises.adaptExcept ?_
  refine Raises.bind (raises_of_returns fun reg => ⟨_, _, rfl⟩) fun id => raises_get_bind fun reg => ?_
  split
  · exact raises_of_returns fun reg => ⟨_, _, rfl⟩
  · next e hinsert =>
    refine raises_throw ?_
    unfold Registry.insert at hinsert
    split at hinsert
    · cases hinsert
      exact RegisterError.reported_duplicate id
    · split at hinsert
      · cases hinsert
      · next hadd =>
        cases hinsert
        exact RegisterError.reported_wiring (Netlist.ofWiring_add hadd)

theorem raises_wire (r operand : Ref) : Raises AssemblyError.Reported (wire r operand) := by
  refine raises_get_bind fun reg => ?_
  split
  · exact raises_of_returns fun reg => ⟨_, _, rfl⟩
  · next e hwire =>
    refine raises_throw ?_
    unfold Registry.wire at hwire
    split at hwire
    · cases hwire
    · next hadd =>
      cases hwire
      exact RegisterError.reported_wiring (Netlist.ofWiring_addOperand hadd)

theorem raises_reject {α : Type} {flaw : Flaw} (h : flaw.Named) (clause : String) (column : Option Nat) :
    Raises AssemblyError.Reported (reject clause flaw column : AssemblyM α) :=
  raises_throw (h.reported column clause)

theorem raises_collapse (clause : String) (column : Nat) (pending : List Pending) (operands : List Ref) :
    Raises AssemblyError.Reported (collapse clause column pending operands) := by
  induction pending generalizing operands with
  | nil => exact raises_pure _
  | cons p pending ih =>
    cases p with
    | group => exact raises_pure _
    | gate r =>
      cases operands with
      | nil => exact raises_get_bind fun reg => raises_reject (by exact ⟨_, rfl⟩) _ _
      | cons a operands => exact (raises_wire r a).bind fun _ => ih (r :: operands)

theorem raises_step (clause : String) (leaf : Nat → Ref) (s : Stacks) (t : Token) :
    Raises AssemblyError.Reported (step clause leaf s t) := by
  unfold step
  split
  · exact raises_collapse _ _ _ _
  · split
    · exact raises_reject (by trivial) _ _
    · exact (raises_place _).bind fun _ => raises_pure _
  · exact (raises_place _).bind fun _ => raises_pure _
  · exact raises_of_returns fun reg => ⟨_, _, rfl⟩
  · split
    · exact raises_collapse _ _ _ _
    · exact raises_reject (by trivial) _ _

theorem raises_close (clause : String) (s : Stacks) : Raises AssemblyError.Reported (close clause s) := by
  refine (raises_collapse _ _ _ _).bind fun s => ?_
  split
  · exact raises_place _
  · exact raises_reject (by trivial) _ _
  · exact raises_reject (by trivial) _ _
  · exact raises_reject (by trivial) _ _

theorem raises_assemble (declared : Nat) (leaf : Nat → Ref) (clause : String) :
    Raises AssemblyError.Reported (assemble declared leaf clause) := by
  unfold assemble
  split
  · next hscan => exact raises_throw (Token.reported_of_scan hscan)
  · exact (raises_foldlM (fun t _ s => raises_step clause leaf s t) _).bind fun s => raises_close clause s

end Assembly

/-! ### Circuits -/

theorem ProgramError.reported (e : ProgramError) : (CommandError.circuit (.program e)).Reported := by
  refine ⟨rfl, ?_⟩
  show OneLine e.message
  cases e with
  | emptyInput =>
    unfold message
    exact oneLine_literal rfl
  | header line =>
    unfold message
    simp only [oneLine_append, oneLine_toString, oneLine_quoted, and_true]
    exact oneLine_literal rfl

theorem Dimacs.Flaw.oneLine_message (flaw : Flaw) : OneLine flaw.message := by
  cases flaw with
  | headerForm _ | headerCounts _ | negativeCounts _ | notInteger _ | undeclared _ _ =>
    unfold message
    simp only [oneLine_append, oneLine_toString, oneLine_quoted, oneLine_int, oneLine_nat, and_true]
    and_intros <;> exact oneLine_literal rfl
  | duplicateHeader | clauseBeforeHeader | emptyClause | missingHeader | unterminated =>
    unfold message
    exact oneLine_literal rfl

theorem Dimacs.Error.reported (e : Error) : (CommandError.circuit (.dimacs e)).Reported := by
  refine ⟨rfl, ?_⟩
  show OneLine e.message
  obtain ⟨flaw, line⟩ := e
  cases line with
  | none => exact flaw.oneLine_message
  | some line =>
    unfold message
    simp only [oneLine_append, oneLine_toString, oneLine_nat, flaw.oneLine_message, and_true]
    and_intros <;> exact oneLine_literal rfl

namespace Circuit

variable {e : CircuitError}

theorem reported_of_ofProgram {p : Program} (h : ofProgram p = .error e) : (CommandError.circuit e).Reported := by
  unfold ofProgram at h
  split at h
  · cases h
    refine refusalNaming_all (P := fun e => (CommandError.circuit e).Reported) ⟨rfl, ?_⟩ fun e => ⟨rfl, ?_⟩
    · show OneLine (CircuitError.message _)
      unfold CircuitError.message
      simp only [oneLine_append, oneLine_toString, oneLine_int, and_true]
      exact oneLine_literal rfl
    · exact oneLine_writeError e
  · dsimp only at h
    split at h
    · cases h
    · next e' reg hall =>
      cases h
      obtain ⟨reg₀, hplace, -⟩ := placeVariables_ok p.declared.toNat
      exact raises_mapM (fun clause _ => Assembly.raises_assemble _ _ clause) _ _ _
        ((bind_of_ok hplace _).symm.trans hall)

theorem reported_of_ofText {text : String} (h : ofText text = .error e) : (CommandError.circuit e).Reported := by
  unfold ofText at h
  split at h
  · exact reported_of_ofProgram h
  · cases h
    exact ProgramError.reported _

theorem reported_of_ofDimacs {text : String} (h : (ofDimacs text).1 = .error e) :
    (CommandError.circuit e).Reported := by
  unfold ofDimacs at h
  split at h
  · dsimp only at h
    exact reported_of_ofProgram h
  · cases h
    exact Dimacs.Error.reported _

end Circuit

theorem Request.reported_of_parse {dimacs : Bool} {text : String} {e : CircuitError}
    (h : (parse dimacs text).1 = .error e) : (CommandError.circuit e).Reported := by
  unfold parse at h
  split at h
  · exact Circuit.reported_of_ofDimacs h
  · exact Circuit.reported_of_ofText h

/-! ### Settings and starting values -/

theorem SettingsError.reported {e : SettingsError Float} (h : ∀ setting, e ≠ .blank setting) :
    (CommandError.settings e).Reported := by
  have hmethods : OneLine (", ".intercalate Settings.methods) := by decide
  cases e with
  | blank setting => exact absurd rfl (h setting)
  | unwritten e => exact ⟨rfl, oneLine_writeError e⟩
  | optimizer _ | learningRate _ | iterations _ | initScale _ | logEvery _ =>
    refine ⟨rfl, ?_⟩
    show OneLine (message _)
    unfold message
    simp only [oneLine_append, oneLine_toString, oneLine_quoted, oneLine_shortest, oneLine_int, hmethods, and_true]
    and_intros <;> exact oneLine_literal rfl

/-- Starting values that are drawn are refused for their number or their seed only. -/
theorem Solver.reported_of_startValues {c : Circuit} {config : Config Float} {entropy : Nat} {e : SolveError}
    (h : startValues c config entropy none = .error e) : (CommandError.solve e).Reported := by
  unfold startValues seededValues at h
  dsimp only at h
  split_ifs at h <;> cases h
  all_goals
    refine ⟨rfl, ?_⟩
    show OneLine (SolveError.message _)
    unfold SolveError.message
    exact oneLine_literal rfl

end SoftLogic
