import SoftLogic.CommandLine.Console
import SoftLogic.Proofs.Solver.Verdict

/-!
# Runs on the console

A run on the console prints and warns as it goes, and yet it comes to what `Solver.solve` comes to, with the transcript
and the warnings of the outcome behind what was there before: `Console.solve_tells`.  The invariant is that up to any
point the console has been told what there is to tell about the costs so far.  What the arithmetic warns of in between
is left aside, so that all of this holds in any surroundings.
-/

namespace SoftLogic

open Effect

/-! ### Lines -/

theorem foldl_append_eq (init : String) (lines : List String) :
    lines.foldl (· ++ ·) init = init ++ String.join lines := by
  induction lines generalizing init with
  | nil => exact String.append_empty.symm
  | cons line lines ih =>
    unfold String.join
    rw [List.foldl_cons, List.foldl_cons, ih, ih ("" ++ line), String.empty_append, String.append_assoc]

theorem linesText_cons (line : String) (lines : List String) :
    linesText (line :: lines) = line ++ "\n" ++ linesText lines := by
  unfold linesText
  rw [List.map_cons, String.join, List.foldl_cons, foldl_append_eq, String.empty_append]

theorem linesText_append (lines more : List String) :
    linesText (lines ++ more) = linesText lines ++ linesText more := by
  induction lines with
  | nil => exact String.empty_append.symm
  | cons line lines ih =>
    rw [List.cons_append, linesText_cons, linesText_cons, ih]
    exact String.append_assoc.symm

theorem Procedure.progress_append (p : Procedure) (config : Config Float) (costs : List Float) (cost : Float) :
    p.progress config (costs ++ [cost]) = p.progress config costs ++ p.progressLine config (costs.length + 1) cost := by
  simp [progress, List.zipIdx_append]

/-- A further sample is warned of if it is the first one that is not finite. -/
theorem Solver.sampleWarnings_append {R : Type} (samples : List (Sample R)) (sample : Sample R) :
    sampleWarnings (samples ++ [sample]) = sampleWarnings samples ++
      if !samples.any (!·.isFinite) && !sample.isFinite then [.notFinite (samples.length + 1)] else [] := by
  unfold sampleWarnings
  rw [List.findIdx?_append, ← List.findIdx?_isSome]
  cases samples.findIdx? (!·.isFinite) with
  | some k => rfl
  | none => cases hfinite : sample.isFinite <;> simp [hfinite]

/-! ### What the console is told -/

/-- Whether a diagnostic comes from the arithmetic. -/
def Diagnostic.isArithmetic : Diagnostic → Bool
  | .arithmetic _ => true
  | .warning _ | .failure _ => false

/-- The diagnostics that do not come from the arithmetic. -/
def Diagnostic.own (diagnostics : List Diagnostic) : List Diagnostic := diagnostics.filter fun d => !d.isArithmetic

@[simp] theorem Diagnostic.own_append (ds more : List Diagnostic) : own (ds ++ more) = own ds ++ own more :=
  List.filter_append ds more

@[simp] theorem Diagnostic.own_warnings (warnings : List Warning) :
    own (warnings.map .warning) = warnings.map .warning :=
  List.filter_eq_self.mpr (List.forall_mem_map.mpr fun _ _ => rfl)

@[simp] theorem Diagnostic.own_arithmetic (texts : List String) : own (texts.map .arithmetic) = [] :=
  List.filter_eq_nil_iff.mpr (List.forall_mem_map.mpr fun _ _ => by simp [isArithmetic])

namespace Console

variable {world : Surroundings} {config : Config Float} {c : Circuit} {s : Console} {signals signals' : Signals Float}
  {lines more : List String} {warnings : List Warning}

/-- From `s` on the console has been told lines, which it prints if the run is verbose, and it has been warned. -/
structure Told (s : Console) (config : Config Float) (signals : Signals Float) (lines : List String)
    (warnings : List Warning) (s' : Console) : Prop where
  signals_eq : s'.signals = signals
  printed_eq : s'.printed = s.printed ++ (if config.verbose then linesText lines else "")
  own_eq : Diagnostic.own s'.diagnostics = Diagnostic.own s.diagnostics ++ warnings.map .warning

/-- Nothing was told yet. -/
theorem told_start (s : Console) (config : Config Float) : Told s config s.signals [] [] s := by
  refine ⟨rfl, ?_, by simp⟩
  split <;> simp [linesText, String.join]

/-! ### Statements -/

section Accept

variable {ε α : Type} {x : Except ε α}

theorem accept_of_ok {a : α} (h : x = .ok a) (failure : ε → CommandError) (s : Console) :
    accept failure x s = .ok a s := by
  rw [h]
  rfl

theorem accept_of_error {e : ε} (h : x = .error e) (failure : ε → CommandError) (s : Console) :
    accept failure x s = .error (failure e) s := by
  rw [h]
  rfl

theorem attains_accept {a : α} (h : x = .ok a) (failure : ε → CommandError) (P : Console → Prop) :
    Attains P (accept failure x) a P := fun s hs => ⟨s, accept_of_ok h failure s, hs⟩

end Accept

theorem forM_print (lines : List String) (s : Console) :
    lines.forM print s = .ok () { s with printed := s.printed ++ linesText lines } := by
  induction lines generalizing s with
  | nil => exact congrArg (EStateM.Result.ok ()) (by simp [linesText, String.join])
  | cons line lines ih =>
    refine (ih _).trans ?_
    rw [linesText_cons, ← String.append_assoc]

theorem attains_tell (more : List String) : Attains (Told s config signals lines warnings) (tell config more) ()
    (Told s config signals (lines ++ more) warnings) := by
  intro s' hs'
  unfold tell
  obtain ⟨hsignals, hprinted, hown⟩ := hs'
  cases hverbose : config.verbose with
  | false =>
    rw [hverbose] at hprinted
    exact ⟨s', rfl, hsignals, by rw [hprinted, hverbose]; rfl, hown⟩
  | true =>
    rw [hverbose] at hprinted
    refine ⟨_, forM_print more s', hsignals, ?_, hown⟩
    rw [hprinted, hverbose, if_pos rfl, if_pos rfl, linesText_append, String.append_assoc]

theorem attains_warn (w : Warning) :
    Attains (Told s config signals lines warnings) (warn w) () (Told s config signals lines (warnings ++ [w])) := by
  refine attains_modify fun s' hs' => ⟨hs'.signals_eq, hs'.printed_eq, ?_⟩
  rw [List.map_append, ← List.append_assoc, ← hs'.own_eq]
  exact Diagnostic.own_append _ _

/-- What the arithmetic warns of is left aside. -/
theorem attains_onCircuit {α : Type} {x : CircuitM Float α} {a : α} (h : x signals = .ok a signals') :
    Attains (Told s config signals lines warnings) (onCircuit world x) a (Told s config signals' lines warnings) := by
  intro s' hs'
  refine ⟨s'.computed world signals', ?_, rfl, hs'.printed_eq, ?_⟩
  · unfold onCircuit
    rw [hs'.signals_eq, h]
  · rw [← hs'.own_eq]
    show Diagnostic.own (_ ++ _) = _
    rw [Diagnostic.own_append, Diagnostic.own_arithmetic, List.append_nil]

/-! ### Gradient descent -/

theorem attains_descentStep {count : Nat} {warned : Bool} {x next : List Float} {sample : Solver.Sample Float}
    (h : Solver.descentStep c config.learningRate x signals = .ok (sample, next) signals') :
    Attains (Told s config signals lines warnings) (descentStep world c config count warned x)
      (warned || !sample.isFinite, next)
      (Told s config signals' (lines ++ Procedure.descent.progressLine config (count + 1) sample.cost)
        (warnings ++ if !warned && !sample.isFinite then [.notFinite (count + 1)] else [])) := by
  obtain ⟨cost, signals₁, hcost, h⟩ := of_bind_ok h
  obtain ⟨gradient, signals₂, hgradient, h⟩ := of_bind_ok h
  cases h
  refine (attains_onCircuit (Solver.of_onCircuit_ok hcost)).bind
    ((attains_onCircuit (Solver.of_onCircuit_ok hgradient)).bind ?_)
  dsimp only
  cases hwarns : !warned && !(Numeric.isFinite cost && gradient.all Numeric.isFinite) with
  | true =>
    simp only [if_true]
    exact (attains_warn _).bind ((attains_tell _).bind (attains_pure _))
  | false =>
    simp only [if_false, Bool.false_eq_true, List.append_nil]
    exact (attains_tell _).bind (attains_pure _)

/-- What was told and warned of so far is what there is to say about the samples so far. -/
theorem attains_descentSteps (world : Surroundings) (s : Console) (heading : List String) {left : Nat}
    {x x' : List Float} {samples samples' : Array (Solver.Sample Float)}
    (h : Solver.descentSteps c config.learningRate left x samples signals = .ok (x', samples') signals') :
    Attains
      (Told s config signals (heading ++ Procedure.descent.progress config (samples.toList.map Solver.Sample.cost))
        (Solver.sampleWarnings samples.toList))
      (descentSteps world c config left samples.size (samples.toList.any (!·.isFinite)) x) x'
      (Told s config signals' (heading ++ Procedure.descent.progress config (samples'.toList.map Solver.Sample.cost))
        (Solver.sampleWarnings samples'.toList)) := by
  induction left generalizing x samples signals with
  | zero =>
    cases h
    exact attains_pure _
  | succ left ih =>
    obtain ⟨⟨sample, next⟩, signals₁, hstep, h⟩ := of_bind_ok h
    have hrest := ih h
    rw [Array.size_push, Array.toList_push, List.map_append, List.map_singleton, Procedure.progress_append,
      Solver.sampleWarnings_append, List.any_append, List.length_map, ← List.append_assoc] at hrest
    exact (attains_descentStep hstep).bind (by simpa using hrest)

/-- The steps of a run, of which nothing was told yet. -/
theorem attains_descent (s : Console) (heading : List String) {count : Nat} {x x' : List Float}
    {samples : Array (Solver.Sample Float)}
    (h : Solver.descentSteps c config.learningRate count x #[] signals = .ok (x', samples) signals') :
    Attains (Told s config signals heading []) (descentSteps world c config count 0 false x) x'
      (Told s config signals' (heading ++ Procedure.descent.progress config (samples.toList.map Solver.Sample.cost))
        (Solver.sampleWarnings samples.toList)) := by
  have hsteps := attains_descentSteps world s heading h
  rwa [show Procedure.descent.progress config ((#[] : Array (Solver.Sample Float)).toList.map Solver.Sample.cost) = []
    from rfl, List.append_nil] at hsteps

/-! ### Searches -/

theorem attains_runSearch (world : Surroundings) (s : Console) (config : Config Float) (heading : List String)
    (warnings : List Warning)    {search : Search Float} {history : Array Float} {result : Search.Result Float}
    (h : Solver.runSearch c search history signals = .ok result signals') :
    Attains (Told s config signals (heading ++ Procedure.search.progress config history.toList) warnings)
      (runSearch world c config search history.size) (result.x, result.iterations, result.message)
      (Told s config signals' (heading ++ Procedure.search.progress config result.history.toList) warnings) := by
  induction search generalizing history signals with
  | finish x iterations message =>
    cases h
    exact attains_pure _
  | probe x next ih =>
    obtain ⟨cost, signals₁, hcost, h⟩ := of_bind_ok h
    obtain ⟨gradient, signals₂, hgradient, h⟩ := of_bind_ok h
    have hrest := ih cost gradient h
    rw [Array.size_push, Array.toList_push, Procedure.progress_append, ← List.append_assoc] at hrest
    exact (attains_onCircuit (Solver.of_onCircuit_ok hcost)).bind
      ((attains_onCircuit (Solver.of_onCircuit_ok hgradient)).bind ((attains_tell _).bind hrest))

/-- A search of which nothing was told yet. -/
theorem attains_search (s : Console) (config : Config Float) (heading : List String) {search : Search Float}
    {result : Search.Result Float} (h : Solver.runSearch c search #[] signals = .ok result signals') :
    Attains (Told s config signals heading []) (runSearch world c config search 0)
      (result.x, result.iterations, result.message)
      (Told s config signals' (heading ++ Procedure.search.progress config result.history.toList) []) := by
  have hsearch := attains_runSearch world s config heading [] h
  rwa [show Procedure.search.progress config (#[] : Array Float).toList = [] from rfl, List.append_nil] at hsearch

/-! ### Runs -/

/-- A run with an outcome has left the transcript and the warnings behind. -/
structure Finished (s : Console) (config : Config Float) (c : Circuit) (o : Outcome Float) (s' : Console) : Prop where
  printed_eq : s'.printed = s.printed ++ o.transcript c config
  own_eq : Diagnostic.own s'.diagnostics = Diagnostic.own s.diagnostics ++ o.warnings.map .warning

theorem attains_finish (s : Console) (config : Config Float) {procedure : Procedure} {values history : List Float}
    {iterations : Nat} {message : String} {o : Outcome Float}
    (h : Solver.finish c procedure values history iterations message warnings signals = .ok o signals') :
    Attains (Told s config signals (procedure.heading c config ++ procedure.progress config history) warnings)
      (finish world c config values iterations message) o.truths (Finished s config c o) := by
  obtain ⟨cost, signals₁, hcost, h⟩ := of_bind_ok h
  obtain ⟨_, signals₂, hreset, h⟩ := of_bind_ok h
  obtain ⟨satisfied, signals₃, hjudged, h⟩ := of_bind_ok h
  cases h
  refine Attains.imp (Q := Told s config signals' (procedure.heading c config ++ procedure.progress config history ++
    closingLines message iterations cost satisfied) warnings) ?_ fun _ htold => ⟨htold.printed_eq, htold.own_eq⟩
  exact (attains_onCircuit (Solver.of_onCircuit_ok hcost)).bind
    ((attains_onCircuit (Solver.of_onCircuit_ok hreset)).bind
      ((attains_onCircuit (Solver.of_onCircuit_ok hjudged)).bind ((attains_tell _).bind (attains_pure _))))

theorem attains_descend (s : Console) {o : Outcome Float}
    (h : Solver.descend c (some config) none world.entropy s.signals = .ok o signals') :
    Attains (Told s config s.signals [] []) (descend world c config) o.truths (Finished s config c o) := by
  unfold Solver.descend at h
  rw [Option.getD_some] at h
  cases hstart : Solver.startValues c config world.entropy none with
  | error e =>
    rw [hstart] at h
    cases h
  | ok x =>
    rw [hstart] at h
    obtain ⟨⟨x', samples⟩, signals₁, hsteps, hfinish⟩ := of_bind_ok h
    exact (attains_accept hstart _ _).bind ((attains_tell _).bind
      ((attains_descent s (Procedure.descent.heading c config) hsteps).bind (attains_finish s config hfinish)))

theorem attains_minimize (s : Console) {o : Outcome Float}
    (h : Solver.minimize world.search c (some config) none world.entropy s.signals = .ok o signals') :
    Attains (Told s config s.signals [] []) (minimize world c config) o.truths (Finished s config c o) := by
  unfold Solver.minimize at h
  rw [Option.getD_some] at h
  dsimp only at h
  split at h
  · obtain ⟨_, _, hthrow, -⟩ := of_bind_ok h
    cases hthrow
  cases hstart : Solver.startValues c config world.entropy none with
  | error e =>
    rw [hstart] at h
    cases h
  | ok x =>
    rw [hstart] at h
    dsimp only at h
    refine (attains_accept hstart _ _).bind ?_
    by_cases hzero : c.numVars = 0
    · rw [if_pos hzero] at h ⊢
      exact attains_finish s config h
    · rw [if_neg hzero] at h ⊢
      cases hsearchable : Settings.isSearchable config.optimizer with
      | false =>
        rw [hsearchable] at h
        cases h
      | true =>
        rw [hsearchable] at h
        obtain ⟨result, signals₁, hsearch, hfinish⟩ := of_bind_ok h
        exact (attains_tell _).bind
          ((attains_search s config (Procedure.search.heading c config) hsearch).bind (attains_finish s config hfinish))

/-- A run on the console comes to what `Solver.solve` comes to, and leaves the transcript and the warnings behind. -/
theorem solve_tells {o : Outcome Float}
    (h : Solver.solve world.search c (some config) none world.entropy s.signals = .ok o signals') :
    ∃ s', solve world c config s = .ok o.truths s' ∧ Finished s config c o s' := by
  unfold Solver.solve at h
  rw [Option.getD_some] at h
  unfold solve
  cases hdescent : config.isDescent with
  | true =>
    rw [if_pos rfl]
    rw [hdescent, if_pos rfl] at h
    exact attains_descend s h s (told_start s config)
  | false =>
    rw [if_neg Bool.false_ne_true]
    rw [hdescent, if_neg Bool.false_ne_true] at h
    exact attains_minimize s h s (told_start s config)

theorem solve_of_startValues_error {e : SolveError} (h : Solver.startValues c config world.entropy none = .error e)
    (s : Console) : solve world c config s = .error (.solve e) s := by
  unfold solve
  split
  · exact bind_of_error (accept_of_error h _ s) _
  · exact bind_of_error (accept_of_error h _ s) _

end Console

end SoftLogic
