import SoftLogic.Proofs.Circuit.RoundTrip
import SoftLogic.Proofs.Circuit.Statistics
import SoftLogic.Proofs.CommandLine.Console
import SoftLogic.Proofs.CommandLine.Messages
import SoftLogic.Proofs.Solver.Config

/-!
# All or nothing

A command that does not come as far as a search prints all that it has to print or nothing at all, and on the error
channel there is nothing but warnings and, if it fails, one line at the end (`Reply.ofCommandLine_cases`).  Whatever can
fail fails before the first line is printed: the input is read, the circuit is made, the settings are checked and the
starting values are drawn first, and from there on a circuit that was made refuses nothing.  The one thing that is not
reported is a setting that was left blank: it breaks the command off (`Reply.ofCommandLine_of_breaksOff`).
-/

namespace SoftLogic

open Effect Text

/-- A run that is not verbose has no transcript. -/
theorem Outcome.transcript_of_quiet {o : Outcome Float} {c : Circuit} {config : Config Float}
    (h : config.verbose = false) : o.transcript c config = "" := by
  unfold transcript
  rw [h, if_neg Bool.false_ne_true]

/-- There is a summary of every complete circuit. -/
theorem Circuit.Complete.summary_ok {c : Circuit} {lines : List String} (h : c.Complete lines) (detailed : Bool) :
    ∃ summary, c.summary detailed = .ok summary := by
  obtain ⟨formulas, hformulas⟩ := h.exists_formulas
  have hdepth := h.maxDepth_ok hformulas (.refl _)
  unfold summary statistics
  rw [hdepth]
  simp only [bind, Except.bind, pure, Except.pure]
  split <;> exact ⟨_, rfl⟩

/-! ### What a complete output is -/

namespace Request

/-- Whether a request takes its input for a DIMACS document. -/
def readsDimacs : Request → Bool
  | .solve _ dimacs _ | .stats _ dimacs _ => dimacs
  | .convert _ => true

/-- What reading the input warns of. -/
def inputWarnings (dimacs : Bool) : Except FileError String → List Warning
  | .ok text => (parse dimacs text).2
  | .error _ => []

/-- The output of a request on a text is complete, and there are only warnings on the error channel.  The output of
`solve` has the transcript, which is empty unless the run is verbose, and a line for each variable in order; its
warnings are those of the document and those of the run, apart from what the arithmetic warns of.  The output of
`convert` is read as the circuit of the document.  That of `stats` is the summary of the circuit. -/
def Outputs (world : Surroundings) (text out : String) (err : List Diagnostic) : Request → Prop
  | .solve _ dimacs settings => ∃ c config o s,
      (parse dimacs text).1 = .ok c ∧ settings.check = .ok config ∧
      Solver.solve world.search c (some config) none world.entropy c.signals = .ok o s ∧
      o.truths.length = c.numVars ∧ out = o.transcript c config ++ linesText (truthLines o.truths) ∧
      (settings.verbose = false → lines out.toList = (truthLines o.truths).map String.toList) ∧
      Diagnostic.own err = ((parse dimacs text).2 ++ o.warnings).map .warning
  | .convert _ => ∃ c, (Circuit.ofDimacs text).1 = .ok c ∧ Circuit.ofText out = .ok c ∧
      err = (Circuit.ofDimacs text).2.map .warning
  | .stats _ dimacs detailed => ∃ c summary,
      (parse dimacs text).1 = .ok c ∧ c.summary detailed = .ok summary ∧ out = summary ++ "\n" ∧
      err = (parse dimacs text).2.map .warning

/-- The request comes as far as a search: nothing fails before, and there is something to search for. -/
def Searches (world : Surroundings) (input : Except FileError String) : Request → Prop
  | .solve _ dimacs settings => ∃ text c config xs,
      input = .ok text ∧ (parse dimacs text).1 = .ok c ∧ settings.check = .ok config ∧ config.isDescent = false ∧
      Solver.startValues c config world.entropy none = .ok xs ∧ c.numVars ≠ 0
  | _ => False

/-- Gradient descent is no search. -/
theorem not_searches_of_descent {settings : Settings Float} (h : settings.optimizer = some Settings.descent)
    (name : String) (dimacs : Bool) (world : Surroundings) (input : Except FileError String) :
    ¬(solve name dimacs settings).Searches world input := by
  rintro ⟨_, _, config, _, _, _, hcheck, hdescent, _⟩
  have hoptimizer : some config.optimizer = some Settings.descent :=
    (congrArg Settings.optimizer (Settings.of_check_ok hcheck)).trans h
  unfold Config.isDescent at hdescent
  rw [Option.some.inj hoptimizer, beq_self_eq_true] at hdescent
  cases hdescent

/-- The circuit of the input is made, and the first setting that is not accepted was left blank. -/
def BreaksOff (input : Except FileError String) (setting : Setting) : Request → Prop
  | .solve _ dimacs settings =>
      (∃ text c, input = .ok text ∧ (parse dimacs text).1 = .ok c) ∧ settings.check = .error (.blank setting)
  | _ => False

/-- Only a value that was left blank breaks a request off. -/
theorem not_breaksOff {settings : Settings Float} {setting : Setting} (h : ¬settings.LeavesBlank setting)
    (name : String) (dimacs : Bool) (input : Except FileError String) :
    ¬(solve name dimacs settings).BreaksOff input setting :=
  fun hbreaks => h (Settings.leavesBlank_of_check hbreaks.2)

/-- How a request ends that prints all or nothing. -/
inductive Ends (world : Surroundings) (input : Except FileError String) (request : Request) :
    EStateM.Result CommandError Console Unit → Prop
  | completed {text : String} {s : Console} : input = .ok text → request.Outputs world text s.printed s.diagnostics →
    Ends world input request (.ok () s)
  | failed {e : CommandError} {s : Console} : e.Reported → s.printed = "" →
    s.diagnostics = (inputWarnings request.readsDimacs input).map .warning → Ends world input request (.error e s)
  | brokenOff {setting : Setting} {s : Console} : request.BreaksOff input setting →
    Ends world input request (.error (.settings (.blank setting)) s)

/-! ### Loading -/

variable {world : Surroundings} {request : Request} {dimacs : Bool} {text out : String} {c : Circuit} {cnf : Cnf}
  {input : Except FileError String} {s : Console}

theorem forM_warn (warnings : List Warning) (s : Console) :
    warnings.forM Console.warn s = .ok () { s with diagnostics := s.diagnostics ++ warnings.map .warning } := by
  induction warnings generalizing s with
  | nil => exact congrArg (EStateM.Result.ok ()) (by simp)
  | cons w warnings ih =>
    refine (ih _).trans ?_
    rw [List.append_assoc]
    rfl

theorem complete_of_parse (h : (parse dimacs text).1 = .ok c) : ∃ lines, c.Complete lines := by
  have hprogram : ∃ p, Circuit.ofProgram p = .ok c := by
    unfold parse at h
    split at h
    · unfold Circuit.ofDimacs at h
      split at h
      · dsimp only at h
        exact ⟨_, h⟩
      · cases h
    · dsimp only at h
      unfold Circuit.ofText at h
      split at h
      · exact ⟨_, h⟩
      · cases h
  obtain ⟨p, hp⟩ := hprogram
  exact ⟨_, (Circuit.complete_of_ofProgram hp).1⟩

theorem load_of_parse_error {e : CircuitError} (h : (parse dimacs text).1 = .error e) (s : Console) :
    load dimacs (.ok text) s =
      .error (.circuit e) { s with diagnostics := s.diagnostics ++ (parse dimacs text).2.map .warning } :=
  (bind_of_ok (forM_warn _ s) _).trans (bind_of_error (Console.accept_of_error h _ _) _)

theorem load_of_parse_ok (h : (parse dimacs text).1 = .ok c) (s : Console) :
    load dimacs (.ok text) s =
      .ok c { s with signals := c.signals, diagnostics := s.diagnostics ++ (parse dimacs text).2.map .warning } :=
  (bind_of_ok (forM_warn _ s) _).trans (bind_of_ok (Console.accept_of_ok h _ _) _)

/-- Loading prints nothing.  It gives the circuit of the text, or a failure that is reported. -/
theorem load_cases (hinput : ∀ e, input = .error e → (CommandError.file e).Reported) (dimacs : Bool) :
    (∃ text c, input = .ok text ∧ (parse dimacs text).1 = .ok c ∧
      load dimacs input .start = .ok c ⟨c.signals, 0, "", (parse dimacs text).2.map .warning⟩) ∨
    ∃ e s, load dimacs input .start = .error e s ∧ e.Reported ∧ s.printed = "" ∧
      s.diagnostics = (inputWarnings dimacs input).map .warning := by
  cases input with
  | error e => exact .inr ⟨_, .start, rfl, hinput e rfl, rfl, rfl⟩
  | ok text =>
    cases hparse : (parse dimacs text).1 with
    | error e => exact .inr ⟨_, _, load_of_parse_error hparse .start, reported_of_parse hparse, rfl, rfl⟩
    | ok c => exact .inl ⟨text, c, rfl, hparse, load_of_parse_ok hparse .start⟩

/-! ### The three commands -/

theorem oneLine_of_mem_truthLines {truths : List Float} {line : String} (h : line ∈ truthLines truths) :
    OneLine line := by
  obtain ⟨⟨t, i⟩, -, rfl⟩ := List.mem_map.mp h
  simp only [oneLine_append, oneLine_toString, oneLine_nat, oneLine_fixed, and_true]
  and_intros <;> exact oneLine_literal rfl

theorem toList_linesText (lines : List String) :
    (linesText lines).toList = (lines.map String.toList).flatMap (· ++ ['\n']) := by
  induction lines with
  | nil => rfl
  | cons line lines ih => simp [linesText_cons, ih]

/-- Lines that are printed are the lines of what is printed. -/
theorem lines_linesText {printed : List String} (h : ∀ line ∈ printed, OneLine line) :
    lines (linesText printed).toList = printed.map String.toList := by
  rw [toList_linesText]
  refine lines_flatMap_newline fun line hline => ?_
  obtain ⟨text, htext, rfl⟩ := List.mem_map.mp hline
  exact h text htext

/-- From a circuit and a configuration there is a complete output, unless there is something to search for. -/
theorem outputs_solve {settings : Settings Float} {config : Config Float} {xs : List Float}
    (hparse : (parse dimacs text).1 = .ok c) (hcheck : settings.check = .ok config)
    (hstart : Solver.startValues c config world.entropy none = .ok xs)
    (hnothing : config.isDescent = true ∨ c.numVars = 0) (name : String) :
    ∃ truths s, Console.solve world c config ⟨c.signals, 0, "", (parse dimacs text).2.map .warning⟩ = .ok truths s ∧
      (Request.solve name dimacs settings).Outputs world text (s.printed ++ linesText (truthLines truths))
        s.diagnostics := by
  obtain ⟨circuitLines, hcomplete⟩ := complete_of_parse hparse
  obtain ⟨o, signals, hsolve, hlength⟩ := Solver.solve_returns hcomplete world.search hstart hnothing
  obtain ⟨s, hrun, hprinted, hown⟩ := Console.solve_tells
    (s := ⟨c.signals, 0, "", (parse dimacs text).2.map .warning⟩) hsolve
  rw [String.empty_append] at hprinted
  rw [Diagnostic.own_warnings, ← List.map_append] at hown
  refine ⟨o.truths, s, hrun, c, config, o, signals, hparse, hcheck, hsolve, hlength, by rw [hprinted],
    fun hverbose => ?_, hown⟩
  have hquiet : o.transcript c config = "" :=
    Outcome.transcript_of_quiet ((congrArg Settings.verbose (Settings.of_check_ok hcheck)).trans hverbose)
  rw [hprinted, hquiet, String.empty_append]
  exact lines_linesText fun line => oneLine_of_mem_truthLines

theorem ends_solveInput (hinput : ∀ e, input = .error e → (CommandError.file e).Reported)
    (name : String) (dimacs : Bool) (settings : Settings Float)
    (hsearch : ¬(Request.solve name dimacs settings).Searches world input) :
    Ends world input (.solve name dimacs settings) (solveInput world input dimacs settings .start) := by
  unfold solveInput
  rcases load_cases hinput dimacs with
    ⟨text, c, rfl, hparse, hload⟩ | ⟨e, s, hload, hreported, hprinted, hwarned⟩
  · rw [bind_of_ok hload]
    cases hcheck : settings.check with
    | error e =>
      rw [bind_of_error (Console.accept_of_error rfl _ _)]
      by_cases hblank : ∃ setting, e = .blank setting
      · obtain ⟨setting, rfl⟩ := hblank
        exact .brokenOff ⟨⟨text, c, rfl, hparse⟩, hcheck⟩
      · exact .failed (SettingsError.reported fun setting h => hblank ⟨setting, h⟩) rfl rfl
    | ok config =>
      rw [bind_of_ok (Console.accept_of_ok rfl _ _)]
      cases hstart : Solver.startValues c config world.entropy none with
      | error e =>
        rw [bind_of_error (Console.solve_of_startValues_error hstart _)]
        exact .failed (Solver.reported_of_startValues hstart) rfl rfl
      | ok xs =>
        -- there is nothing to search for, so the run returns
        have hnothing : config.isDescent = true ∨ c.numVars = 0 := by
          by_contra hnot
          obtain ⟨hdescent, hvars⟩ := not_or.mp hnot
          exact hsearch ⟨text, c, config, xs, rfl, hparse, hcheck, Bool.eq_false_iff.mpr hdescent, hstart, hvars⟩
        obtain ⟨truths, s, hrun, houtputs⟩ := outputs_solve hparse hcheck hstart hnothing name
        rw [bind_of_ok hrun, Console.forM_print]
        exact .completed rfl houtputs
  · rw [bind_of_error hload]
    exact .failed hreported hprinted hwarned

theorem convertInput_of_parse_ok (hparse : Dimacs.parse text = .ok cnf) (hrender : cnf.toProgram.render = .ok out)
    (s : Console) : convertInput (.ok text) s =
      .ok () { s with printed := s.printed ++ out, diagnostics := s.diagnostics ++ cnf.warnings.map .warning } :=
  (bind_of_ok (Console.accept_of_ok rfl _ s) _).trans <| (bind_of_ok (Console.accept_of_ok hparse _ s) _).trans <|
    (bind_of_ok (forM_warn _ s) _).trans (bind_of_ok (Console.accept_of_ok hrender _ _) _)

theorem ends_convertInput (hinput : ∀ e, input = .error e → (CommandError.file e).Reported) (name : String) :
    Ends world input (.convert name) (convertInput input .start) := by
  cases input with
  | error e => exact .failed (hinput e rfl) rfl rfl
  | ok text =>
    cases hparse : Dimacs.parse text with
    | error e =>
      unfold convertInput
      rw [bind_of_ok (Console.accept_of_ok rfl _ .start), bind_of_error (Console.accept_of_error hparse _ .start)]
      refine .failed (Dimacs.Error.reported e) rfl ?_
      show [] = (Circuit.ofDimacs text).2.map _
      simp only [Circuit.ofDimacs, hparse, List.map_nil]
    | ok cnf =>
      have hdimacs : Circuit.ofDimacs text = (Circuit.ofProgram cnf.toProgram, cnf.warnings) := by
        simp only [Circuit.ofDimacs, hparse]
      obtain ⟨c, hc, -⟩ := Circuit.ofProgram_ok (p := cnf.toProgram) rfl (Dimacs.valid_of_parse hparse).derives
      obtain ⟨out, hrender, hout⟩ := Circuit.ofText_of_render (p := cnf.toProgram)
        (Dimacs.width_numVars_of_parse hparse) cnf.singleLines_toProgram
      rw [convertInput_of_parse_ok hparse hrender]
      refine .completed rfl ⟨c, hdimacs ▸ hc, ?_, by rw [hdimacs]; rfl⟩
      show Circuit.ofText ("" ++ out) = _
      rw [String.empty_append, hout, hc]

theorem ends_summarizeInput (hinput : ∀ e, input = .error e → (CommandError.file e).Reported)
    (name : String) (dimacs detailed : Bool) :
    Ends world input (.stats name dimacs detailed) (summarizeInput input dimacs detailed .start) := by
  unfold summarizeInput
  rcases load_cases hinput dimacs with
    ⟨text, c, rfl, hparse, hload⟩ | ⟨e, s, hload, hreported, hprinted, hwarned⟩
  · rw [bind_of_ok hload]
    obtain ⟨circuitLines, hcomplete⟩ := complete_of_parse hparse
    obtain ⟨summary, hsummary⟩ := hcomplete.summary_ok detailed
    rw [bind_of_ok (Console.accept_of_ok hsummary _ _)]
    exact .completed rfl ⟨c, summary, hparse, hsummary, String.empty_append, rfl⟩
  · rw [bind_of_error hload]
    exact .failed hreported hprinted hwarned

/-- A request that does not come as far as a search prints all or nothing. -/
theorem ends_execute (hinput : ∀ e, input = .error e → (CommandError.file e).Reported)
    (hsearch : ¬request.Searches world input) : Ends world input request (request.execute world input .start) := by
  cases request with
  | solve name dimacs settings => exact ends_solveInput hinput name dimacs settings hsearch
  | convert name => exact ends_convertInput hinput name
  | stats name dimacs detailed => exact ends_summarizeInput hinput name dimacs detailed

/-! ### Replies -/

theorem reported_of_readInput {files : Files} {stdin : String} {e : FileError}
    (h : request.readInput files stdin = .error e) : (CommandError.file e).Reported := by
  unfold readInput at h
  split at h
  · cases h
  · exact Files.reported_of_read h

theorem run_of_ok (h : request.execute world input .start = .ok () s) :
    request.run world input = .done 0 s.printed s.diagnostics := by
  unfold run
  rw [h]

theorem run_of_caught {e : CommandError} (hcaught : e.isCaught = true)
    (h : request.execute world input .start = .error e s) :
    request.run world input = .done 1 s.printed (s.diagnostics ++ [.failure e.message]) := by
  unfold run
  rw [h]
  split
  · next hok => cases hok
  · next hblank =>
    cases hblank
    cases hcaught
  · next herror =>
    cases herror
    rfl

theorem run_of_blank {setting : Setting}
    (h : request.execute world input .start = .error (.settings (.blank setting)) s) :
    request.run world input = .aborted setting s.diagnostics := by
  unfold run
  rw [h]

/-- A document is converted with the warnings on it. -/
theorem run_convert (world : Surroundings) (hparse : Dimacs.parse text = .ok cnf)
    (hrender : cnf.toProgram.render = .ok out) (name : String) :
    (Request.convert name).run world (.ok text) = .done 0 out (cnf.warnings.map .warning) := by
  have hexecute : (Request.convert name).execute world (.ok text) .start =
      .ok () ⟨⟨#[]⟩, 0, "" ++ out, cnf.warnings.map .warning⟩ := convertInput_of_parse_ok hparse hrender .start
  rw [run_of_ok hexecute, String.empty_append]

end Request

/-- A search that stays where it starts, and an arithmetic that warns of nothing. -/
def Surroundings.still : Surroundings := ⟨0, fun _ x => .finish x 0 "", fun _ => []⟩

namespace Reply

variable {world : Surroundings} {files : Files} {stdin : String} {args : List String} {request : Request}

theorem ofCommandLine_of_request (hargs : Request.ofArguments args = .ok request) :
    ofCommandLine world files stdin args = request.run world (request.readInput files stdin) := by
  unfold ofCommandLine
  rw [hargs]

/-- A setting that was left blank breaks the command off once the circuit is made. -/
theorem ofCommandLine_of_breaksOff (hargs : Request.ofArguments args = .ok request) {setting : Setting}
    (hblank : request.BreaksOff (request.readInput files stdin) setting) :
    ofCommandLine world files stdin args = .aborted setting
      ((Request.inputWarnings request.readsDimacs (request.readInput files stdin)).map .warning) := by
  rw [ofCommandLine_of_request hargs]
  cases request with
  | convert name | stats name dimacs detailed => cases hblank
  | solve name dimacs settings =>
    obtain ⟨⟨text, c, hinput, hparse⟩, hcheck⟩ := hblank
    rw [hinput]
    have hexecute : (Request.solve name dimacs settings).execute world (.ok text) .start =
        .error (.settings (.blank setting)) ⟨c.signals, 0, "", (Request.parse dimacs text).2.map .warning⟩ :=
      (bind_of_ok (Request.load_of_parse_ok hparse .start) _).trans
        (bind_of_error (Console.accept_of_error hcheck _ _) _)
    exact Request.run_of_blank hexecute

/-- So it is with a step size that is left blank, where one that is not positive would be reported. -/
example (world : Surroundings) : ofCommandLine world [] "1\n$0\n" ["solve", "-", "--learning-rate=--"] =
    .aborted .learningRate [] := by
  have hargs : Request.ofArguments ["solve", "-", "--learning-rate=--"] =
      .ok (.solve "-" false { Settings.default with learningRate := none }) := rfl
  exact ofCommandLine_of_breaksOff hargs ⟨⟨_, .atom, rfl, by decide +kernel⟩, rfl⟩

/-- A command line that makes a request, does not come as far as a search and is not broken off over a blank setting has
all of its output printed and nothing but warnings on the error channel, or it has nothing printed, and a line that says
why after the warnings so far. -/
theorem ofCommandLine_cases (world : Surroundings) (files : Files) (stdin : String) {args : List String}
    {request : Request} (hargs : Request.ofArguments args = .ok request)
    (hsearch : ¬request.Searches world (request.readInput files stdin))
    (hblank : ∀ setting, ¬request.BreaksOff (request.readInput files stdin) setting) :
    (∃ text out err, request.readInput files stdin = .ok text ∧ request.Outputs world text out err ∧
      ofCommandLine world files stdin args = .done 0 out err) ∨
    ∃ e : CommandError, e.Reported ∧ ofCommandLine world files stdin args =
      .done 1 "" ((Request.inputWarnings request.readsDimacs (request.readInput files stdin)).map .warning ++
        [.failure e.message]) := by
  rw [ofCommandLine_of_request hargs]
  have hends := Request.ends_execute (fun _ => Request.reported_of_readInput) hsearch
  generalize hresult : request.execute world (request.readInput files stdin) .start = result at hends
  cases hends with
  | completed htext houtputs => exact .inl ⟨_, _, _, htext, houtputs, Request.run_of_ok hresult⟩
  | @failed e s hreported hprinted hwarned =>
    have hrun := Request.run_of_caught hreported.isCaught hresult
    rw [hprinted, hwarned] at hrun
    exact .inr ⟨e, hreported, hrun⟩
  | brokenOff hbreaks => exact absurd hbreaks (hblank _)

/-- A document with as many clauses as it announces is converted without a warning, and a verbose gradient descent
prints all or nothing. -/
theorem ofCommandLine_cases_examples :
    (∃ out err, (Request.convert "-").Outputs .still "p cnf 2 1\n1 -2 0\n" out err ∧
      ofCommandLine .still [] "p cnf 2 1\n1 -2 0\n" ["convert", "-"] = .done 0 out err ∧
      out = "2\n$0 v ~$1\n" ∧ err = []) ∧
    ((∃ out err, ofCommandLine .still [] "1\n$0\n" ["solve", "-", "--verbose"] = .done 0 out err) ∨
      ∃ e : CommandError, e.Reported ∧
        ofCommandLine .still [] "1\n$0\n" ["solve", "-", "--verbose"] = .done 1 "" [.failure e.message]) := by
  constructor
  · have hparse : Dimacs.parse "p cnf 2 1\n1 -2 0\n" = .ok ⟨2, 1, [[1, -2]]⟩ := by decide +kernel
    have hrender : (Cnf.mk 2 1 [[1, -2]]).toProgram.render = .ok "2\n$0 v ~$1\n" := by decide +kernel
    have hreply : ofCommandLine .still [] "p cnf 2 1\n1 -2 0\n" ["convert", "-"] = .done 0 "2\n$0 v ~$1\n" [] :=
      Request.run_convert .still hparse hrender "-"
    have hargs : Request.ofArguments ["convert", "-"] = .ok (.convert "-") := rfl
    rcases ofCommandLine_cases .still [] "p cnf 2 1\n1 -2 0\n" hargs id (fun _ => id) with
      ⟨text, out, err, htext, houtputs, hdone⟩ | ⟨e, -, hdone⟩
    · cases htext
      refine ⟨out, err, houtputs, hdone, ?_⟩
      rw [hreply] at hdone
      injection hdone with _ hout herr
      exact ⟨hout.symm, herr.symm⟩
    · rw [hreply] at hdone
      injection hdone with hexit
      cases hexit
  · have hblank : ∀ setting, ¬{ Settings.default (R := Float) with verbose := true }.LeavesBlank setting := by
      rintro (_ | _ | _) <;> exact Option.some_ne_none _
    have hargs : Request.ofArguments ["solve", "-", "--verbose"] =
      .ok (.solve "-" false { Settings.default with verbose := true }) := rfl
    rcases ofCommandLine_cases .still [] "1\n$0\n" hargs (Request.not_searches_of_descent rfl _ _ _ _)
      (fun setting => Request.not_breaksOff (hblank setting) _ _ _) with ⟨text, out, err, -, -, hdone⟩ | hfailed
    · exact .inl ⟨out, err, hdone⟩
    · exact .inr hfailed

/-- A document that announces more clauses than it has is converted, and there is a warning on the error channel. -/
theorem ofCommandLine_of_clause_count :
    Request.ofArguments ["convert", "-"] = .ok (.convert "-") ∧
    ofCommandLine .still [] "p cnf 2 3\n1 2 0\n" ["convert", "-"] =
      .done 0 "2\n$0 v $1\n" [.warning (.clauseCount 3 1)] ∧
    (Diagnostic.warning (.clauseCount 3 1)).text = "UserWarning: Header declares 3 clause(s) but 1 were read\n" := by
  have hparse : Dimacs.parse "p cnf 2 3\n1 2 0\n" = .ok ⟨2, 3, [[1, 2]]⟩ := by decide +kernel
  have hrender : (Cnf.mk 2 3 [[1, 2]]).toProgram.render = .ok "2\n$0 v $1\n" := by decide +kernel
  exact ⟨rfl, Request.run_convert .still hparse hrender "-", by decide +kernel⟩

end Reply

end SoftLogic
