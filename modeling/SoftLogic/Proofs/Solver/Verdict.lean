import SoftLogic.Proofs.Circuit.Refusals
import SoftLogic.Proofs.Circuit.Satisfaction
import SoftLogic.Proofs.Solver.Descent
import SoftLogic.Solver.Search

/-!
# Verdicts

A run may start from signals of any past and may ask for the cost and gradient wherever it likes, with whatever
values come out.  The verdict depends on none of this, because a run ends with a reset before its assignment is
judged: `Solver.judges_finish`.  Up to there the inputs only have to hold values, and no question that is asked of the
circuit takes these away.
-/

namespace SoftLogic

open Effect

variable {R : Type} [Numeric R]

/-- The outcome of a run over `n` variables judges its assignment by formulas: a variable is true if its truth value
is above one half, and the verdict says whether all formulas hold. -/
structure Outcome.Judges (o : Outcome R) (n : Nat) (fs : List Formula) : Prop where
  length : o.values.length = n
  truths : o.truths = o.values.map Scalar.sigmoid
  assignment : o.assignment = o.truths.map fun t => Numeric.lt Numeric.half t
  satisfied : o.satisfied = true ↔ ∀ f ∈ fs, f.holds (fun k => o.assignment.getD k false) = true

/-- A search that only asks for vectors of length `n`, whatever it is told, and ends with one. -/
inductive Search.Asks (n : Nat) : Search R → Prop
  | finish {x : List R} {iterations : Nat} {message : String} : x.length = n → Asks n (.finish x iterations message)
  | probe {x : List R} {next : R → List R → Search R} : x.length = n →
    (∀ cost gradient, gradient.length = n → (next cost gradient).Asks n) → Asks n (.probe x next)

namespace Solver

variable {c : Circuit} {lines : List String} {fs : List Formula} {s : Signals R}

/-! ### Questions to the circuit -/

theorem grounded_descentSteps (h : c.Sealed) (rate : R) (count : Nat) (x : List R) (samples : Array (Sample R)) :
    Keeps (Signals.Grounded c.net c.numVars) (descentSteps c rate count x samples) := by
  induction count generalizing x samples with
  | zero => exact keeps_pure _
  | succ count ih =>
    have hstep : Keeps (Signals.Grounded c.net c.numVars) (descentStep c rate x) :=
      (keeps_onCircuit (h.grounded_costAt _)).bind fun _ => (keeps_onCircuit h.grounded_gradient).bind fun _ =>
        keeps_pure _
    exact hstep.bind fun _ => ih _ _

theorem grounded_runSearch (h : c.Sealed) (search : Search R) (history : Array R) :
    Keeps (Signals.Grounded c.net c.numVars) (runSearch c search history) := by
  induction search generalizing history with
  | finish x iterations message => exact keeps_pure _
  | probe x next ih =>
    exact (keeps_onCircuit (h.grounded_costAt _)).bind fun cost =>
      (keeps_onCircuit h.grounded_gradient).bind fun gradient => ih cost gradient _

/-! ### Runs that judge rightly -/

/-- Wherever the inputs hold values, what the run returns judges its assignment by the formulas, and the signals are
pristine then. -/
def Judging (c : Circuit) (fs : List Formula) (run : SolveM R (Outcome R)) : Prop :=
  ∀ s o s', s.Grounded c.net c.numVars → run s = .ok o s' → o.Judges c.numVars fs ∧ s'.Pristine c.net

theorem judging_throw (e : SolveError) : Judging c fs (throw e : SolveM R (Outcome R)) := by
  intro s o s' _ hok
  cases hok

theorem Judging.bind {α : Type} {x : SolveM R α} {y : α → SolveM R (Outcome R)}
    (hx : Keeps (Signals.Grounded c.net c.numVars) x) (hy : ∀ a, Judging c fs (y a)) : Judging c fs (x >>= y) := by
  intro s o s' hs hok
  obtain ⟨a, s₁, hxs, hys⟩ := of_bind_ok hok
  exact hy a s₁ o s' (hx.ok hs hxs) hys

/-- The end of a run judges rightly: the reset forgets what was known of the clauses. -/
theorem judges_finish [BooleanTables R] (h : c.Complete lines) (hformulas : c.HasFormulas lines fs)
    (procedure : Procedure) (values history : List R) (iterations : Nat) (message : String)
    (warnings : List Warning) :
    Judging c fs (finish c procedure values history iterations message warnings) := by
  intro s o s' hs hok
  obtain ⟨cost, s₁, hcost, hok⟩ := of_bind_ok hok
  obtain ⟨_, s₂, hreset, hok⟩ := of_bind_ok hok
  obtain ⟨satisfied, s₃, hjudged, hok⟩ := of_bind_ok hok
  cases hok
  have hcost := of_onCircuit_ok hcost
  have hlength : values.length = c.numVars := by
    rcases Circuit.vector?_cases c (.vector values) with ⟨e, he⟩ | ⟨ys, hys, hvalues, -⟩
    · rw [Circuit.costAt_of_refused he] at hcost
      cases hcost
    · rw [← Tensor.entries_vector values, hvalues, Tensor.entries_vector, hys]
  have hs₁ := (h.sealed.grounded_costAt _).ok hs hcost
  have hs₂ : c.Remembers none s₂ := by
    cases hreset
    exact h.remembers_reset hs₁
  have hjudged := of_onCircuit_ok hjudged
  obtain ⟨s₄, hholds⟩ := h.satisfiedBy_ok hformulas ((hs₂.pristine rfl).blank hs₂.grounded.size)
    ((length_rounded values).trans hlength)
  rw [hholds] at hjudged
  cases hjudged
  refine ⟨⟨hlength, rfl, rfl, List.all_eq_true⟩, ?_⟩
  exact (h.wired.restores_satisfiedBy _).pristine _ _ _ (h.fits hs₂.grounded.size) hholds

section Runs

variable [BooleanTables R]

theorem judges_descend (h : c.Complete lines) (hformulas : c.HasFormulas lines fs) (config : Option (Config R))
    (start : Option (Tensor R)) (entropy : Nat) : Judging c fs (descend c config start entropy) := by
  unfold descend
  dsimp only
  match startValues c (config.getD .default) entropy start with
  | .error e => exact judging_throw e
  | .ok x => exact .bind (grounded_descentSteps h.sealed _ _ x #[]) fun _ => judges_finish h hformulas _ _ _ _ _ _

theorem judges_minimize (h : c.Complete lines) (hformulas : c.HasFormulas lines fs)
    (method : Config R → List R → Search R) (config : Option (Config R)) (start : Option (Tensor R))
    (entropy : Nat) : Judging c fs (minimize method c config start entropy) := by
  unfold minimize
  dsimp only
  by_cases hdescent : (config.getD .defaultSearch).isDescent = true
  · rw [if_pos hdescent]
    intro s o s' _ hok
    obtain ⟨_, _, hthrow, -⟩ := of_bind_ok hok
    cases hthrow
  · rw [if_neg hdescent]
    match startValues c (config.getD .defaultSearch) entropy start with
    | .error e => exact judging_throw e
    | .ok x =>
      dsimp only
      split
      · exact judges_finish h hformulas _ _ _ _ _ _
      · split
        · exact judging_throw _
        · exact .bind (grounded_runSearch h.sealed _ #[]) fun _ => judges_finish h hformulas _ _ _ _ _ _

theorem judges_solve (h : c.Complete lines) (hformulas : c.HasFormulas lines fs)
    (method : Config R → List R → Search R) (config : Option (Config R)) (start : Option (Tensor R))
    (entropy : Nat) : Judging c fs (solve method c config start entropy) := by
  unfold solve
  dsimp only
  split
  · exact judges_descend h hformulas _ start entropy
  · exact judges_minimize h hformulas method _ start entropy

end Runs

/-! ### Runs that return -/

theorem finish_returns (h : c.Sealed) (hs : s.Grounded c.net c.numVars) (procedure : Procedure) {values : List R}
    (hvalues : values.length = c.numVars) (history : List R) (iterations : Nat) (message : String)
    (warnings : List Warning) :
    ∃ o s', finish c procedure values history iterations message warnings s = .ok o s' := by
  obtain ⟨cost, s₁, hcost, hs₁⟩ := h.costAt_returns hvalues hs
  obtain ⟨satisfied, s₂, hjudged, -⟩ :=
    h.satisfiedBy_returns ((length_rounded values).trans hvalues) (h.grounded_reset hs₁)
  exact ⟨_, s₂, finish_of_ok hcost hjudged _ _ _ _ _⟩

/-- A search that asks for vectors of the right length is answered to its end. -/
theorem runSearch_returns (h : c.Sealed) {search : Search R} (hasks : search.Asks c.numVars) (history : Array R)
    (hs : s.Grounded c.net c.numVars) : ∃ result s', runSearch c search history s = .ok result s' ∧
      result.x.length = c.numVars ∧ s'.Grounded c.net c.numVars := by
  induction hasks generalizing history s with
  | finish hx => exact ⟨_, s, rfl, hx, hs⟩
  | @probe x next hx _ ih =>
    obtain ⟨cost, s₁, hcost, hs₁⟩ := h.costAt_returns hx hs
    obtain ⟨gradient, s₂, hgradient, hs₂⟩ := h.gradient_returns hs₁
    obtain ⟨result, s₃, hrest, hresult⟩ :=
      ih cost gradient (Circuit.length_of_gradient hgradient) (history.push cost) hs₂
    refine ⟨result, s₃, ?_, hresult⟩
    unfold runSearch
    rw [bind_of_ok (onCircuit_of_ok hcost), bind_of_ok (onCircuit_of_ok hgradient)]
    exact hrest

/-- A run with a search that asks for vectors of the right length returns, wherever the inputs hold values. -/
theorem minimize_returns (h : c.Sealed) (hs : s.Grounded c.net c.numVars)
    (method : Config R → List R → Search R) (config : Config R) (hdescent : config.isDescent = false)
    (hsearchable : Settings.isSearchable config.optimizer = true) (xs : List R) (hxs : xs.length = c.numVars)
    (hasks : (method config xs).Asks c.numVars) (entropy : Nat) :
    ∃ o s', minimize method c (some config) (some (.vector xs)) entropy s = .ok o s' := by
  unfold minimize
  dsimp only
  rw [Option.getD_some, if_neg (by rw [hdescent]; exact Bool.false_ne_true), startValues_vector config entropy hxs]
  dsimp only
  by_cases hzero : c.numVars = 0
  · rw [if_pos hzero]
    exact finish_returns h hs _ hxs _ _ _ _
  · rw [if_neg hzero, hsearchable, if_neg (by decide)]
    obtain ⟨result, s₁, hsearch, hlength, hs₁⟩ := runSearch_returns h hasks #[] hs
    obtain ⟨o, s₂, hfinish⟩ := finish_returns h hs₁ .search hlength result.history.toList result.iterations
      result.message []
    exact ⟨o, s₂, (bind_of_ok hsearch _).trans hfinish⟩

theorem length_draws (g : Random.Generator) (count : Nat) : (g.draws count).length = count := by
  induction count generalizing g with
  | zero => rfl
  | succ count ih => exact congrArg Nat.succ (ih g.advance)

/-- There is a starting value for each variable. -/
theorem length_of_startValues {config : Config R} {entropy : Nat} {xs : List R}
    (h : startValues c config entropy none = .ok xs) : xs.length = c.numVars := by
  unfold startValues seededValues at h
  dsimp only at h
  split_ifs at h
  cases h
  rw [List.length_map, length_draws, Int.toNat_natCast]

/-- From starting values that are drawn, a run on an untouched circuit returns a truth value for each variable, if it is
gradient descent or there is nothing to search for. -/
theorem solve_returns (h : c.Complete lines) (method : Config R → List R → Search R) {config : Config R}
    {entropy : Nat} {xs : List R} (hstart : startValues c config entropy none = .ok xs)
    (hsearch : config.isDescent = true ∨ c.numVars = 0) :
    ∃ o s, solve method c (some config) none entropy c.signals = .ok o s ∧ o.truths.length = c.numVars := by
  have hxs := length_of_startValues hstart
  obtain ⟨cost, gradient, hanswers⟩ := h.exists_answers (R := R)
  unfold solve
  rw [Option.getD_some]
  by_cases hdescent : config.isDescent = true
  · rw [if_pos hdescent]
    obtain ⟨o, htraces, hdescend⟩ := descend_ok h hanswers hxs config
    obtain ⟨s, hok, -⟩ := hdescend entropy c.signals h.clean_signals
    refine ⟨o, s, ?_, ?_⟩
    · unfold descend at hok ⊢
      rw [Option.getD_some] at hok ⊢
      rw [startValues_vector config entropy hxs] at hok
      rw [hstart]
      exact hok
    · rw [htraces.truths_eq, List.length_map, length_trajectory hanswers hxs]
  · rw [if_neg hdescent]
    have hminimize : minimize method c (some config) none entropy =
        finish c .nothing xs [] 0 "Nothing to optimize: circuit has no variables" [] := by
      unfold minimize
      rw [Option.getD_some, if_neg hdescent, hstart]
      exact if_pos (hsearch.resolve_left hdescent)
    obtain ⟨satisfied, hfinish⟩ := finish_ok h hanswers hxs .nothing [] 0
      "Nothing to optimize: circuit has no variables" []
    obtain ⟨s, hok, -⟩ := hfinish c.signals h.clean_signals
    rw [hminimize]
    exact ⟨_, s, hok, (List.length_map _).trans hxs⟩

/-! ### Verdicts after any calls -/

/-- On the circuit of clauses that are derived, after any calls on its signals, whatever gradient descent, a search of
any kind or the choice between them returns judges its assignment by the clauses, and the circuit is pristine then. -/
theorem verdicts_after [BooleanTables R] {p : Program} {n : Nat} (hdeclared : p.declared = n) {es : List Expression}
    (hderived : List.Forall₂ (fun line e => Expression.Derives e n line) (Circuit.significant p.clauses) es) :
    ∃ c, Circuit.ofProgram p = .ok c ∧ c.numVars = n ∧
      ∀ calls : List (Call R), (∀ call ∈ calls, call.onSignals = true) →
        ((Session.start c).after calls).circuit = c ∧
        ∀ (method : Config R → List R → Search R) (config : Option (Config R)) (start : Option (Tensor R))
          (entropy : Nat), ∀ run ∈ [descend c config start entropy, minimize method c config start entropy,
            solve method c config start entropy],
          ∀ o s, run ((Session.start c).after calls).signals = .ok o s →
            o.Judges n (es.map Expression.formula) ∧ s.Pristine c.net := by
  obtain ⟨c, hc, rfl⟩ := Circuit.ofProgram_ok hdeclared hderived
  obtain ⟨hcomplete, -⟩ := Circuit.complete_of_ofProgram hc
  have hformulas := hcomplete.hasFormulas hderived
  refine ⟨c, hc, rfl, fun calls hcalls => ⟨Session.circuit_after _ hcalls, ?_⟩⟩
  intro method config start entropy run hrun o s hok
  have hgrounded := (Session.remembers_after hcomplete hcalls).grounded
  have hjudging : Judging c (es.map Expression.formula) run := by
    simp only [List.mem_cons, List.not_mem_nil, or_false] at hrun
    rcases hrun with rfl | rfl | rfl
    · exact judges_descend hcomplete hformulas config start entropy
    · exact judges_minimize hcomplete hformulas method config start entropy
    · exact judges_solve hcomplete hformulas method config start entropy
  exact hjudging _ o s hgrounded hok

/-- A cost at zero was never reset, and the search goes against the gradient that it is told. -/
theorem verdict_after_forward : ∃ (c : Circuit) (method : Config Extended → List Extended → Search Extended)
    (o : Outcome Extended) (s : Signals Extended), Circuit.ofProgram ⟨1, ["~($0)"]⟩ = .ok c ∧
      minimize method c (some .defaultSearch) (some (.vector [.finite 2])) 0
        ((Session.start c).after [.forward (.vector [Extended.finite 0])]).signals = .ok o s ∧
      o.Judges 1 [.not (.var 0)] ∧ s.Pristine c.net := by
  have hscan : Token.scan "~($0)" 1 =
      .ok [⟨.not, 0⟩, ⟨.openGroup, 1⟩, ⟨.variable 0, 2⟩, ⟨.closeGroup, 4⟩] := by decide
  have hderived : List.Forall₂ (fun line e => Expression.Derives e 1 line) (Circuit.significant ["~($0)"])
      [.operand (.not (.group (.operand (.var 0))))] := by
    rw [show Circuit.significant ["~($0)"] = ["~($0)"] by decide]
    exact .cons ⟨_, hscan, rfl⟩ .nil
  obtain ⟨c, hc, hnumVars, hverdicts⟩ :=
    verdicts_after (R := Extended) (p := ⟨1, ["~($0)"]⟩) rfl hderived
  obtain ⟨hcomplete, -⟩ := Circuit.complete_of_ofProgram hc
  have hcalls : ∀ call ∈ [Call.forward (.vector [Extended.finite 0])], call.onSignals = true := by
    simp [Call.onSignals]
  let method : Config Extended → List Extended → Search Extended := fun _ x =>
    .probe x fun _ gradient => .finish (x.zipWith (· - ·) gradient) 1 "One step"
  have hasks : (method .defaultSearch [.finite 2]).Asks c.numVars := by
    rw [hnumVars]
    refine .probe rfl fun _ gradient hgradient => .finish ?_
    rw [List.length_zipWith, hgradient]
    rfl
  obtain ⟨o, s, hok⟩ := minimize_returns hcomplete.sealed (Session.remembers_after hcomplete hcalls).grounded method
    .defaultSearch (by decide) (by decide +kernel) [.finite 2] hnumVars.symm hasks 0
  obtain ⟨hjudges, hpristine⟩ := (hverdicts _ hcalls).2 method (some .defaultSearch) (some (.vector [.finite 2])) 0 _
    (.tail _ (.head _)) o s hok
  exact ⟨c, method, o, s, hc, hok, hjudges, hpristine⟩

end Solver

end SoftLogic
