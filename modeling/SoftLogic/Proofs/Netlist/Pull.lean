import SoftLogic.Proofs.Netlist.Built
import SoftLogic.Proofs.Netlist.Evaluation

/-!
# Pulling a gradient

Pulling a gradient by a walk is the recursion that anyone would write down: leave a node alone that has pushed;
otherwise pull those that it feeds, the last one first, then set its flag and push (`Netlist.pullBack`).  On a netlist
that was built by wiring and has no cycle, the walk pushes the same nodes in the same order, stops for the same fault and
leaves the same signals (`Netlist.pull_recursively`), whatever is known and whoever has pushed, as long as no node has
pushed before those that it feeds (`Signals.InOrder`).

To push, a node has some nodes evaluated (`Netlist.consulted`), and what is evaluated for the first time has operands
that are known (`Signals.Learns`).  So a pull stops just if a node that it comes to is `Netlist.Blocked`, whatever was
evaluated on the way.
-/

namespace SoftLogic

open Effect

variable {R : Type} [Scalar R]

/-- Every node that is fed by one that has pushed has pushed. -/
def Signals.InOrder (net : Netlist) (s : Signals R) : Prop :=
  ∀ q, (s.cell q).pushed = true → ∀ d ∈ net.consumers q, (s.cell d).pushed = true

/-- What was known in `s` is known in `t`, and what else is known there is complete and has known operands. -/
structure Signals.Learns (net : Netlist) (s t : Signals R) : Prop where
  size : t.cells.size = s.cells.size
  known : ∀ q x, (s.cell q).signal = some x → (t.cell q).signal = some x
  learned : ∀ q, (s.cell q).signal = none → (t.cell q).signal.isSome = true →
    (net.gate q).isOpen = false ∧ ∀ d ∈ net.operands q, (t.cell d).signal.isSome = true

/-- Nothing differs between `s` and `t` but gradients. -/
structure Signals.Gathers (s t : Signals R) : Prop where
  size : t.cells.size = s.cells.size
  cell : ∀ q, (t.cell q).signal = (s.cell q).signal ∧ (t.cell q).pushed = (s.cell q).pushed

namespace Netlist

/-- The nodes that are evaluated when a node pushes. -/
def consulted (net : Netlist) (r : Ref) : List Ref :=
  match net.gate r with
  | .sigmoid _ => [r]
  | .binary _ a (some b) => [a, b]
  | .cost a => [a]
  | _ => []

/-- The node cannot push: there is nothing to pull from, an operand is missing, or one is missing where it looks for a
value. -/
inductive Blocked (net : Netlist) (s : Signals R) (q : Ref) : Prop
  | consumer : net.consumers q = [] → (∀ a, net.gate q ≠ .sigmoid a) → (∀ a, net.gate q ≠ .cost a) → Blocked net s q
  | operand : (net.gate q).isOpen = true → Blocked net s q
  | value (d p : Ref) : d ∈ net.consulted q → net.Stale s d p → (net.gate p).isOpen = true → Blocked net s q

/-- The nodes of `log` have pushed, each once and after those that it feeds: the ones downstream of `r` that had not pushed
before.  There is no other change in who has pushed, and so every node that is fed by one that has pushed has pushed. -/
structure PushesTo (net : Netlist) (r : Ref) (s : Signals R) (log : List Ref) (s' : Signals R) : Prop where
  nodup : log.Nodup
  mem_iff : ∀ q, q ∈ log ↔ net.Feeds r q ∧ (s.cell q).pushed = false
  after : ∀ earlier q later, log = earlier ++ q :: later →
    ∀ d ∈ net.consumers q, (s.cell d).pushed = true ∨ d ∈ earlier
  pushed_iff : ∀ q, (s'.cell q).pushed = true ↔ (s.cell q).pushed = true ∨ net.Feeds r q
  inOrder : s'.InOrder net

/-- Leaves a node alone that has pushed, or pulls its targets, the last one first, and then has it set its flag and push.
Pushes are noted down. -/
def pullBack (net : Netlist) (h : WellFounded fun d r => d ∈ net.consumers r) (r : Ref) :
    EStateM Fault (Signals R × List Ref) Unit := do
  if ((← get).1.cell r).pushed then return ()
  else
    match hds : net.pullTargets r with
    | .error fault => throw fault
    | .ok ds =>
      ds.attach.reverse.forM fun d => net.pullBack h d.1
      net.pulling.logging.settle r
termination_by h.wrap r
decreasing_by exact mem_consumers_of_pullTargets hds d.1 d.2

section PullBack

variable {net : Netlist} {r : Ref} {t : Signals R × List Ref} (h : WellFounded fun d r => d ∈ net.consumers r)

theorem pullBack_of_pushed (hr : (t.1.cell r).pushed = true) : net.pullBack h r t = .ok () t := by
  rw [pullBack, get_bind, if_pos hr]
  rfl

theorem pullBack_of_error {fault : Fault} (hr : (t.1.cell r).pushed = false) (hds : net.pullTargets r = .error fault) :
    net.pullBack h r t = .error fault t := by
  rw [pullBack, get_bind, if_neg (by simp [hr])]
  refine congrFun (g := (throw fault : EStateM Fault (Signals R × List Ref) Unit)) ?_ t
  split
  · next hfault =>
    cases hds.symm.trans hfault
    rfl
  · next hok => cases hds.symm.trans hok

theorem pullBack_of_ok {ds : List Ref} (hr : (t.1.cell r).pushed = false) (hds : net.pullTargets r = .ok ds) :
    net.pullBack h r t = (ds.reverse.forM (net.pullBack h) >>= fun _ => net.pulling.logging.settle r) t := by
  rw [pullBack, get_bind, if_neg (by simp [hr])]
  refine congrFun (g := ds.reverse.forM (net.pullBack h) >>= fun _ => net.pulling.logging.settle r) ?_ t
  split
  · next hfault => cases hds.symm.trans hfault
  · next ds' hok =>
    cases hds.symm.trans hok
    rw [Visit.forM_attach_reverse ds (net.pullBack h)]

/-- Following the targets of pulls is following consumers. -/
theorem mem_consumers_of_before {r d : Ref} (hd : d ∈ (net.pulling : Visit (Signals R)).before r) :
    d ∈ net.consumers r := by
  cases hds : net.pullTargets r with
  | error fault =>
    have hnil : (net.pulling : Visit (Signals R)).before r = [] := by
      unfold Visit.before
      rw [show (net.pulling : Visit (Signals R)).dependencies r = _ from hds]
      rfl
    rw [hnil] at hd
    cases hd
  | ok ds =>
    rw [Visit.before_of_ok (show (net.pulling : Visit (Signals R)).dependencies r = _ from hds)] at hd
    exact mem_consumers_of_pullTargets hds d hd

/-- The recursion of the walk that notes down what it settles is the pull. -/
theorem recurse_eq_pullBack (hwf : WellFounded fun d r => d ∈ (net.pulling : Visit (Signals R)).logging.before r)
    (r : Ref) (t : Signals R × List Ref) : net.pulling.logging.recurse hwf r t = net.pullBack h r t := by
  induction r using h.induction generalizing t with
  | _ r ih =>
    by_cases hpushed : (t.1.cell r).pushed = true
    · rw [pullBack_of_pushed h hpushed]
      exact Visit.recurse_of_settled hwf hpushed
    · have hopen : (t.1.cell r).pushed = false := by simpa using hpushed
      cases hds : net.pullTargets r with
      | error fault =>
        rw [pullBack_of_error h hopen hds]
        exact Visit.recurse_of_error hwf hopen hds
      | ok ds =>
        rw [pullBack_of_ok h hopen hds, Visit.recurse_of_ok hwf (v := net.pulling.logging) hopen hds, bind_apply,
          bind_apply]
        have hloop : ds.reverse.forM (net.pulling.logging.recurse hwf) t = ds.reverse.forM (net.pullBack h) t :=
          forM_congr (P := fun _ => True) (fun d hd t _ =>
            ih d (mem_consumers_of_pullTargets hds d (List.mem_reverse.mp hd)) t) (fun _ _ _ _ _ _ => trivial) trivial
        rw [hloop]

end PullBack

end Netlist

/-! ### What evaluating learns -/

namespace Signals.Learns

variable {net : Netlist} {s t t' : Signals R} {d p r : Ref}

theorem refl (net : Netlist) (s : Signals R) : s.Learns net s := by
  refine ⟨rfl, fun _ _ hx => hx, fun q hnone hsome => ?_⟩
  rw [hnone] at hsome
  cases hsome

theorem isSome (h : s.Learns net t) (hd : (s.cell d).signal.isSome = true) : (t.cell d).signal.isSome = true := by
  obtain ⟨x, hx⟩ := Option.isSome_iff_exists.mp hd
  exact Option.isSome_iff_exists.mpr ⟨x, h.known d x hx⟩

theorem trans (h : s.Learns net t) (h' : t.Learns net t') : s.Learns net t' := by
  refine ⟨h'.size.trans h.size, fun q x hx => h'.known q x (h.known q x hx), fun q hnone hsome => ?_⟩
  cases hq : (t.cell q).signal with
  | none => exact h'.learned q hq hsome
  | some x =>
    obtain ⟨hopen, hall⟩ := h.learned q hnone (Option.isSome_iff_exists.mpr ⟨x, hq⟩)
    exact ⟨hopen, fun d hd => h'.isSome (hall d hd)⟩

/-- Whatever leaves the signals alone. -/
theorem of_signal_eq (hsize : t.cells.size = s.cells.size) (h : ∀ q, (t.cell q).signal = (s.cell q).signal) :
    s.Learns net t := by
  refine ⟨hsize, fun q x hx => (h q).trans hx, fun q hnone hsome => ?_⟩
  rw [h, hnone] at hsome
  cases hsome

theorem loaded (h : s.Learns net t) (hs : s.Loaded net) : t.Loaded net :=
  ⟨h.size.trans hs.size, fun r hinput => h.isSome (hs.held r hinput)⟩

/-- What is stale after something was learned was so before. -/
theorem stale (h : s.Learns net t) (hstale : net.Stale t d p) : net.Stale s d p := by
  have hnone : ∀ q, (t.cell q).signal = none → (s.cell q).signal = none := by
    intro q hq
    cases hs : (s.cell q).signal with
    | none => rfl
    | some x => rw [h.known q x hs] at hq; cases hq
  exact ⟨hnone d hstale.1, Relation.ReflTransGen.mono (fun _ c hc => ⟨hc.1, hnone c hc.2⟩) _ _ hstale.2⟩

/-- Beneath a node that was learned, all that was stale was learned, and so it is complete. -/
theorem isOpen_eq_false (h : s.Learns net t) (hd : (t.cell d).signal.isSome = true) (hstale : net.Stale s d p) :
    (net.gate p).isOpen = false := by
  obtain ⟨hnone, hpath⟩ := hstale
  suffices hp : (s.cell p).signal = none ∧ (t.cell p).signal.isSome = true from (h.learned p hp.1 hp.2).1
  induction hpath with
  | refl => exact ⟨hnone, hd⟩
  | tail _ hc ih => exact ⟨hc.2, (h.learned _ ih.1 ih.2).2 _ hc.1⟩

end Signals.Learns

namespace Signals.Gathers

variable {net : Netlist} {s t t' : Signals R}

theorem trans (h : s.Gathers t) (h' : t.Gathers t') : s.Gathers t' :=
  ⟨h'.size.trans h.size, fun q => ⟨(h'.cell q).1.trans (h.cell q).1, (h'.cell q).2.trans (h.cell q).2⟩⟩

theorem learns (h : s.Gathers t) : s.Learns net t := .of_signal_eq h.size fun q => (h.cell q).1

end Signals.Gathers

namespace Netlist

section Push

variable {net : Netlist} {s s' t t' : Signals R} {r : Ref}

/-- Evaluating a node learns it and leaves the gradients alone, or it stops at a gate that waits for an operand. -/
theorem learns_evaluate (h : net.Layered) (hs : s.Loaded net) (hr : r < net.size) :
    (∃ x s', net.evaluate r s = .ok x s' ∧ s.Learns net s' ∧ (s'.cell r).signal.isSome = true ∧ s.SameGradients s') ∨
    ∃ fault s' p, net.evaluate r s = .error fault s' ∧ fault.category = .wiring ∧ net.Stale s r p ∧
      (net.gate p).isOpen = true := by
  rcases evaluate_cases h hs hr with ⟨x, s', hok, hadvances, hsettled⟩ | hstops
  · refine .inl ⟨x, s', hok, ⟨hadvances.keeps.size, fun q y hy => ?_, fun q hnone hsome => ?_⟩, hsettled, fun q => ?_⟩
    · rw [hadvances.keeps.known (Option.isSome_iff_exists.mpr ⟨y, hy⟩), hy]
    · obtain ⟨-, ⟨u, u', hsettle⟩, hall⟩ := hadvances.settled q (isSome_eq_false_iff.mpr hnone) hsome
      refine ⟨?_, hall⟩
      by_contra hwaits
      obtain ⟨fault, -, herror⟩ := settle_of_isOpen SignalM.known (by simpa using hwaits) u
      cases hsettle.symm.trans herror
    · rcases hadvances.keeps.cell q with heq | ⟨-, y, hy⟩
      · rw [heq]
        exact ⟨rfl, rfl⟩
      · rw [hy]
        exact ⟨rfl, rfl⟩
  · exact .inr hstops

/-- Evaluating some nodes in turn learns all of them, or it stops at a gate that waits for an operand. -/
theorem learns_mapM_evaluate (h : net.Layered) (hs : s.Loaded net) {ds : List Ref} (hds : ∀ d ∈ ds, d < net.size) :
    (∃ xs s', ds.mapM net.evaluate s = .ok xs s' ∧ s.Learns net s' ∧ (∀ d ∈ ds, (s'.cell d).signal.isSome = true) ∧
      s.SameGradients s') ∨
    ∃ fault s' p, ds.mapM net.evaluate s = .error fault s' ∧ fault.category = .wiring ∧ (∃ d ∈ ds, net.Stale s d p) ∧
      (net.gate p).isOpen = true := by
  induction ds generalizing s with
  | nil => exact .inl ⟨[], s, rfl, .refl net s, fun d hd => absurd hd List.not_mem_nil, .refl s⟩
  | cons d ds ih =>
    rw [List.mapM_cons]
    rcases learns_evaluate h hs (hds d List.mem_cons_self) with
      ⟨x, s₁, hd, hs₁, hknown, hsame⟩ | ⟨fault, s₁, p, hd, hcategory, hstale, hopen⟩
    · rw [bind_of_ok hd]
      rcases ih (hs₁.loaded hs) fun c hc => hds c (List.mem_cons_of_mem d hc) with
        ⟨xs, s₂, hrest, hs₂, hall, hsame'⟩ | ⟨fault, s₂, p, hrest, hcategory, ⟨c, hc, hstale⟩, hopen⟩
      · refine .inl ⟨x :: xs, s₂, by rw [bind_of_ok hrest]; rfl, hs₁.trans hs₂, fun c hc => ?_,
          fun q => ⟨(hsame' q).1.trans (hsame q).1, (hsame' q).2.trans (hsame q).2⟩⟩
        rcases List.mem_cons.mp hc with rfl | hc
        · exact hs₂.isSome hknown
        · exact hall c hc
      · exact .inr ⟨fault, s₂, p, bind_of_error hrest _, hcategory, ⟨c, List.mem_cons_of_mem d hc, hs₁.stale hstale⟩,
          hopen⟩
    · exact .inr ⟨fault, s₁, p, bind_of_error hd _, hcategory, ⟨d, List.mem_cons_self, hstale⟩, hopen⟩

/-! ### What a push does -/

theorem addGradient_gathers (hcost : ∀ b, net.gate r ≠ .cost b) (x : R) (s : Signals R) :
    ∃ s', net.addGradient r x s = .ok () s' ∧ s.Gathers s' := by
  refine ⟨s.update r fun c => { c with gradient := c.gradient + x }, ?_, Signals.size_update _ _ _, fun q => ?_⟩
  · unfold addGradient
    cases hgate : net.gate r with
    | cost b => exact absurd hgate (hcost b)
    | _ => exact SignalM.gather_apply r x s
  · by_cases hq : q = r
    · subst hq
      simp only [Signals.cell, Signals.update, Array.getD_eq_getD_getElem?, Array.getElem?_modify]
      cases s.cells[q]? <;> simp
    · rw [Signals.cell_update_of_ne s _ hq]
      exact ⟨rfl, rfl⟩

/-- To push is to evaluate some nodes and then to gather gradients, which is not refused. -/
theorem pushGradient_eq (h : net.Linked) (hr : r < net.size) (hinput : net.gate r ≠ .input)
    (hopen : (net.gate r).isOpen = false) : ∃ k : List R → SignalM R Unit,
      net.pushGradient r = ((net.consulted r).mapM net.evaluate >>= k) ∧
      ∀ xs s, ∃ s', k xs s = .ok () s' ∧ s.Gathers s' := by
  -- a cost feeds nothing, so no operand is a cost
  have hcost : ∀ d ∈ net.operands r, ∀ b, net.gate d ≠ .cost b := by
    intro d hd b hg
    have hmem := h.mem_operands_iff.mp hd
    rw [h.rootless d b hg] at hmem
    cases hmem
  unfold operands at hcost
  unfold pushGradient consulted
  cases hg : net.gate r with
  | plain => exact absurd hg (h.kind r hr)
  | input => exact absurd hg hinput
  | sigmoid a =>
    refine ⟨fun xs => do net.addGradient a ((← SignalM.gradient r) * xs.headD 0 * (1 - xs.headD 0)), by simp,
      fun xs s => ?_⟩
    exact addGradient_gathers (hcost a (by simp [hg])) _ s
  | not a =>
    cases a with
    | none => simp [hg, Gate.isOpen] at hopen
    | some a =>
      refine ⟨fun _ => do net.addGradient a (-(← SignalM.gradient r)), by simp, fun xs s => ?_⟩
      exact addGradient_gathers (hcost a (by simp [hg])) _ s
  | binary op a b =>
    cases b with
    | none => simp [hg, Gate.isOpen] at hopen
    | some b =>
      refine ⟨fun xs => do
        net.addGradient a ((← SignalM.gradient r) * op.slope (xs.getD 1 0))
        net.addGradient b ((← SignalM.gradient r) * op.slope (xs.headD 0)), by simp, fun xs s => ?_⟩
      obtain ⟨s₁, hfirst, hs₁⟩ := addGradient_gathers (hcost a (by simp [hg]))
        ((s.cell r).gradient * op.slope (xs.getD 1 0)) s
      obtain ⟨s₂, hsecond, hs₂⟩ := addGradient_gathers (hcost b (by simp [hg]))
        ((s₁.cell r).gradient * op.slope (xs.headD 0)) s₁
      exact ⟨s₂, (bind_of_ok hfirst _).trans hsecond, hs₁.trans hs₂⟩
  | cost a =>
    refine ⟨fun xs => do net.addGradient a ((← SignalM.gradient r) * -(1 / xs.headD 0)), by simp, fun xs s => ?_⟩
    exact addGradient_gathers (hcost a (by simp [hg])) _ s

/-- What is evaluated for a push is the node itself or an operand. -/
theorem Linked.consulted_lt_size (h : net.Linked) (hr : r < net.size) : ∀ d ∈ net.consulted r, d < net.size := by
  intro d hd
  have hoperand := h.operand r d
  unfold operands at hoperand
  unfold consulted at hd
  split at hd
  · exact List.mem_singleton.mp hd ▸ hr
  · next hg => exact hoperand (by simpa [hg] using hd)
  · next hg => exact hoperand (by simpa [hg] using hd)
  · cases hd

/-- A gate that waits for an operand cannot push. -/
theorem pushGradient_of_isOpen (hopen : (net.gate r).isOpen = true) (s : Signals R) :
    ∃ fault : Fault, fault.category = .wiring ∧ net.pushGradient r s = .error fault s := by
  unfold pushGradient
  cases hg : net.gate r with
  | not a =>
    cases a with
    | none => exact ⟨_, rfl, rfl⟩
    | some a => simp [hg, Gate.isOpen] at hopen
  | binary op a b =>
    cases b with
    | none => exact ⟨_, rfl, rfl⟩
    | some b => simp [hg, Gate.isOpen] at hopen
  | _ => simp [hg, Gate.isOpen] at hopen

/-- A node that sets its flag and pushes learns what it looks at, or it waits for an operand, or something does that it
looks at. -/
theorem push_cases (h : net.Linked) (hacyclic : net.Acyclic) (hs : s.Loaded net) (hr : r < net.size)
    (hinput : net.gate r ≠ .input) :
    (∃ s', net.pulling.settle r s = .ok () s' ∧ s.Learns net s' ∧ (net.gate r).isOpen = false ∧
      (∀ d ∈ net.consulted r, (s'.cell d).signal.isSome = true) ∧
      ∀ q, (s'.cell q).pushed = ((s.cell q).pushed || q == r)) ∨
    ∃ fault s', net.pulling.settle r s = .error fault s' ∧ fault.category = .wiring ∧
      ((net.gate r).isOpen = true ∨ ∃ d ∈ net.consulted r, ∃ p, net.Stale s d p ∧ (net.gate p).isOpen = true) := by
  have hlt : r < s.cells.size := hs.size ▸ hr
  have hflag : s.Learns net (s.update r fun c => { c with pushed := true }) :=
    .of_signal_eq (Signals.size_update _ _ _) fun q => Signals.signal_update s r q fun _ => rfl
  have hpushed : ∀ q, ((s.update r fun c => { c with pushed := true }).cell q).pushed =
      ((s.cell q).pushed || q == r) := by
    intro q
    rw [Signals.cell_update s r q _ hlt]
    split
    · next hqr => simp [hqr]
    · next hqr => simp [hqr]
  show (∃ s', (SignalM.markPushed r >>= fun _ => net.pushGradient r) s = .ok () s' ∧ _) ∨
    ∃ fault s', (SignalM.markPushed r >>= fun _ => net.pushGradient r) s = .error fault s' ∧ _
  rw [bind_of_ok (SignalM.markPushed_apply r s)]
  cases hopen : (net.gate r).isOpen with
  | true =>
    obtain ⟨fault, hcategory, herror⟩ := pushGradient_of_isOpen hopen (s.update r fun c => { c with pushed := true })
    exact .inr ⟨fault, _, herror, hcategory, .inl rfl⟩
  | false =>
    obtain ⟨k, hpush, hk⟩ := pushGradient_eq (R := R) h hr hinput hopen
    rw [hpush]
    rcases learns_mapM_evaluate (h.layered hacyclic) (hflag.loaded hs) (h.consulted_lt_size hr) with
      ⟨xs, s₁, hevaluate, hlearns, hall, hsame⟩ | ⟨fault, s₁, p, hevaluate, hcategory, ⟨d, hd, hstale⟩, hwaits⟩
    · obtain ⟨s₂, hgather, hs₂⟩ := hk xs s₁
      refine .inl ⟨s₂, (bind_of_ok hevaluate _).trans hgather, (hflag.trans hlearns).trans hs₂.learns, rfl,
        fun d hd => ?_, fun q => ?_⟩
      · rw [(hs₂.cell d).1]
        exact hall d hd
      · rw [(hs₂.cell q).2, (hsame q).2, hpushed]
    · exact .inr ⟨fault, s₁, bind_of_error hevaluate _, hcategory, .inr ⟨d, hd, p, hflag.stale hstale, hwaits⟩⟩

end Push

/-! ### The walk -/

section Walk

variable {net : Netlist} {s s' t t' : Signals R} {r q : Ref}

/-- What is fed is no input. -/
theorem Linked.consumer_ne_input (h : net.Linked) {r d : Ref} (hd : d ∈ net.consumers r) : net.gate d ≠ .input := by
  intro hinput
  have hmem := h.mem_operands_iff.mpr hd
  rw [operands, hinput] at hmem
  cases hmem

/-- Where a pull has targets, they are the nodes that are fed. -/
theorem Linked.pullTargets_eq (h : net.Linked) {ds : List Ref} (hds : net.pullTargets r = .ok ds) :
    ds = net.consumers r := by
  unfold pullTargets at hds
  split at hds
  · exact (Except.ok.inj hds).symm
  · next a hg =>
    rw [h.rootless r a hg]
    exact (Except.ok.inj hds).symm
  · cases hds
  · split at hds
    · cases hds
    · exact (Except.ok.inj hds).symm

/-- A pull has no targets just if there is nothing to pull from, or if a connective waits for its second operand. -/
theorem blocked_of_pullTargets {fault : Fault} (s : Signals R) (hds : net.pullTargets r = .error fault) :
    fault.category = .wiring ∧ net.Blocked s r := by
  unfold pullTargets at hds
  split at hds
  · cases hds
  · cases hds
  · next hg =>
    cases hds
    exact ⟨rfl, .operand (by rw [hg]; rfl)⟩
  · next hsigmoid hcost _ =>
    split at hds
    · next hempty =>
      cases hds
      exact ⟨rfl, .consumer (List.isEmpty_iff.mp hempty) hsigmoid hcost⟩
    · cases hds

/-- Wherever a pull is let through, there is something to pull from, but for a sigmoid or a cost. -/
theorem consumers_ne_nil_of_pullTargets {ds : List Ref} (hds : net.pullTargets r = .ok ds)
    (hsigmoid : ∀ a, net.gate r ≠ .sigmoid a) (hcost : ∀ a, net.gate r ≠ .cost a) : net.consumers r ≠ [] := by
  intro hnil
  unfold pullTargets at hds
  split at hds
  · next hg => exact hsigmoid _ hg
  · next hg => exact hcost _ hg
  · cases hds
  · simp [hnil] at hds

/-- An input does not push. -/
theorem settle_input (hinput : net.gate r = .input) (s : Signals R) :
    ∃ fault s', net.pulling.settle r s = .error fault s' := by
  refine ⟨.noRule, s.update r fun c => { c with pushed := true }, ?_⟩
  show (SignalM.markPushed r >>= fun _ => net.pushGradient r) s = _
  rw [bind_of_ok (SignalM.markPushed_apply r s), pushGradient, hinput]
  rfl

/-- What is learned when a node was settled. -/
theorem push_ok (h : net.Linked) (hacyclic : net.Acyclic) (hs : s.Loaded net) (hr : r < net.size)
    (hok : net.pulling.settle r s = .ok () s') : s.Learns net s' ∧ (net.gate r).isOpen = false ∧
      (∀ d ∈ net.consulted r, (s'.cell d).signal.isSome = true) ∧
      ∀ q, (s'.cell q).pushed = ((s.cell q).pushed || q == r) := by
  by_cases hinput : net.gate r = .input
  · obtain ⟨fault, s₁, herror⟩ := settle_input hinput s
    cases herror.symm.trans hok
  · rcases push_cases h hacyclic hs hr hinput with ⟨s₁, hok', hlearns⟩ | ⟨fault, s₁, herror, -⟩
    · cases hok.symm.trans hok'
      exact hlearns
    · cases hok.symm.trans herror

theorem lawful_pulling (h : net.Linked) (hacyclic : net.Acyclic) (hs : s.Loaded net) :
    (net.pulling : Visit (Signals R)).Lawful (s.Learns net) net.size := by
  refine ⟨Subrelation.wf mem_consumers_of_before (h.wellFounded_consumers hacyclic),
    fun r d hd => h.consumer_lt_size (mem_consumers_of_before hd), fun r t t' hr ht hopen hall hok => ?_⟩
  obtain ⟨hlearns, -, -, hpushed⟩ := push_ok h hacyclic (ht.loaded hs) hr hok
  exact ⟨ht.trans hlearns, hpushed⟩

/-- The node has all its operands, and so has everything that it looks at. -/
def Answerable (net : Netlist) (s : Signals R) (q : Ref) : Prop :=
  (net.gate q).isOpen = false ∧ ∀ d ∈ net.consulted q, ∀ p, net.Stale s d p → (net.gate p).isOpen = false

/-- What a pull from `s` has noted down: what was settled, in order, and none of it for want of an operand. -/
def PullLogs (net : Netlist) (s : Signals R) (t : Signals R × List Ref) : Prop :=
  net.pulling.Logs (s.Learns net) s t ∧ net.pulling.After s t.2 ∧ ∀ q ∈ t.2, net.Answerable s q

theorem pullLogs_nil (net : Netlist) (s : Signals R) : net.PullLogs s (s, []) :=
  ⟨Visit.logs_nil (.refl net s), Visit.after_nil _ s, fun _ hq => absurd hq List.not_mem_nil⟩

/-- The walk notes down nodes that are answerable. -/
theorem lawful_logging (h : net.Linked) (hacyclic : net.Acyclic) (hs : s.Loaded net) :
    (net.pulling : Visit (Signals R)).logging.Lawful (net.PullLogs s) net.size := by
  refine (lawful_pulling h hacyclic hs).logging_after s fun r t t' hr ht hopen hall hok => ?_
  obtain ⟨hlearns, hcomplete, hknown, -⟩ := push_ok h hacyclic (ht.loaded hs) hr hok
  exact ⟨hcomplete, fun d hd p hp => (ht.trans hlearns).isOpen_eq_false (hknown d hd) hp⟩

theorem pull_eq_run (hinput : net.gate r ≠ .input) (s : Signals R) :
    net.pull r s = net.pulling.run net.size [.enter r] s := by
  unfold pull
  cases hg : net.gate r with
  | input => exact absurd hg hinput
  | _ => rfl

/-- What is exposed to a pull is downstream and has not pushed. -/
theorem feeds_of_exposed (h : (net.pulling : Visit (Signals R)).Exposed s r q) :
    net.Feeds r q ∧ (s.cell q).pushed = false :=
  ⟨Relation.ReflTransGen.mono (fun _ _ hd => mem_consumers_of_before hd) _ _ h.reaches, h.open⟩

/-- Downstream of what has pushed everything has pushed. -/
theorem pushed_of_feeds (hs : s.InOrder net) (hr : (s.cell r).pushed = true) (hq : net.Feeds r q) :
    (s.cell q).pushed = true := by
  induction hq with
  | refl => exact hr
  | tail _ hd ih => exact hs _ ih _ hd

/-- What stops a pull is a node downstream that has not pushed and is blocked. -/
theorem blocked_of_stops {fault : Fault} (h : net.Linked) (hacyclic : net.Acyclic) (hs : s.Loaded net)
    (hr : r < net.size) (hinput : net.gate r ≠ .input)
    (hstops : net.pulling.Stops (s.Learns net) (net.pulling.Exposed s r) fault s s') :
    fault.category = .wiring ∧ ∃ q, net.Feeds r q ∧ (s.cell q).pushed = false ∧ net.Blocked s q := by
  cases hstops with
  | dependencies q _ hq _ hds =>
    obtain ⟨hcategory, hblocked⟩ := blocked_of_pullTargets s hds
    exact ⟨hcategory, q, (feeds_of_exposed hq).1, (feeds_of_exposed hq).2, hblocked⟩
  | settle q t hadvances hq _ _ herror =>
    obtain ⟨hfeeds, hopen⟩ := feeds_of_exposed hq
    have hq' : q < net.size ∧ net.gate q ≠ .input := by
      cases hfeeds with
      | refl => exact ⟨hr, hinput⟩
      | tail _ hd => exact ⟨h.consumer_lt_size hd, h.consumer_ne_input hd⟩
    rcases push_cases h hacyclic (hadvances.keeps.loaded hs) hq'.1 hq'.2 with
      ⟨s₁, hok, -⟩ | ⟨fault', s₁, herror', hcategory, hwaits⟩
    · cases hok.symm.trans herror
    · cases herror'.symm.trans herror
      refine ⟨hcategory, q, hfeeds, hopen, ?_⟩
      rcases hwaits with hwaits | ⟨d, hd, p, hstale, hwaits⟩
      · exact .operand hwaits
      · exact .value d p hd (hadvances.keeps.stale hstale) hwaits

/-- A pull that returns has settled what is downstream of its node, and nothing else. -/
theorem pushed_iff_of_recurse (h : net.Linked) (hacyclic : net.Acyclic) (hs : s.Loaded net) (hr : r < net.size)
    (horder : s.InOrder net) (hok : net.pulling.recurse (lawful_pulling h hacyclic hs).wellFounded r s = .ok () s') :
    s'.InOrder net ∧ (∀ q, (s'.cell q).pushed = true ↔ (s.cell q).pushed = true ∨ net.Feeds r q) ∧
      ∀ q, net.Feeds r q → (s.cell q).pushed = false →
        ∃ ds, net.pullTargets q = .ok ds ∧ (net.pulling : Visit (Signals R)).before q = net.consumers q := by
  have hlawful := lawful_pulling (R := R) h hacyclic hs
  obtain ⟨hadvances, hsettled⟩ := hlawful.recurse_ok hr (.refl net s) hok
  have hdependencies := hlawful.recurse_dependencies hr (.refl net s) hok
  have htargets : ∀ q, (s.cell q).pushed = false → (s'.cell q).pushed = true →
      ∃ ds, net.pullTargets q = .ok ds ∧ (net.pulling : Visit (Signals R)).before q = net.consumers q := by
    intro q hq hq'
    obtain ⟨ds, hds⟩ := hdependencies q hq hq'
    exact ⟨ds, hds, (Visit.before_of_ok hds).trans (h.pullTargets_eq hds)⟩
  -- what had pushed is in order already, and the rest was settled after what it feeds
  have horder' : s'.InOrder net := by
    intro q hq' d hd
    by_cases hq : (s.cell q).pushed = true
    · exact hadvances.mono d (horder q hq d hd)
    · have hopen : (s.cell q).pushed = false := by simpa using hq
      obtain ⟨ds, -, hbefore⟩ := htargets q hopen hq'
      obtain ⟨-, -, hall⟩ := hadvances.settled q hopen hq'
      exact hall d (hbefore ▸ hd)
  refine ⟨horder', fun q => ⟨fun hq' => ?_, ?_⟩, fun q hq hopen => htargets q hopen (pushed_of_feeds horder' hsettled hq)⟩
  · by_cases hq : (s.cell q).pushed = true
    · exact .inl hq
    · have hopen : (s.cell q).pushed = false := by simpa using hq
      exact .inr (feeds_of_exposed (hadvances.settled q hopen hq').1).1
  · rintro (hq | hq)
    · exact hadvances.mono q hq
    · exact pushed_of_feeds horder' hsettled hq

/-- Noting down what it settles, a pull that returns pushes in turn, and comes to no node that is blocked. -/
theorem pushesTo_of_recurse {log : List Ref} (h : net.Linked) (hacyclic : net.Acyclic) (hs : s.Loaded net)
    (hr : r < net.size) (horder : s.InOrder net)
    (hok : net.pulling.recurse (lawful_pulling h hacyclic hs).wellFounded r s = .ok () s')
    (hlog : net.pulling.logging.recurse (lawful_logging h hacyclic hs).wellFounded r (s, []) = .ok () (s', log)) :
    net.PushesTo r s log s' ∧ ∀ q, net.Feeds r q → (s.cell q).pushed = false → ¬net.Blocked s q := by
  obtain ⟨horder', hpushed, htargets⟩ := pushed_iff_of_recurse h hacyclic hs hr horder hok
  obtain ⟨⟨hlogs, hafter, hall⟩, -, -⟩ := ((lawful_logging h hacyclic hs).recurse_ok hr (net.pullLogs_nil s) hlog).1
  have hmem : ∀ q, q ∈ log ↔ net.Feeds r q ∧ (s.cell q).pushed = false := by
    intro q
    have hiff : q ∈ log ↔ (s.cell q).pushed = false ∧ (s'.cell q).pushed = true := hlogs.mem_iff q
    rw [hiff, hpushed]
    constructor
    · rintro ⟨hopen, hq | hq⟩
      · simp [hopen] at hq
      · exact ⟨hq, hopen⟩
    · exact fun ⟨hq, hopen⟩ => ⟨hopen, .inr hq⟩
  refine ⟨⟨hlogs.nodup, hmem, fun earlier q later heq d hd => ?_, hpushed, horder'⟩, fun q hq hopen hblocked => ?_⟩
  · obtain ⟨hq, hopen⟩ := (hmem q).mp (heq ▸ List.mem_append_right earlier List.mem_cons_self)
    obtain ⟨ds, -, hbefore⟩ := htargets q hq hopen
    exact hafter earlier q later heq d (hbefore ▸ hd)
  · obtain ⟨hcomplete, hanswers⟩ := hall q ((hmem q).mpr ⟨hq, hopen⟩)
    cases hblocked with
    | consumer hnil hsigmoid hcost =>
      obtain ⟨ds, hds, -⟩ := htargets q hq hopen
      exact consumers_ne_nil_of_pullTargets hds hsigmoid hcost hnil
    | operand hwaits => simp [hcomplete] at hwaits
    | value d p hd hstale hwaits => simp [hanswers d hd p hstale] at hwaits

/-- Pulling a gradient by a walk is pulling it recursively, with the same pushes in the same order, the same outcome and
the same signals afterwards.  It stops just if a node that it comes to is blocked, and then for a fault of the wiring.
If it returns, then just the nodes downstream have pushed in addition, each of them once and after those that it feeds. -/
theorem pull_recursively (h : net.Built) (hacyclic : net.Acyclic) (hs : s.Loaded net) (hr : r < net.size)
    (hinput : net.gate r ≠ .input) (horder : s.InOrder net) :
    net.pulling.logging.run net.size [.enter r] (s, []) =
      net.pullBack (h.linked.wellFounded_consumers hacyclic) r (s, []) ∧
    net.pull r s = Visit.unlogged (net.pullBack (h.linked.wellFounded_consumers hacyclic) r (s, [])) ∧
    (∀ fault s', net.pull r s = .error fault s' → fault.category = .wiring) ∧
    ((∃ fault s', net.pull r s = .error fault s') ↔
      ∃ q, net.Feeds r q ∧ (s.cell q).pushed = false ∧ net.Blocked s q) ∧
    ∀ s', net.pull r s = .ok () s' →
      ∃ log, net.pullBack (h.linked.wellFounded_consumers hacyclic) r (s, []) = .ok () (s', log) ∧
        net.PushesTo r s log s' := by
  have hlinked := h.linked
  have hlawful := lawful_pulling (R := R) hlinked hacyclic hs
  have hlogging := lawful_logging (R := R) hlinked hacyclic hs
  have hrun : net.pull r s = net.pulling.recurse hlawful.wellFounded r s :=
    (pull_eq_run hinput s).trans (hlawful.run_eq_recurse hr (.refl net s))
  have hlogged := hlogging.run_eq_recurse hr (net.pullLogs_nil s)
  have hback := recurse_eq_pullBack (hlinked.wellFounded_consumers hacyclic) hlogging.wellFounded r (s, [])
  have hunlogged : net.pull r s = Visit.unlogged (net.pullBack (hlinked.wellFounded_consumers hacyclic) r (s, [])) := by
    rw [← hback, ← hlogged, Visit.unlogged_run]
    exact pull_eq_run hinput s
  have hreturns : ∀ s', net.pull r s = .ok () s' →
      ∃ log, net.pullBack (hlinked.wellFounded_consumers hacyclic) r (s, []) = .ok () (s', log) ∧
        net.PushesTo r s log s' ∧ ∀ q, net.Feeds r q → (s.cell q).pushed = false → ¬net.Blocked s q := by
    intro s' hok
    cases hpull : net.pullBack (hlinked.wellFounded_consumers hacyclic) r (s, []) with
    | error fault t =>
      rw [hunlogged, hpull] at hok
      cases hok
    | ok u t =>
      rw [hunlogged, hpull] at hok
      cases hok
      have hok : net.pull r s = .ok () t.1 := by
        rw [hunlogged, hpull]
        rfl
      exact ⟨t.2, rfl, pushesTo_of_recurse hlinked hacyclic hs hr horder (hrun.symm.trans hok) (hback.trans hpull)⟩
  have hstops : ∀ fault s', net.pull r s = .error fault s' → fault.category = .wiring ∧
      ∃ q, net.Feeds r q ∧ (s.cell q).pushed = false ∧ net.Blocked s q := fun fault s' herror =>
    blocked_of_stops hlinked hacyclic hs hr hinput (hlawful.recurse_error hr (.refl net s) (hrun.symm.trans herror))
  refine ⟨hlogged.trans hback, hunlogged, fun fault s' herror => (hstops fault s' herror).1, ⟨?_, ?_⟩, fun s' hok => ?_⟩
  · rintro ⟨fault, s', herror⟩
    exact (hstops fault s' herror).2
  · rintro ⟨q, hq, hopen, hblocked⟩
    cases hpull : net.pull r s with
    | error fault s' => exact ⟨fault, s', rfl⟩
    | ok u s' =>
      obtain ⟨log, -, -, hnone⟩ := hreturns s' hpull
      exact absurd hblocked (hnone q hq hopen)
  · obtain ⟨log, hback, hpushes, -⟩ := hreturns s' hok
    exact ⟨log, hback, hpushes⟩

end Walk

/-! ### Untouched signals -/

theorem loaded_fresh (net : Netlist) : (Signals.fresh net : Signals R).Loaded net := by
  refine ⟨Signals.size_fresh net, fun r hinput => ?_⟩
  rw [Signals.cell_fresh (lt_size_of_gate (by rw [hinput]; exact Gate.noConfusion)), hinput]
  rfl

theorem inOrder_fresh (net : Netlist) : (Signals.fresh net : Signals R).InOrder net := by
  intro q hq
  by_cases hlt : q < net.size
  · rw [Signals.cell_fresh hlt] at hq
    cases hq
  · have hnone : (Signals.fresh net : Signals R).cells[q]? = none :=
      Array.getElem?_eq_none (by rw [Signals.size_fresh]; exact Nat.le_of_not_lt hlt)
    rw [Signals.cell, Array.getD_eq_getD_getElem?, hnone] at hq
    cases hq

/-- A connective reads one sigmoid twice, and a cost reads the connective; beside them a negation waits. -/
def squaredSigmoid : Netlist :=
  ⟨#[⟨0, .input, [1]⟩, ⟨1, .sigmoid 0, [2, 2]⟩, ⟨2, .binary .and 1 (some 1), [3]⟩, ⟨3, .cost 2, []⟩,
    ⟨4, .not none, []⟩]⟩

theorem built_squaredSigmoid : squaredSigmoid.Built := by
  have h₁ : Built ⟨#[⟨0, .input, []⟩]⟩ := .add .empty .input (by decide) (show empty.add 0 .input = _ from rfl)
  have h₂ := h₁.add (.sigmoid 0) (by decide) (show add _ 1 (.sigmoid 0) = _ from rfl)
  have h₃ := h₂.add (.binary .and 1) (by decide) (show add _ 2 (.binary .and 1 none) = _ from rfl)
  have h₄ := h₃.addOperand (by decide) (show addOperand _ 2 1 = _ from rfl)
  have h₅ := h₄.add (.cost 2) (by decide) (show add _ 3 (.cost 2) = _ from rfl)
  exact h₅.add .not (by decide) (show add _ 4 (.not none) = _ from rfl)

/-- The sigmoid is pulled twice by the connective, and pushes once, after it. -/
theorem pull_squaredSigmoid : ∃ s', squaredSigmoid.pull 1 (.fresh squaredSigmoid : Signals Extended) = .ok () s' ∧
    squaredSigmoid.PushesTo 1 (.fresh squaredSigmoid) [3, 2, 1] s' := by
  obtain ⟨hrun, hpull, -, -, hreturns⟩ := pull_recursively built_squaredSigmoid
    (layered_of_lt (by decide) (by decide)).acyclic (loaded_fresh squaredSigmoid)
    (show 1 < squaredSigmoid.size by decide) (by decide) (inOrder_fresh (R := Extended) squaredSigmoid)
  have hok : (answer (squaredSigmoid.pull 1 (.fresh squaredSigmoid : Signals Extended))).isSome = true := by
    decide +kernel
  have hlog : (left (squaredSigmoid.pulling.logging.run squaredSigmoid.size [.enter 1]
      ((.fresh squaredSigmoid : Signals Extended), []))).2 = [3, 2, 1] := by
    decide +kernel
  cases hs' : squaredSigmoid.pull 1 (.fresh squaredSigmoid : Signals Extended) with
  | error fault s' => rw [hs'] at hok; cases hok
  | ok u s' =>
    obtain ⟨log, hback, hpushes⟩ := hreturns s' hs'
    rw [hrun, hback] at hlog
    exact ⟨s', rfl, hlog ▸ hpushes⟩

end Netlist

end SoftLogic
