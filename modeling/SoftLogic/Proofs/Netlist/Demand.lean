import Mathlib.Order.WellFoundedSet
import SoftLogic.Netlist.Evaluation
import SoftLogic.Proofs.Netlist.Pristine
import SoftLogic.Proofs.Netlist.Recursion
import SoftLogic.Proofs.Scalar

/-!
# Evaluation on demand

Evaluating a node by a walk is the recursion that anyone would write down: take the signal if it is known; otherwise
demand the operands, the last one first, compute the value and store it (`Netlist.demand`).  The two agree on every
acyclic netlist, whatever is known and however many gates wait for an operand (`Netlist.evaluateBy_eq_demand`), also
if the rule of a node evaluates its operands once more.

`Netlist.Stale` are the nodes that an evaluation has to compute.  It stops at a gate that waits for an operand if one of
them does, and it changes nothing but their signals (`Netlist.Supplies`).
-/

namespace SoftLogic

open Effect

variable {R : Type} [Scalar R]

/-! ### Netlists and signals -/

namespace Netlist

/-- Nodes of the kinds that carry a signal, each of which reads nodes, and none of which depends on itself.  Gates may
wait for operands. -/
structure Layered (net : Netlist) : Prop where
  kind : ∀ r < net.size, net.gate r ≠ .plain
  operand : ∀ r, ∀ d ∈ net.operands r, d < net.size
  acyclic : ∀ r, ¬Relation.TransGen (fun d m => d ∈ net.operands m) r r

/-- Among finitely many nodes, no chain goes on forever that never comes back. -/
theorem wellFounded_of_acyclic {link : Ref → Ref → Prop} {size : Nat} (hacyclic : ∀ r, ¬Relation.TransGen link r r)
    (hlt : ∀ d r, link d r → d < size ∧ r < size) : WellFounded link := by
  have : IsStrictOrder Ref (Relation.TransGen link) := { irrefl := hacyclic, trans := fun _ _ _ => .trans }
  have hwf := Set.wellFoundedOn_iff.mp ((Finset.range size).wellFoundedOn (r := Relation.TransGen link))
  refine Subrelation.wf (fun {d r} hd => ?_) hwf
  obtain ⟨hd', hr⟩ := hlt d r hd
  exact ⟨.single hd, Finset.mem_coe.mpr (Finset.mem_range.mpr hd'), Finset.mem_coe.mpr (Finset.mem_range.mpr hr)⟩

/-- In a finite netlist without cycles, no chain of operands goes on forever. -/
theorem Layered.wellFounded {net : Netlist} (h : net.Layered) : WellFounded fun d r => d ∈ net.operands r :=
  wellFounded_of_acyclic h.acyclic fun d r hd => ⟨h.operand r d hd, lt_size_of_mem_operands hd⟩

/-- Where each node reads lower ones only, none depends on itself. -/
theorem layered_of_lt {net : Netlist} (hkind : ∀ r < net.size, net.gate r ≠ .plain)
    (hlt : ∀ r < net.size, ∀ d ∈ net.operands r, d < r) : net.Layered := by
  have hoperand : ∀ r, ∀ d ∈ net.operands r, d < r ∧ r < net.size := by
    intro r d hd
    have hr : r < net.size := lt_size_of_mem_operands hd
    exact ⟨hlt r hr d hd, hr⟩
  refine ⟨hkind, fun r d hd => Nat.lt_trans (hoperand r d hd).1 (hoperand r d hd).2, fun r hpath => ?_⟩
  have hdown : ∀ {d m : Ref}, Relation.TransGen (fun d m => d ∈ net.operands m) d m → d < m := by
    intro d m hpath
    induction hpath with
    | single hd => exact (hoperand _ _ hd).1
    | tail _ hd ih => exact Nat.lt_trans ih (hoperand _ _ hd).1
  exact Nat.lt_irrefl r (hdown hpath)

end Netlist

/-- There is a cell for each node, and each input holds a value. -/
structure Signals.Loaded (net : Netlist) (s : Signals R) : Prop where
  size : s.cells.size = net.size
  held : ∀ r, net.gate r = .input → (s.cell r).signal.isSome = true

/-- Nothing differs between `s` and `t` but signals that were not known in `s`. -/
structure Signals.Completes (s t : Signals R) : Prop where
  size : t.cells.size = s.cells.size
  cell : ∀ q, t.cell q = s.cell q ∨
    (s.cell q).signal = none ∧ ∃ x, t.cell q = { s.cell q with signal := some x }

namespace Signals.Completes

variable {s t : Signals R}

theorem refl (s : Signals R) : s.Completes s := ⟨rfl, fun _ => .inl rfl⟩

theorem known (h : s.Completes t) {q : Ref} (hq : (s.cell q).signal.isSome = true) : t.cell q = s.cell q := by
  rcases h.cell q with heq | ⟨hnone, -⟩
  · exact heq
  · simp [hnone] at hq

theorem store (h : s.Completes t) {r : Ref} (hr : r < t.cells.size) (hopen : (t.cell r).signal = none) (x : R) :
    s.Completes (t.update r fun c => { c with signal := some x }) := by
  refine ⟨by rw [Signals.size_update, h.size], fun q => ?_⟩
  rw [Signals.cell_update t r q _ hr]
  split
  · next hqr =>
    subst hqr
    rcases h.cell q with heq | ⟨-, y, hy⟩
    · exact .inr ⟨heq ▸ hopen, x, by rw [heq]⟩
    · simp [hy] at hopen
  · exact h.cell q

end Signals.Completes

namespace Netlist

/-- The node is not known, and it lies beneath `r` with no known node on some way to it. -/
def Stale (net : Netlist) (s : Signals R) (r q : Ref) : Prop :=
  (s.cell r).signal = none ∧
    Relation.ReflTransGen (fun m d => d ∈ net.operands m ∧ (s.cell d).signal = none) r q

/-- The signals of `log` were stored, each once, and all of them had to be computed for `r`; nothing else was
changed. -/
structure Supplies (net : Netlist) (r : Ref) (s : Signals R) (log : List Ref) (s' : Signals R) : Prop where
  nodup : log.Nodup
  size : s'.cells.size = s.cells.size
  stale : ∀ q ∈ log, net.Stale s r q ∧ net.gate q ≠ .input
  stored : ∀ q ∈ log, ∃ x, s'.cell q = { s.cell q with signal := some x }
  kept : ∀ q, q ∉ log → s'.cell q = s.cell q

/-- Takes the signal of a node if it is known, or demands its operands, the last one first, computes it and stores it. -/
def demand (net : Netlist) (h : WellFounded fun d r => d ∈ net.operands r) (r : Ref) : SignalM R R := do
  match ((← get).cell r).signal with
  | some x => return x
  | none =>
    (net.operands r).attach.reverse.forM fun d => discard (net.demand h d.1)
    let x ← net.compute r
    SignalM.store r x
    return x
termination_by h.wrap r
decreasing_by exact d.2

section Demand

variable {net : Netlist} {r : Ref} {s : Signals R} {x : R} (h : WellFounded fun d r => d ∈ net.operands r)

theorem demand_of_known (hx : (s.cell r).signal = some x) : net.demand h r s = .ok x s := by
  rw [demand, get_bind]
  simp only [hx]
  rfl

theorem demand_of_unknown (hx : (s.cell r).signal = none) : net.demand h r s =
    ((net.operands r).reverse.forM (fun d => discard (net.demand h d)) >>= fun _ =>
      net.compute r >>= fun x => SignalM.store r x >>= fun _ => pure x) s := by
  rw [demand, get_bind]
  simp only [hx]
  show ((net.operands r).attach.reverse.forM (fun d => discard (net.demand h d.1)) >>= fun _ => _) s = _
  rw [Visit.forM_attach_reverse (net.operands r) fun d => discard (net.demand h d)]

end Demand

/-! ### Rules that read their operands -/

/-- The value of a node whose operands are read with `read`. -/
def computeBy (net : Netlist) (read : Ref → SignalM R R) (r : Ref) : SignalM R R := do
  match net.gate r with
  | .plain | .input => throw .noRule
  | .sigmoid a => return Scalar.sigmoid (← read a)
  | .not none => throw (.operandMissing (net.id r))
  | .not (some a) => return 1 - (← read a)
  | .binary op _ none => throw (.secondMissing (net.id r) op.symbol)
  | .binary op a (some b) =>
    let x ← read a
    let y ← read b
    return op.apply x y
  | .cost a => return -Scalar.log (← read a)

/-- The walk that evaluates, where the rules read operands with `read`. -/
def evaluationBy (net : Netlist) (read : Ref → SignalM R R) : Visit (Signals R) where
  settled s r := (s.cell r).signal.isSome
  dependencies r := .ok (net.operands r)
  settle r := do SignalM.store r (← net.computeBy read r)

/-- Evaluates a node, where the rules read operands with `read`. -/
def evaluateBy (net : Netlist) (read : Ref → SignalM R R) (r : Ref) : SignalM R R := do
  (net.evaluationBy read).run net.size [.enter r]
  SignalM.known r

/-- What is known is read as it is. -/
def ReadsKnown (read : Ref → SignalM R R) : Prop :=
  ∀ d s x, (s.cell d).signal = some x → read d s = .ok x s

theorem readsKnown_known : ReadsKnown (SignalM.known : Ref → SignalM R R) := fun _ _ _ => SignalM.known_of_some

/-- A rule may as well evaluate its operands. -/
theorem readsKnown_evaluate (net : Netlist) : ReadsKnown (net.evaluate : Ref → SignalM R R) :=
  fun _ _ _ => evaluate_of_known

theorem evaluateBy_known (net : Netlist) (r : Ref) : net.evaluateBy SignalM.known r = (net.evaluate r : SignalM R R) :=
  rfl

section Rules

variable {net : Netlist} {r : Ref} {t : Signals R}

/-- A gate that waits for an operand has no value. -/
theorem computeBy_of_isOpen (hopen : (net.gate r).isOpen = true) :
    ∃ fault : Fault, fault.category = .wiring ∧ ∀ (read : Ref → SignalM R R) t,
      net.computeBy read r t = .error fault t := by
  unfold computeBy
  cases hg : net.gate r with
  | not a =>
    cases a with
    | none => exact ⟨_, rfl, fun _ _ => rfl⟩
    | some a => simp [hg, Gate.isOpen] at hopen
  | binary op a b =>
    cases b with
    | none => exact ⟨_, rfl, fun _ _ => rfl⟩
    | some b => simp [hg, Gate.isOpen] at hopen
  | _ => simp [hg, Gate.isOpen] at hopen

/-- Where all operands are known, any other node that is computed has a value, in whatever way they are read. -/
theorem computeBy_of_known (hplain : net.gate r ≠ .plain) (hinput : net.gate r ≠ .input)
    (hopen : (net.gate r).isOpen = false) (hall : ∀ d ∈ net.operands r, (t.cell d).signal.isSome = true) :
    ∃ x, ∀ read, ReadsKnown read → net.computeBy read r t = .ok x t := by
  have hoperand : ∀ d ∈ net.operands r, ∃ x, ∀ read : Ref → SignalM R R, ReadsKnown read →
      read d t = .ok x t := by
    intro d hd
    obtain ⟨x, hx⟩ := Option.isSome_iff_exists.mp (hall d hd)
    exact ⟨x, fun read hread => hread d t x hx⟩
  unfold operands at hoperand
  unfold computeBy
  cases hg : net.gate r with
  | plain => exact absurd hg hplain
  | input => exact absurd hg hinput
  | sigmoid a | cost a =>
    obtain ⟨x, hx⟩ := hoperand a (by simp [hg])
    exact ⟨_, fun read hread => bind_of_ok (hx read hread) _⟩
  | not a =>
    cases a with
    | none => simp [hg, Gate.isOpen] at hopen
    | some a =>
      obtain ⟨x, hx⟩ := hoperand a (by simp [hg])
      exact ⟨_, fun read hread => bind_of_ok (hx read hread) _⟩
  | binary op a b =>
    cases b with
    | none => simp [hg, Gate.isOpen] at hopen
    | some b =>
      obtain ⟨x, hx⟩ := hoperand a (by simp [hg])
      obtain ⟨y, hy⟩ := hoperand b (by simp [hg])
      exact ⟨_, fun read hread => (bind_of_ok (hx read hread) _).trans (bind_of_ok (hy read hread) _)⟩

/-- Settling a gate that waits for an operand changes nothing. -/
theorem settle_of_isOpen (read : Ref → SignalM R R) (hopen : (net.gate r).isOpen = true) (t : Signals R) :
    ∃ fault : Fault, fault.category = .wiring ∧ (net.evaluationBy read).settle r t = .error fault t := by
  obtain ⟨fault, hcategory, hfault⟩ := computeBy_of_isOpen (R := R) hopen
  exact ⟨fault, hcategory, bind_of_error (hfault read t) _⟩

end Rules

/-! ### The walk -/

section Walk

variable {net : Netlist} {read : Ref → SignalM R R} {r q : Ref} {s t t' : Signals R} {x : R}

theorem dependencies_evaluationBy : (net.evaluationBy read).dependencies r = .ok (net.operands r) := rfl

theorem isSome_eq_false_iff {α : Type} {o : Option α} : o.isSome = false ↔ o = none := by simp

theorem stale_iff_exposed : net.Stale s r q ↔ net.evaluation.Exposed s r q := by
  have hstep : (fun m d => d ∈ net.operands m ∧ (s.cell d).signal = none) =
      fun m d => d ∈ net.operands m ∧ (s.cell d).signal.isSome = false := by
    simp only [isSome_eq_false_iff]
  unfold Stale
  rw [hstep, ← isSome_eq_false_iff]
  rfl

/-- A node that is not known after some signals were computed is no input. -/
theorem gate_ne_input (hs : s.Loaded net) (ht : s.Completes t) (hopen : (t.cell r).signal = none) :
    net.gate r ≠ .input := by
  intro hinput
  have hheld := hs.held r hinput
  rw [← ht.known hheld, hopen] at hheld
  cases hheld

/-- A node that is settled after its operands was computed and stored, or it waits for an operand. -/
theorem settle_cases (h : net.Layered) (hs : s.Loaded net) (hread : ReadsKnown read) (ht : s.Completes t)
    (hr : r < net.size) (hopen : (t.cell r).signal = none)
    (hall : ∀ d ∈ net.operands r, (t.cell d).signal.isSome = true) :
    ((net.gate r).isOpen = false ∧ ∃ x, net.compute r t = .ok x t ∧ (net.evaluationBy read).settle r t =
      .ok () (t.update r fun c => { c with signal := some x })) ∨
    ((net.gate r).isOpen = true ∧ ∃ fault : Fault, fault.category = .wiring ∧ net.compute r t = .error fault t ∧
      (net.evaluationBy read).settle r t = .error fault t) := by
  cases hwaits : (net.gate r).isOpen with
  | false =>
    obtain ⟨x, hx⟩ := computeBy_of_known (h.kind r hr) (gate_ne_input hs ht hopen) hwaits hall
    exact .inl ⟨rfl, x, hx _ readsKnown_known, bind_of_ok (hx read hread) _⟩
  | true =>
    obtain ⟨fault, hcategory, hfault⟩ := computeBy_of_isOpen (R := R) hwaits
    exact .inr ⟨rfl, fault, hcategory, hfault SignalM.known t, bind_of_error (hfault read t) _⟩

theorem settled_update (hr : r < t.cells.size) (q : Ref) :
    (net.evaluationBy read).settled (t.update r fun c => { c with signal := some x }) q =
      ((net.evaluationBy read).settled t q || q == r) := by
  show ((t.update r _).cell q).signal.isSome = ((t.cell q).signal.isSome || q == r)
  rw [Signals.cell_update t r q _ hr]
  split
  · next hqr => simp [hqr]
  · next hqr => simp [hqr]

theorem lawful_evaluationBy (h : net.Layered) (hs : s.Loaded net) (hread : ReadsKnown read) :
    (net.evaluationBy read).Lawful s.Completes net.size := by
  refine ⟨h.wellFounded, h.operand, fun r t t' hr ht hopen hall hok => ?_⟩
  have hnone := isSome_eq_false_iff.mp hopen
  rcases settle_cases h hs hread ht hr hnone hall with ⟨-, x, -, hsettle⟩ | ⟨-, fault, -, -, hsettle⟩
  · rw [hsettle] at hok
    cases hok
    have hlt : r < t.cells.size := by rw [ht.size, hs.size]; exact hr
    exact ⟨ht.store hlt hnone x, settled_update hlt⟩
  · rw [hsettle] at hok
    cases hok

/-- To compute and store the value of a node whose operands are known is to settle it and look at its signal. -/
theorem compute_store_eq_settle (h : net.Layered) (hs : s.Loaded net) (hread : ReadsKnown read) (ht : s.Completes t)
    (hr : r < net.size) (hopen : (t.cell r).signal = none)
    (hall : ∀ d ∈ net.operands r, (t.cell d).signal.isSome = true) :
    (net.compute r >>= fun x => SignalM.store r x >>= fun _ => pure x) t =
      ((net.evaluationBy read).settle r >>= fun _ => SignalM.known r) t := by
  rcases settle_cases h hs hread ht hr hopen hall with
    ⟨-, x, hcompute, hsettle⟩ | ⟨-, fault, -, hcompute, hsettle⟩
  · have hlt : r < t.cells.size := by rw [ht.size, hs.size]; exact hr
    rw [bind_of_ok hcompute, bind_of_ok (SignalM.store_apply r x t), bind_of_ok hsettle,
      SignalM.known_of_some (by rw [Signals.cell_update t r r _ hlt, if_pos rfl])]
    rfl
  · rw [bind_of_error hcompute, bind_of_error hsettle]

/-- Without its result, demanding a node is the recursion that the walk is, if it is that with a look at the signal. -/
theorem discard_demand (h : net.Layered) (hlawful : (net.evaluationBy read).Lawful s.Completes net.size)
    (hr : r < net.size) (ht : s.Completes t) (hdemand : net.demand h.wellFounded r t =
      ((net.evaluationBy read).recurse hlawful.wellFounded r >>= fun _ => SignalM.known r) t) :
    (discard (net.demand h.wellFounded r) : SignalM R Unit) t =
      (net.evaluationBy read).recurse hlawful.wellFounded r t := by
  show (net.demand h.wellFounded r >>= fun _ => pure ()) t = _
  cases hrecurse : (net.evaluationBy read).recurse hlawful.wellFounded r t with
  | error fault t' => rw [bind_of_error (hdemand.trans (bind_of_error hrecurse _))]
  | ok u t' =>
    obtain ⟨x, hx⟩ := Option.isSome_iff_exists.mp (hlawful.recurse_ok hr ht hrecurse).2
    rw [bind_of_ok (hdemand.trans ((bind_of_ok hrecurse _).trans (SignalM.known_of_some hx)))]
    rfl

/-- The recursion that the walk is, and then a look at the signal, is the demand. -/
theorem demand_eq_recurse (h : net.Layered) (hs : s.Loaded net) (hread : ReadsKnown read) (hr : r < net.size)
    (ht : s.Completes t) : net.demand h.wellFounded r t =
      ((net.evaluationBy read).recurse (lawful_evaluationBy h hs hread).wellFounded r >>= fun _ =>
        SignalM.known r) t := by
  have hlawful := lawful_evaluationBy h hs hread
  induction r using h.wellFounded.induction generalizing t with
  | _ r ih =>
    cases hsignal : (t.cell r).signal with
    | some x =>
      have hrecurse := Visit.recurse_of_settled hlawful.wellFounded (Option.isSome_iff_exists.mpr ⟨x, hsignal⟩)
      rw [demand_of_known _ hsignal, bind_of_ok hrecurse, SignalM.known_of_some hsignal]
    | none =>
      have hopen : (net.evaluationBy read).settled t r = false := isSome_eq_false_iff.mpr hsignal
      have hlt : ∀ d ∈ (net.operands r).reverse, d < net.size := fun d hd => h.operand r d (List.mem_reverse.mp hd)
      have hloop : (net.operands r).reverse.forM (fun d => discard (net.demand h.wellFounded d)) t =
          (net.operands r).reverse.forM ((net.evaluationBy read).recurse hlawful.wellFounded) t := by
        refine forM_congr (fun d hd t ht => ?_) (fun d hd t t' ht hok => ?_) ht
        · exact discard_demand h hlawful (hlt d hd) ht (ih d (List.mem_reverse.mp hd) (hlt d hd) ht)
        · exact (hlawful.recurse_ok (hlt d hd) ht hok).1.keeps
      have hrecurse := Visit.recurse_of_ok hlawful.wellFounded hopen dependencies_evaluationBy
      rw [demand_of_unknown _ hsignal]
      cases hwalk : (net.operands r).reverse.forM ((net.evaluationBy read).recurse hlawful.wellFounded) t with
      | error fault t₁ =>
        rw [bind_of_error (hloop.trans hwalk), bind_of_error (hrecurse.trans (bind_of_error hwalk _))]
      | ok u t₁ =>
        rw [bind_of_ok hwalk] at hrecurse
        obtain ⟨hadvances, hopen₁, hall⟩ := hlawful.recurse_before hopen ht hwalk
        rw [bind_of_ok (hloop.trans hwalk), compute_store_eq_settle h hs hread hadvances.keeps hr
          (isSome_eq_false_iff.mp hopen₁) hall, bind_apply, bind_apply, hrecurse]

/-- Evaluating is demanding, in whatever way the rules read operands that are known. -/
theorem evaluateBy_eq_demand (h : net.Layered) (hs : s.Loaded net) (hread : ReadsKnown read) (hr : r < net.size) :
    net.evaluateBy read r s = net.demand h.wellFounded r s := by
  have hlawful := lawful_evaluationBy h hs hread
  rw [demand_eq_recurse h hs hread hr (.refl s), evaluateBy, bind_apply, bind_apply,
    hlawful.run_eq_recurse hr (.refl s)]

theorem lawful_evaluation (h : net.Layered) (hs : s.Loaded net) :
    (net.evaluation : Visit (Signals R)).Lawful s.Completes net.size := lawful_evaluationBy h hs readsKnown_known

/-- A node that could not be settled was not touched, and neither was any other. -/
theorem of_settle_error {fault : Fault} (herror : net.evaluation.settle r t = .error fault t') : t' = t := by
  change (net.compute r >>= fun x => SignalM.store r x) t = _ at herror
  have hkeeps : Keeps (· = t) (net.compute r) := keeps_compute net r
  cases hcompute : net.compute r t with
  | ok x t₁ =>
    rw [bind_of_ok hcompute] at herror
    cases herror
  | error fault' t₁ =>
    rw [bind_of_error hcompute] at herror
    cases herror
    exact hkeeps.error rfl hcompute

/-- An evaluation returns after it has settled its node, or stops at a gate that waits for an operand. -/
theorem evaluate_cases (h : net.Layered) (hs : s.Loaded net) (hr : r < net.size) :
    (∃ x s', net.evaluate r s = .ok x s' ∧ net.evaluation.Advances s.Completes (net.evaluation.Exposed s r) s s' ∧
      net.evaluation.settled s' r = true) ∨
    ∃ fault s' q, net.evaluate r s = .error fault s' ∧ fault.category = .wiring ∧ net.Stale s r q ∧
      (net.gate q).isOpen = true := by
  have hlawful := lawful_evaluation h hs
  have hrun := hlawful.run_eq_recurse hr (.refl s)
  cases hrecurse : net.evaluation.recurse hlawful.wellFounded r s with
  | ok u s' =>
    obtain ⟨hadvances, hsettled⟩ := hlawful.recurse_ok hr (.refl s) hrecurse
    obtain ⟨x, hx⟩ := Option.isSome_iff_exists.mp hsettled
    exact .inl ⟨x, s', (bind_of_ok (hrun.trans hrecurse) _).trans (SignalM.known_of_some hx), hadvances, hsettled⟩
  | error fault s' =>
    have herror : net.evaluate r s = .error fault s' := bind_of_error (hrun.trans hrecurse) _
    cases hlawful.recurse_error hr (.refl s) hrecurse with
    | dependencies q _ _ _ hds => cases hds
    | settle q t hadvances hq hopen hall hfault =>
      have hlt : q < net.size := hlawful.lt_size_of_reaches hr hq.reaches
      rcases settle_cases h hs readsKnown_known hadvances.keeps hlt (isSome_eq_false_iff.mp hopen) hall with
        ⟨-, x, -, hsettle⟩ | ⟨hwaits, fault', hcategory, -, hsettle⟩
      · cases hsettle.symm.trans hfault
      · cases hsettle.symm.trans hfault
        exact .inr ⟨fault, s', q, herror, hcategory, stale_iff_exposed.mpr hq, hwaits⟩

theorem left_evaluate (net : Netlist) (r : Ref) (s : Signals R) :
    left (net.evaluate r s) = left (net.evaluation.run net.size [.enter r] s) := by
  unfold evaluate
  cases hrun : net.evaluation.run net.size [.enter r] s with
  | ok u s' =>
    rw [bind_of_ok hrun]
    exact (keeps_known (I := (· = s')) r).left rfl
  | error fault s' =>
    rw [bind_of_error hrun]
    rfl

/-- Noting down what it settles, an evaluation leaves the same signals, and nodes that had to be settled. -/
theorem exists_log (h : net.Layered) (hs : s.Loaded net) (hr : r < net.size) :
    ∃ log, left (net.evaluation.logging.run net.size [.enter r] (s, [])) = (left (net.evaluate r s), log) ∧
      net.evaluation.logging.Advances (net.evaluation.Logs s.Completes s) (net.evaluation.logging.Exposed (s, []) r)
        (s, []) (left (net.evaluate r s), log) := by
  have hlogging := (lawful_evaluation h hs).logging s
  have hsettle : ∀ q (t : Signals R × List Ref) fault t', net.evaluation.logging.settle q t = .error fault t' →
      t' = t := by
    intro q t fault t' herror
    obtain ⟨hfault, hlog⟩ := Visit.of_logging_settle_error herror
    exact Prod.ext (of_settle_error hfault) hlog
  have hadvances := hlogging.advances_left hsettle hr (Visit.logs_nil (.refl s))
  obtain ⟨log, hlog⟩ : ∃ log,
      left (net.evaluation.logging.run net.size [.enter r] (s, [])) = (left (net.evaluate r s), log) := by
    refine ⟨_, Prod.ext ?_ rfl⟩
    rw [← Visit.left_unlogged, Visit.unlogged_run, left_evaluate]
  rw [hlog] at hadvances
  exact ⟨log, hlog, hadvances⟩

/-- The notes of an evaluation say what it stored. -/
theorem supplies_of_advances {log : List Ref} (hs : s.Loaded net)
    (hadvances : net.evaluation.logging.Advances (net.evaluation.Logs s.Completes s)
      (net.evaluation.logging.Exposed (s, []) r) (s, []) (t, log)) : net.Supplies r s log t := by
  obtain ⟨⟨hcompletes, -, hnodup, hmem⟩, -, hsettled⟩ := hadvances
  refine ⟨hnodup, hcompletes.size, fun q hq => ?_, fun q hq => ?_, fun q hq => ?_⟩
  · obtain ⟨hopen, hknown⟩ := (hmem q).mp hq
    refine ⟨stale_iff_exposed.mpr (hsettled q hopen hknown).1, ?_⟩
    exact gate_ne_input hs (.refl s) (isSome_eq_false_iff.mp hopen)
  · obtain ⟨hopen, hknown⟩ := (hmem q).mp hq
    rcases hcompletes.cell q with heq | ⟨-, hstored⟩
    · cases hopen.symm.trans ((congrArg (fun c : Cell R => c.signal.isSome) heq).symm.trans hknown)
    · exact hstored
  · rcases hcompletes.cell q with heq | ⟨hnone, x, hx⟩
    · exact heq
    · have hknown : (t.cell q).signal.isSome = true := by rw [hx]; rfl
      exact absurd ((hmem q).mpr ⟨isSome_eq_false_iff.mpr hnone, hknown⟩) hq

/-- Evaluating a node by a walk is demanding it, with the same outcome and the same signals afterwards, also if the
rules evaluate operands in turn.  It stops just if one of the stale nodes waits for an operand, and then for that reason.
It stores the signals of stale nodes alone, each once, and those of all of them if it returns. -/
theorem evaluate_on_demand (h : net.Layered) (hs : s.Loaded net) (hr : r < net.size) :
    net.evaluate r s = net.demand h.wellFounded r s ∧
    net.evaluateBy net.evaluate r s = net.demand h.wellFounded r s ∧
    (∀ fault s', net.evaluate r s = .error fault s' → fault.category = .wiring) ∧
    ((∃ fault s', net.evaluate r s = .error fault s') ↔ ∃ q, net.Stale s r q ∧ (net.gate q).isOpen = true) ∧
    ∃ log, left (net.evaluation.logging.run net.size [.enter r] (s, [])) = (left (net.evaluate r s), log) ∧
      net.Supplies r s log (left (net.evaluate r s)) ∧
      ∀ x s', net.evaluate r s = .ok x s' → ∀ q, net.Stale s r q → q ∈ log := by
  obtain ⟨log, hlog, hadvances⟩ := exists_log h hs hr
  have hdemand := evaluateBy_eq_demand h hs readsKnown_known hr
  rw [evaluateBy_known] at hdemand
  refine ⟨hdemand, evaluateBy_eq_demand h hs (readsKnown_evaluate net) hr,
    fun fault s' herror => ?_, ⟨?_, ?_⟩, log, hlog, supplies_of_advances hs hadvances, fun x s' hok q hq => ?_⟩
  · rcases evaluate_cases h hs hr with ⟨x, s', hok, -, -⟩ | ⟨fault', s'', q, herror', hcategory, -, -⟩
    · cases herror.symm.trans hok
    · cases herror.symm.trans herror'
      exact hcategory
  · rintro ⟨fault, s', herror⟩
    rcases evaluate_cases h hs hr with ⟨x, s', hok, -, -⟩ | ⟨-, -, q, -, -, hq, hopen⟩
    · cases herror.symm.trans hok
    · exact ⟨q, hq, hopen⟩
  · rintro ⟨q, hq, hwaits⟩
    rcases evaluate_cases h hs hr with ⟨x, s', -, hadvances, hsettled⟩ | ⟨fault, s', -, herror, -, -, -⟩
    · -- `q` was settled on the way, which no gate is that waits for an operand
      have hexposed := stale_iff_exposed.mp hq
      obtain ⟨-, ⟨t, t', hsettle⟩, -⟩ :=
        hadvances.settled q hexposed.open (hadvances.settled_of_exposed hsettled hexposed)
      obtain ⟨fault, -, herror⟩ := settle_of_isOpen SignalM.known hwaits t
      cases hsettle.symm.trans herror
    · exact ⟨fault, s', herror⟩
  · rcases evaluate_cases h hs hr with ⟨x', s'', hok', hadvances', hsettled⟩ | ⟨fault, s'', -, herror, -, -, -⟩
    · have hexposed := stale_iff_exposed.mp hq
      refine (hadvances.keeps.mem_iff q).mpr ⟨hexposed.open, ?_⟩
      rw [hok']
      exact hadvances'.settled_of_exposed hsettled hexposed
    · cases hok.symm.trans herror

end Walk

/-- A connective that waits for its second operand reads another one, which reads one sigmoid twice. -/
def halfWired : Netlist :=
  ⟨#[⟨0, .input, [1]⟩, ⟨1, .sigmoid 0, [2, 2]⟩, ⟨2, .binary .and 1 (some 1), [3]⟩,
    ⟨3, .binary .or 2 none, []⟩]⟩

/-- The connective cannot be evaluated, but what it reads was. -/
theorem evaluate_halfWired : ∃ fault s',
    halfWired.evaluate 3 (.fresh halfWired : Signals Extended) = .error fault s' ∧
    fault.category = .wiring ∧ halfWired.Supplies 3 (.fresh halfWired) [1, 2] s' := by
  have hlayered : halfWired.Layered := layered_of_lt (by decide) (by decide)
  have hloaded : (Signals.fresh halfWired : Signals Extended).Loaded halfWired := by
    refine ⟨Signals.size_fresh _, fun r hinput => ?_⟩
    have hr : r < halfWired.size := lt_size_of_gate (by rw [hinput]; exact Gate.noConfusion)
    rw [Signals.cell_fresh hr, hinput]
    rfl
  obtain ⟨-, -, hwiring, hstops, log, hlog, hsupplies, -⟩ :=
    evaluate_on_demand hlayered hloaded (show 3 < halfWired.size by decide)
  obtain ⟨fault, s', herror⟩ := hstops.mpr ⟨3, ⟨by decide +kernel, .refl⟩, rfl⟩
  rw [herror] at hlog hsupplies
  have hrun : (left (halfWired.evaluation.logging.run halfWired.size [.enter 3]
      ((.fresh halfWired : Signals Extended), []))).2 = [1, 2] := by
    decide +kernel
  rw [hlog] at hrun
  exact ⟨fault, s', herror, hwiring fault s' herror, hrun ▸ hsupplies⟩

end Netlist

end SoftLogic
