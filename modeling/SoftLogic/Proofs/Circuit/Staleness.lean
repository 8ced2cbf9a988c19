import SoftLogic.Proofs.Circuit.Gradient
import SoftLogic.Proofs.Circuit.Memory
import SoftLogic.Proofs.Netlist.Cached
import SoftLogic.Proofs.Netlist.Recall

/-!
# Costs without a reset

The first of several costs settles what the others are: writing the inputs drops nothing that is known, so each cost is
that at the first vector, although the inputs hold the last one.  The gradient is that at the first vector as well, also
for a variable that no clause reads, whose sigmoid is evaluated only when the gradient is pulled.  The pull or a reset
makes an end of it (`Circuit.stale_costs`).
-/

namespace SoftLogic

open Effect Finset

/-! ### Inputs that are written again -/

section Holding

variable {R : Type} [Scalar R] {net : Netlist} {n r : Nat} {s : Signals R} {xs : Nat → R}

/-- Writing the inputs does not change what the signals were. -/
theorem Signals.asAt_holding (xs : Nat → R) (ys : List R) (s : Signals R) :
    (s.holding n ys).asAt net n xs = s.asAt net n xs := by
  refine ext_cell (by simp) fun r hr => ?_
  rw [size_asAt, size_holding] at hr
  rw [cell_asAt (by rwa [size_holding]), cell_asAt hr, cell_holding n ys hr]
  by_cases hrn : r < n
  · rw [if_pos hrn, recalled, recalled, if_pos hrn, if_pos hrn]
  · rw [if_neg hrn]

theorem Signals.Supplied.holding (hs : s.Supplied net n) (h : net.Sound n) (ys : List R) :
    (s.holding n ys).Supplied net n := by
  have hsize := hs.grounded.size
  refine ⟨grounded_holding h hsize ys, fun r hn hc => ?_⟩
  have hr : r < net.size := by
    by_contra hlt
    exact hc (Netlist.consumers_of_size_le (Nat.le_of_not_lt hlt))
  rw [cell_holding n ys (hsize ▸ hr), if_neg (Nat.not_lt_of_le hn)]
  exact hs.known r hn hc

theorem Signals.Recalls.holding {K : Type} [ExactScalar K] {s : Signals K} {xs : Nat → K} (hs : s.Recalls net n xs)
    (h : net.Sound n) (ys : List K) : (s.holding n ys).Recalls net n xs :=
  ⟨hs.supplied.holding h ys, by rw [asAt_holding]; exact hs.pulled⟩

theorem Signals.Recalls.foldl_holding {K : Type} [ExactScalar K] {s : Signals K} {xs : Nat → K} (hs : s.Recalls net n xs)
    (h : net.Sound n) (rest : List (List K)) : (rest.foldl (fun s ys => s.holding n ys) s).Recalls net n xs := by
  induction rest generalizing s with
  | nil => exact hs
  | cons ys rest ih => exact ih (hs.holding h ys)

/-- Signals that show `xs` are as they were. -/
theorem Signals.Shows.asAt_eq (hs : s.Shows net n xs) (h : net.Closed n) : s.asAt net n xs = s := by
  refine ext_cell (size_asAt _ _ _ _) fun r hr => ?_
  rw [size_asAt] at hr
  have hsignal : recalled net n xs r (s.cell r).signal = (s.cell r).signal := by
    rw [recalled]
    split
    · next hrn => exact (hs.held r hrn).symm
    · split
      · cases hx : (s.cell r).signal with
        | none => rfl
        | some y => rw [hs.known r (h.readable (hs.size ▸ hr)) y hx, Option.map_some]
      · rfl
  rw [cell_asAt hr, hsignal]

end Holding

namespace Netlist

variable {net : Netlist} {n : Nat}

/-- Going from consumer to consumer comes to an end. -/
theorem Sound.wellFounded_consumers (h : net.Sound n) : WellFounded fun d r => d ∈ net.consumers r := by
  refine Subrelation.wf (fun {d r} hd => ?_) (measure fun r => (range net.size).sup (net.rank n) - net.rank n r).wf
  have hmem := h.mem_operands_iff.mpr hd
  have hrank := h.rank_lt hmem
  have hlt : d < net.size := lt_size_of_mem_operands hmem
  have hsup : net.rank n d ≤ (range net.size).sup (net.rank n) := le_sup (mem_range.mpr hlt)
  show (range net.size).sup (net.rank n) - net.rank n d < (range net.size).sup (net.rank n) - net.rank n r
  omega

end Netlist

namespace Circuit

section Costs

variable {R : Type} [Scalar R] {c : Circuit} {lines : List String} {s : Signals R} {xs : List R}

/-- Costs at several vectors, one after the other. -/
def costsAt (c : Circuit) (vectors : List (List R)) : CircuitM R (List R) :=
  vectors.mapM fun xs => c.costAt (.vector xs)

/-- Every cost is what it is on a copy that nothing has touched. -/
def Renewed (c : Circuit) (s : Signals R) : Prop :=
  ∀ ys : List R, ys.length = c.numVars → ∃ cost, answer (c.costAt (.vector ys) c.signals) = some cost ∧
    answer (c.costAt (.vector ys) s) = some cost

/-- When the roots are known, and no node before its operands, what is consumed is known. -/
theorem Complete.supplied_of_backed (h : c.Complete lines) (hs : s.Grounded c.net c.numVars) (hbacked : s.Backed c.net)
    (hroots : ∀ root ∈ c.roots, (s.cell root).signal.isSome = true) : s.Supplied c.net c.numVars := by
  have hclosed := h.net_closed
  refine ⟨hs, fun r => ?_⟩
  induction r using hclosed.sound.wellFounded_consumers.induction with
  | _ r ih =>
    intro hn hc
    obtain ⟨d, hd⟩ := List.exists_mem_of_ne_nil _ hc
    have hreads := hclosed.sound.mem_operands_iff.mpr hd
    obtain ⟨hdn, hlt⟩ := hclosed.consumer hd
    refine hbacked d ?_ r hreads
    by_cases hdc : c.net.consumers d = []
    · -- what nothing consumes is a root, or a sigmoid, and sigmoids read inputs only
      cases hclosed.readable hlt with
      | input hk => omega
      | root hg _ => exact hroots d ((h.mem_roots d).mpr ⟨_, hg⟩)
      | formula hf =>
        refine absurd hdc (hclosed.consumers_ne_nil hf fun k hg => ?_)
        rw [Netlist.operands, hg] at hreads
        have hrk : r = k := List.mem_singleton.mp hreads
        exact Nat.not_lt_of_le hn (hrk ▸ (hf.of_sigmoid hg).1)
    · exact ih d hd hdn hdc

/-- Further costs are the one that is remembered, and only write the inputs. -/
theorem Complete.costsAt_of_some (h : c.Complete lines) (hs : c.Remembers (some xs) s) {rest : List (List R)}
    (hrest : ∀ ys ∈ rest, ys.length = c.numVars) :
    c.costsAt rest s = .ok (List.replicate rest.length (c.total fun k => xs.getD k 0))
        (rest.foldl (fun s ys => s.holding c.numVars ys) s) ∧
      c.Remembers (some xs) (rest.foldl (fun s ys => s.holding c.numVars ys) s) := by
  unfold costsAt
  induction rest generalizing s with
  | nil => exact ⟨rfl, hs⟩
  | cons ys rest ih =>
    obtain ⟨hcost, hs₁⟩ := h.remembers_costAt_of_some (hrest ys List.mem_cons_self) hs
    obtain ⟨hcosts, hs'⟩ := ih hs₁ fun zs hzs => hrest zs (List.mem_cons_of_mem ys hzs)
    refine ⟨?_, hs'⟩
    rw [List.mapM_cons, bind_of_ok hcost, bind_of_ok hcosts]
    rfl

/-- The inputs hold what was written last. -/
theorem signal_foldl_holding {n k : Nat} (hk : k < n) (hle : n ≤ s.cells.size)
    (hheld : (s.cell k).signal = some (xs.getD k 0)) (rest : List (List R)) :
    ((rest.foldl (fun s ys => s.holding n ys) s).cell k).signal =
      some (((xs :: rest).getLast (List.cons_ne_nil xs rest)).getD k 0) := by
  induction rest generalizing s xs with
  | nil => exact hheld
  | cons ys rest ih =>
    rw [List.getLast_cons (List.cons_ne_nil ys rest), List.foldl_cons]
    refine ih (by rwa [Signals.size_holding]) ?_
    rw [Signals.cell_holding n ys (Nat.lt_of_lt_of_le hk hle), if_pos hk]

/-- After the cost at `xs` on an untouched copy, further costs are that one, and only write the inputs. -/
theorem Complete.costsAt_signals (h : c.Complete lines) (hxs : xs.length = c.numVars) {rest : List (List R)}
    (hrest : ∀ ys ∈ rest, ys.length = c.numVars) :
    ∃ s₁, c.costAt (.vector xs) (c.signals : Signals R) = .ok (c.total fun k => xs.getD k 0) s₁ ∧
      (∀ k < c.numVars, (s₁.cell k).signal = some (xs.getD k 0)) ∧ s₁.Backed c.net ∧ c.Remembers (some xs) s₁ ∧
      c.costsAt (xs :: rest) (c.signals : Signals R) =
        .ok (List.replicate (rest.length + 1) (c.total fun k => xs.getD k 0))
          (rest.foldl (fun s ys => s.holding c.numVars ys) s₁) ∧
      c.Remembers (some xs) (rest.foldl (fun s ys => s.holding c.numVars ys) s₁) := by
  obtain ⟨s₁, hcost, hs₁, hheld, hbacked⟩ := h.remembers_costAt_of_none hxs h.remembers_signals
  obtain ⟨hcosts, hs'⟩ := h.costsAt_of_some hs₁ hrest
  refine ⟨s₁, hcost, hheld, hbacked, hs₁, ?_, hs'⟩
  unfold costsAt at hcosts ⊢
  rw [List.mapM_cons, bind_of_ok hcost, bind_of_ok hcosts]
  rfl

/-- Nothing is remembered: each cost is the one of an untouched copy. -/
theorem Complete.renewed (h : c.Complete lines) (hs : c.Remembers none s) : c.Renewed s := by
  intro ys hys
  obtain ⟨_, hfresh, -⟩ := h.remembers_costAt_of_none hys h.remembers_signals
  obtain ⟨_, hcost, -⟩ := h.remembers_costAt_of_none hys hs
  exact ⟨_, by rw [hfresh]; rfl, by rw [hcost]; rfl⟩

end Costs

section Exact

variable {K : Type} [ExactScalar K] {c : Circuit} {lines : List String} {s : Signals K} {xs : List K}

/-- After a cost on an untouched copy, and after further ones, the first vector is recalled. -/
theorem Complete.recalls_costsAt (h : c.Complete lines) (hxs : xs.length = c.numVars) {rest : List (List K)}
    (hrest : ∀ ys ∈ rest, ys.length = c.numVars) :
    ∃ costs s', c.costsAt (xs :: rest) (c.signals : Signals K) = .ok costs s' ∧
      s'.Recalls c.net c.numVars fun k => xs.getD k 0 := by
  obtain ⟨s₁, hcost, -, hbacked, hs₁, hcosts, -⟩ := h.costsAt_signals hxs hrest
  obtain ⟨_, _, hcost', hpulled⟩ := h.pulled_of_costAt hxs c.size_signals c.pristine_signals
  cases hcost.symm.trans hcost'
  have hrecalls : s₁.Recalls c.net c.numVars fun k => xs.getD k 0 := by
    refine ⟨h.supplied_of_backed hs₁.grounded hbacked fun root hroot => ?_, ?_⟩
    · rw [hs₁.carries xs rfl root hroot root List.mem_cons_self]
      rfl
    · rw [hpulled.shows.asAt_eq h.net_closed]
      exact hpulled
  exact ⟨_, _, hcosts, hrecalls.foldl_holding h.net_closed.sound rest⟩

end Exact

/-- From pristine signals, costs begin as on an untouched copy. -/
theorem Complete.costsAt_of_pristine {R : Type} [Scalar R] {c : Circuit} {lines : List String} {s : Signals R}
    {xs : List R} (h : c.Complete lines) (hxs : xs.length = c.numVars) (hsize : s.cells.size = c.net.size)
    (hs : s.Pristine c.net) (rest : List (List R)) : c.costsAt (xs :: rest) s = c.costsAt (xs :: rest) c.signals := by
  unfold costsAt
  rw [List.mapM_cons, bind_apply, bind_apply, h.costAt_of_pristine hxs hsize hs]

/-- On an accepted circuit with pristine signals, and without a reset, all costs are that at the first vector, while the
inputs hold the last one; then the gradient is that at the first vector too, and after it, or after a reset, each cost
is its own.  A signal that is known and that is not held by an input does not change, whatever is asked of the nodes of a
netlist, and however they are wired. -/
theorem stale_costs {p : Program} {c : Circuit} (hc : ofProgram p = .ok c) :
    (∀ (R : Type) [Scalar R] (s : Signals R) (xs : List R) (rest : List (List R)),
      s.cells.size = c.net.size → s.Pristine c.net → (∀ ys ∈ xs :: rest, ys.length = c.numVars) →
      ∃ cost s', answer (c.costAt (.vector xs) c.signals) = some cost ∧
        c.costsAt (xs :: rest) s = .ok (List.replicate (rest.length + 1) cost) s' ∧
        (∀ k < c.numVars,
          (s'.cell k).signal = some (((xs :: rest).getLast (List.cons_ne_nil xs rest)).getD k 0)) ∧
        (∃ entries t, c.gradient s' = .ok entries t ∧ c.Renewed t) ∧ ∃ t, c.reset s' = .ok () t ∧ c.Renewed t) ∧
    (∃ fs, c.HasFormulas (significant p.clauses) fs ∧
      ∀ (K : Type) [ExactScalar K] (s : Signals K) (xs : List K) (rest : List (List K)),
        s.cells.size = c.net.size → s.Pristine c.net → (∀ ys ∈ xs :: rest, ys.length = c.numVars) →
        ∃ costs s', c.costsAt (xs :: rest) s = .ok costs s' ∧ c.Exact fs xs s') ∧
    ∀ (R : Type) [Scalar R] (net : Netlist) (s : Signals R) (calls : List (Netlist.NodeCall R)) (q : Ref) (x : R),
      (net.gate q).isInput = false → (s.cell q).signal = some x →
      ((Netlist.NodeCall.after calls (net, s)).2.cell q).signal = some x := by
  obtain ⟨h, -⟩ := complete_of_ofProgram hc
  have hsound := h.net_closed.sound
  refine ⟨fun R _ s xs rest hsize hs hvectors => ?_, ?_, fun R _ net s calls q x hinput hx => ?_⟩
  · obtain ⟨hxs, hrest⟩ := List.forall_mem_cons.mp hvectors
    obtain ⟨s₁, hcost, hheld, -, hs₁, hcosts, hs'⟩ := h.costsAt_signals hxs hrest
    obtain ⟨entries, t, hgradient, ht⟩ := h.remembers_gradient hs'.grounded
    have hsize₁ := hs₁.grounded.size
    have hle := hsound.le_size
    have hn : c.numVars ≤ s₁.cells.size := by omega
    refine ⟨_, _, by rw [hcost]; rfl, (h.costsAt_of_pristine hxs hsize hs rest).trans hcosts, ?_,
      ⟨entries, t, hgradient, h.renewed ht⟩, _, rfl, h.renewed (h.remembers_reset hs'.grounded)⟩
    exact fun k hk => signal_foldl_holding hk hn (hheld k hk) rest
  · obtain ⟨fs, hformulas⟩ := h.exists_formulas
    refine ⟨fs, hformulas, fun K _ s xs rest hsize hs hvectors => ?_⟩
    obtain ⟨hxs, hrest⟩ := List.forall_mem_cons.mp hvectors
    obtain ⟨costs, s', hcosts, hrecalls⟩ := h.recalls_costsAt hxs hrest
    refine ⟨costs, s', (h.costsAt_of_pristine hxs hsize hs rest).trans hcosts, ?_⟩
    exact h.exact_of_settles hformulas h.net_closed.settles_recalls
      (fun t ht => ⟨_, ht.pulled, Signals.sameGradients_asAt _ _ _ t⟩) hrecalls
  · have hcaches : Netlist.NodeCall.Caches q x (net, s) := ⟨hinput, hx⟩
    exact (hcaches.after calls).carries

/-- After costs at `$0 = 3` and at `$0 = 5`, the clause `$0 ^ $0` has the gradient at `3`, and `$1`, which it does not
read, has none. -/
theorem stale_square : ∃ (c : Circuit) (costs : List ℚ) (s s' : Signals ℚ),
    ofProgram ⟨2, ["$0 ^ $0"]⟩ = .ok c ∧ c.costsAt [[3, 7], [5, 8]] c.signals = .ok costs s ∧
      c.gradient s = .ok [4, 0] s' := by
  have hc : ofProgram ⟨2, ["$0 ^ $0"]⟩ = .ok ⟨2, ⟨⟨#[⟨0, .input, [2]⟩, ⟨1, .input, [3]⟩, ⟨2, .sigmoid 0, [4, 4]⟩,
      ⟨3, .sigmoid 1, []⟩, ⟨4, .binary .and 2 (some 2), [5]⟩, ⟨5, .cost 4, []⟩]⟩, 6⟩, ["$0 ^ $0"], [5]⟩ := by
    decide +kernel
  obtain ⟨-, ⟨fs, hformulas, hexact⟩, -⟩ := stale_costs hc
  obtain ⟨costs, s, hcosts, -, s', hgradient⟩ := hexact ℚ (Circuit.signals _) [3, 7] [[5, 8]] (Circuit.size_signals _)
    (Circuit.pristine_signals _) (by simp)
  refine ⟨_, costs, s, s', hc, hcosts, ?_⟩
  have hlines : significant ["$0 ^ $0"] = ["$0 ^ $0"] := by decide
  have hderived := hformulas.derived
  rw [hlines] at hderived
  obtain ⟨f, fs, ⟨tokens, hscan, hformula⟩, hnil, rfl⟩ := List.forall₂_cons_left_iff.mp hderived
  cases hnil
  have htokens : Token.scan "$0 ^ $0" 2 =
      .ok [⟨.variable 0, 0⟩, ⟨.connective .and, 3⟩, ⟨.variable 0, 5⟩] := by decide
  cases htokens.symm.trans hscan
  have hf : f = .binary .and (.var 0) (.var 0) :=
    (hformula (.chain (.operand (.var 0)) .and (.var 0)) rfl).symm
  rw [hgradient, hf]
  have htruth : truths ([3, 7] : List ℚ) 0 = 3 := rfl
  have hentry : gradientEntry [.binary .and (.var 0) (.var 0)] (truths [3, 7]) 0 = (4 : ℚ) := by
    simp [gradientEntry, Formula.polynomial, htruth]
    norm_num
  have hother : gradientEntry [.binary .and (.var 0) (.var 0)] (truths [3, 7]) 1 = (0 : ℚ) := by
    simp [gradientEntry, Formula.polynomial]
  show EStateM.Result.ok [gradientEntry _ _ 0, gradientEntry _ _ 1] s' = _
  rw [hentry, hother]

end Circuit

end SoftLogic
