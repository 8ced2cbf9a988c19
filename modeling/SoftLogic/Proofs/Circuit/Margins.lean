import SoftLogic.Proofs.Circuit.Bounds
import SoftLogic.Proofs.Circuit.Staleness

/-!
# How far from zero and one

The logarithm of a clause's cost and the reciprocal that the cost pushes are taken of the truth value of the clause, and
zero is where both go wrong.  With the truth values of the variables strictly between zero and one, no truth value in a
circuit comes nearer to zero or one than the margin of its variables: `Circuit.costAt_keeps_margins`.  This is after
`costAt`, and it stays so until the next reset, whatever is asked of the nodes meanwhile.
-/

namespace SoftLogic

open Effect

namespace Netlist

variable {R : Type} [Scalar R] {net net' : Netlist} {s s' : Signals R} {q r a : Nat} {t : R}

/-- A gate that is complete stays as it is, however nodes are called and wired. -/
theorem NodeCall.gate_act {u : Netlist × Signals R} (hq : (u.1.gate q).isOpen = false) (call : NodeCall R) :
    (call.act u).1.gate q = u.1.gate q := by
  have hwired : ∀ {net : Netlist} {s : Signals R} {result : Except Fault Netlist},
      (∀ net', result = .ok net' → net'.gate q = net.gate q) → (NodeCall.wired net s result).1.gate q = net.gate q := by
    intro net s result hresult
    cases result with
    | error fault => rfl
    | ok net' => exact hresult net' rfl
  obtain ⟨net, s⟩ := u
  cases call with
  | addOperand r operand =>
    refine hwired fun net' hadd => ?_
    obtain ⟨hopen, -, rfl⟩ := of_addOperand_ok hadd
    have hr := lt_size_of_isOpen hopen
    rw [gate_setGate (by rwa [size_link]), gate_link, if_neg]
    rintro rfl
    exact Bool.false_ne_true (hq.symm.trans hopen)
  | connect operand consumer => exact hwired fun _ hconnect => gate_connect hconnect q
  | _ => rfl

theorem NodeCall.gate_after {u : Netlist × Signals R} (hq : (u.1.gate q).isOpen = false) (calls : List (NodeCall R)) :
    (NodeCall.after calls u).1.gate q = u.1.gate q := by
  induction calls generalizing u with
  | nil => rfl
  | cons call calls ih =>
    have hcall := gate_act hq call
    exact (ih (hcall ▸ hq)).trans hcall

/-- A cost pushes by the truth value that it reads. -/
theorem pushGradient_of_known (hg : net.gate r = .cost a) (ha : (s.cell a).signal = some t) :
    net.pushGradient r s = net.addGradient a ((s.cell r).gradient * -(1 / t)) s := by
  unfold pushGradient
  rw [hg]
  simp only
  rw [bind_of_ok (evaluate_of_known ha), bind_of_ok (SignalM.gradient_apply r s)]

end Netlist

variable {K : Type} [ExactScalar K] [LinearOrder K] [IsStrictOrderedRing K]

/-- The node carries a truth value that is no nearer to zero or one than the margin of the variables `m`. -/
structure Signals.Clears (s : Signals K) (σ : ℕ → K) (m : Multiset ℕ) (r : Ref) (t : K) : Prop where
  signal : (s.cell r).signal = some t
  margin_le : margin σ m ≤ t
  le_margin : t ≤ 1 - margin σ m

/-- The cost at `root` is the logarithm of a truth value strictly between zero and one, and whatever is asked of nodes
before the next reset, it pushes by the reciprocal of that truth value. -/
structure Signals.Divides (net : Netlist) (s : Signals K) (root a : Ref) (t : K) : Prop where
  pos : 0 < t
  lt_one : t < 1
  gate : net.gate root = .cost a
  cost : (s.cell root).signal = some (-Scalar.log t)
  push : ∀ calls : List (Netlist.NodeCall K), ∀ net' s', Netlist.NodeCall.after calls (net, s) = (net', s') →
    net'.pushGradient root s' = net'.addGradient a ((s'.cell root).gradient * -(1 / t)) s'

namespace Circuit

variable {c : Circuit} {lines : List String} {s : Signals K} {xs : List K}

/-- Where a node carries the truth value of its formula, it clears the margin of its variables. -/
theorem clears_of_denotes {r : Nat} {f : Formula} (hd : c.net.Denotes c.numVars r f) (hxs : xs.length = c.numVars)
    (hunit : ∀ x ∈ xs, 0 < Scalar.sigmoid x ∧ Scalar.sigmoid x < 1)
    (hs : s.Shows c.net c.numVars fun k => xs.getD k 0) (hknown : (s.cell r).signal.isSome = true) :
    ∃ t, s.Clears (truths xs) f.leaves r t ∧ 0 < margin (truths xs) f.leaves := by
  obtain ⟨t, ht⟩ := Option.isSome_iff_exists.mp hknown
  have hvalue : t = f.value (truths xs) :=
    (hs.known r (.formula hd) t ht).trans (Netlist.meaning_of_denotes hd)
  have hopen : ∀ k ∈ f.leaves, 0 < truths xs k ∧ truths xs k < 1 :=
    forall_truths (P := fun t => 0 < t ∧ t < 1) hunit (hxs ▸ hd.lt_of_mem_leaves)
  have hle := Formula.margin_le_agreement fun k hk => ⟨(hopen k hk).1.le, (hopen k hk).2.le⟩
  rw [← hvalue] at hle
  refine ⟨t, ⟨ht, hle true, ?_⟩, margin_pos hopen⟩
  have hfalse : margin (truths xs) f.leaves ≤ 1 - t := hle false
  linarith

/-- A root whose clause clears its margin divides by nothing else. -/
theorem divides_of_clears {root a : Nat} {f : Formula} {t : K} (hg : c.net.gate root = .cost a)
    (hd : c.net.Denotes c.numVars a f) (hs : s.Shows c.net c.numVars fun k => xs.getD k 0)
    (hknown : (s.cell root).signal.isSome = true) (ht : s.Clears (truths xs) f.leaves a t)
    (hmargin : 0 < margin (truths xs) f.leaves) : s.Divides c.net root a t := by
  obtain ⟨y, hy⟩ := Option.isSome_iff_exists.mp hknown
  have hcost : y = -Scalar.log t := by
    rw [hs.known root (.root hg hd) y hy, Netlist.meaning_of_root hg hd, ← hs.known a (.formula hd) t ht.signal]
  have hle := ht.le_margin
  refine ⟨hmargin.trans_le ht.margin_le, by linarith, hg, hcost ▸ hy, fun calls net' s' hafter => ?_⟩
  have hcaches := Netlist.NodeCall.Caches.after (t := (c.net, s)) ⟨hd.isInput_eq_false, ht.signal⟩ calls
  have hgate := Netlist.NodeCall.gate_after (u := (c.net, s)) (q := root) (by rw [hg]; rfl) calls
  rw [hafter] at hcaches hgate
  exact Netlist.pushGradient_of_known (hgate.trans hg) hcaches.carries

/-- If every clause has a positive cost, so have all of them together, unless there is none. -/
theorem total_pos {xs : Nat → K} (hpos : ∀ root ∈ c.roots, 0 < c.net.meaning c.numVars xs root) (hne : c.roots ≠ []) :
    0 < c.total xs := by
  have hsum : c.total xs = (c.roots.map (c.net.meaning c.numVars xs)).sum := by
    rw [total, List.sum_eq_foldl, List.foldl_map]
  rw [hsum]
  refine List.sum_pos _ (fun y hy => ?_) (by simpa using hne)
  obtain ⟨root, hroot, rfl⟩ := List.mem_map.mp hy
  exact hpos root hroot

/-- With the truth values of the variables strictly between zero and one, a cost evaluated from pristine signals leaves
every node that another one reads, inputs apart, by a margin away from zero and one.  That goes for the truth values of
clauses, which is all that logarithms and reciprocals are taken of.  The cost is positive if there is a clause. -/
theorem costAt_keeps_margins (hlog : ∀ t : K, 0 < t → t < 1 → Scalar.log t < 0) {p : Program}
    (hc : ofProgram p = .ok c) (hxs : xs.length = c.numVars)
    (hunit : ∀ x ∈ xs, 0 < Scalar.sigmoid x ∧ Scalar.sigmoid x < 1) (hsize : s.cells.size = c.net.size)
    (hs : s.Pristine c.net) :
    ∃ cost s', c.costAt (.vector xs) s = .ok cost s' ∧
      (∀ r d : Nat, r ∈ c.net.operands d → c.numVars ≤ r →
        ∃ f t, c.net.Denotes c.numVars r f ∧ s'.Clears (truths xs) f.leaves r t) ∧
      List.Forall₂ (fun root line => ∃ tokens a t, Token.scan line c.numVars = .ok tokens ∧
        s'.Clears (truths xs) (indices (tokens.map Token.symbol)) a t ∧ s'.Divides c.net root a t)
        c.roots (significant p.clauses) ∧
      (c.roots ≠ [] → 0 < cost) := by
  obtain ⟨hcomplete, -⟩ := complete_of_ofProgram hc
  have hclosed := hcomplete.net_closed
  obtain ⟨s', hcost, hshows, hbacked, hroots⟩ := hcomplete.costAt_backed hxs (hs.blank hsize)
  have hsupplied := hcomplete.supplied_of_backed hshows.grounded hbacked hroots
  have hclauses : List.Forall₂ (fun root line => ∃ tokens a t, Token.scan line c.numVars = .ok tokens ∧
      s'.Clears (truths xs) (indices (tokens.map Token.symbol)) a t ∧ s'.Divides c.net root a t)
      c.roots (significant p.clauses) := by
    refine ((List.forall₂_and_left _ _).mpr ⟨fun root hroot => hroot, hcomplete.roots.flip⟩).imp ?_
    rintro root line ⟨hroot, tokens, f, hscan, hread, a, hg, hd⟩
    have ha : (s'.cell a).signal.isSome = true := hbacked root (hroots root hroot) a (by simp [Netlist.operands, hg])
    obtain ⟨t, ht, hmargin⟩ := clears_of_denotes hd hxs hunit hshows ha
    refine ⟨tokens, a, t, hscan, ?_, divides_of_clears hg hd hshows (hroots root hroot) ht hmargin⟩
    rwa [← Formula.leaves_of_read hread]
  refine ⟨_, s', hcost, fun r d hr hn => ?_, hclauses, fun hne => ?_⟩
  · have hread := hclosed.readable (Netlist.lt_size_of_mem_operands hr)
    cases hread.operands hclosed.sound r hr with
    | input hk => omega
    | root hg _ => exact absurd hg ((hread.operand hclosed.sound hr).2 _)
    | formula hd =>
      have hknown := hsupplied.known r hn (List.ne_nil_of_mem (hclosed.sound.mem_operands_iff.mp hr))
      obtain ⟨t, ht, -⟩ := clears_of_denotes hd hxs hunit hshows hknown
      exact ⟨_, t, hd, ht⟩
  · refine total_pos (fun root hroot => ?_) hne
    have hdivides : ∀ root ∈ c.roots, ∃ a t, s'.Divides c.net root a t := by
      refine forall_of_forall₂ hclauses ?_
      rintro root line ⟨-, a, t, -, -, h⟩
      exact ⟨a, t, h⟩
    obtain ⟨a, t, h⟩ := hdivides root hroot
    rw [← hshows.known root (hcomplete.readable_root hroot) _ h.cost]
    exact neg_pos.mpr (hlog t h.pos h.lt_one)

/-- At the raw value zero the clause `$0 ^ ~$0` has a truth value between `1/4` and `3/4`, and a positive cost. -/
theorem costAt_keeps_margins_square : ∃ (c : Circuit) (cost t : ℝ) (a : Ref) (s : Signals ℝ),
    ofProgram ⟨1, ["$0 ^ ~$0"]⟩ = .ok c ∧ c.costAt (.vector [0]) c.signals = .ok cost s ∧
      (s.cell a).signal = some t ∧ 1 / 4 ≤ t ∧ t ≤ 3 / 4 ∧ 0 < cost := by
  have hscan : Token.scan "$0 ^ ~$0" 1 =
      .ok [⟨.variable 0, 0⟩, ⟨.connective .and, 3⟩, ⟨.not, 5⟩, ⟨.variable 0, 6⟩] := by decide
  have hlines : significant ["$0 ^ ~$0"] = ["$0 ^ ~$0"] := by decide
  have hderives : Expression.Derives (.chain (.operand (.var 0)) .and (.not (.var 0))) 1 "$0 ^ ~$0" := ⟨_, hscan, rfl⟩
  obtain ⟨c, hc, hn⟩ := ofProgram_ok (p := ⟨1, ["$0 ^ ~$0"]⟩) rfl (hderives.singleton hlines)
  have hlog : ∀ t : ℝ, 0 < t → t < 1 → Scalar.log t < 0 := fun t => Real.log_neg
  have hunit : ∀ x ∈ [(0 : ℝ)], 0 < Scalar.sigmoid x ∧ Scalar.sigmoid x < 1 :=
    fun x _ => ⟨Real.sigmoid_pos x, Real.sigmoid_lt_one x⟩
  obtain ⟨cost, s, hcost, -, hclauses, hpos⟩ :=
    costAt_keeps_margins hlog hc (by rw [hn]; rfl) hunit c.size_signals c.pristine_signals
  rw [hlines] at hclauses
  obtain ⟨root, roots, ⟨tokens, a, t, hscan', ht, -⟩, -, hroots⟩ := List.forall₂_cons_right_iff.mp hclauses
  rw [hn] at hscan'
  cases hscan.symm.trans hscan'
  have hhalf : truths [(0 : ℝ)] 0 = 1 / 2 := by
    show Real.sigmoid 0 = 1 / 2
    rw [Real.sigmoid_zero]
    norm_num
  have hmargin : margin (truths [(0 : ℝ)]) ([0, 0] : List ℕ) = 1 / 4 := by
    simp only [margin, Multiset.map_coe, Multiset.prod_coe, List.map_cons, List.map_nil, List.prod_cons, List.prod_nil,
      hhalf]
    norm_num
  have hle := ht.margin_le
  have hge := ht.le_margin
  rw [show (indices _ : List ℕ) = [0, 0] from rfl, hmargin] at hle hge
  refine ⟨c, cost, t, a, s, hc, hcost, ht.signal, hle, by linarith, hpos (by rw [hroots]; exact List.cons_ne_nil _ _)⟩

end Circuit

end SoftLogic
