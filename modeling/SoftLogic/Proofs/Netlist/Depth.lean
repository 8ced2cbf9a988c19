import Mathlib.Algebra.BigOperators.Group.Finset.Basic
import Mathlib.Algebra.Order.BigOperators.Group.Finset
import Mathlib.Data.List.Forall2
import SoftLogic.Circuit.Statistics

/-!
# Measuring depth

`Netlist.HasDepth` says how long the longest way down from a node is; a node has a depth unless it depends on itself.
Measuring with a stack finds it from whatever was measured before (`Netlist.measureAll_ok`), within `Netlist.rounds`
rounds.

The rounds are counted against what is still to be measured: each node that is not measured stands for one round and
one more for each operand.  Opening a node puts at most as many entries on the stack as it has operands; when all of
these are gone the node is measured, and what it stood for pays for the round that opened it and for the entries.  This
works since a node is not measured before its operands are, so no node is opened twice.
-/

namespace SoftLogic

namespace Netlist

variable {net : Netlist} {depths depths' : Depths} {r q d e : Nat}

/-- The longest way from a node down to one that reads nothing has this length. -/
inductive HasDepth (net : Netlist) : Nat → Nat → Prop
  | above {r : Nat} (f : Nat → Nat) : (∀ a ∈ net.operands r, HasDepth net a (f a)) →
    HasDepth net r (depthOver ((net.operands r).map f))

theorem HasDepth.unique (h : net.HasDepth r d) (h' : net.HasDepth r e) : d = e := by
  induction h generalizing e with
  | @above r f _ ih =>
    cases h' with
    | above g hg =>
      have hfg : (net.operands r).map f = (net.operands r).map g :=
        List.map_congr_left fun a ha => ih a ha (hg a ha)
      rw [hfg]

theorem le_foldl_max {l : List Nat} {a : Nat} (b : Nat) (h : a ∈ l) : a ≤ l.foldl max b := by
  induction l generalizing b with
  | nil => cases h
  | cons c l ih =>
    have hle : ∀ (l : List Nat) (b : Nat), b ≤ l.foldl max b := by
      intro l
      induction l with
      | nil => exact fun b => Nat.le_refl b
      | cons c l ih => exact fun b => Nat.le_trans (Nat.le_max_left b c) (ih _)
    rcases List.mem_cons.mp h with rfl | h
    · exact Nat.le_trans (Nat.le_max_right b a) (hle l _)
    · exact ih _ h

/-- An operand is less deep. -/
theorem lt_depthOver {l : List Nat} (h : d ∈ l) : d < depthOver l := by
  match l with
  | a :: l =>
    have := le_foldl_max 0 h
    show d < 1 + (a :: l).foldl max 0
    omega

/-- Every node has an id of its own, and what a node reads is a node. -/
structure Labelled (net : Netlist) : Prop where
  injective : ∀ q < net.size, ∀ r < net.size, net.id q = net.id r → q = r
  operand_lt : ∀ r, ∀ a ∈ net.operands r, a < net.size

/-- What was measured is right. -/
def Faithful (net : Netlist) (depths : Depths) : Prop :=
  ∀ r < net.size, ∀ d, net.depth? depths r = some d → net.HasDepth r d

theorem faithful_nil (net : Netlist) : net.Faithful [] := fun r _ d h => by cases h

/-! ### What is still to be measured -/

/-- What a node stands for: nothing once it is measured, until then one round, and one more for each operand. -/
def charge (net : Netlist) (depths : Depths) (r : Nat) : Nat :=
  if (net.depth? depths r).isSome then 0 else 1 + (net.operands r).length

/-- What all nodes together stand for. -/
def balance (net : Netlist) (depths : Depths) : Nat := ∑ r ∈ Finset.range net.size, net.charge depths r

theorem edges_eq_sum (net : Netlist) : net.edges = ∑ r ∈ Finset.range net.size, (net.operands r).length := by
  unfold edges
  rw [nodes_toList, List.map_map]
  rfl

/-- The rounds that are allowed cover whatever is still to be measured. -/
theorem balance_lt_rounds (net : Netlist) (depths : Depths) : net.balance depths < net.rounds := by
  have hle : net.balance depths ≤ ∑ r ∈ Finset.range net.size, (1 + (net.operands r).length) := by
    refine Finset.sum_le_sum fun r _ => ?_
    unfold charge
    split <;> omega
  rw [Finset.sum_add_distrib, ← edges_eq_sum, ← Finset.card_eq_sum_ones, Finset.card_range] at hle
  unfold rounds
  omega

theorem depth?_cons (net : Netlist) (depths : Depths) (r q : Nat) (d : Nat) :
    net.depth? ((net.id r, d) :: depths) q = if net.id q = net.id r then some d else net.depth? depths q := by
  unfold depth?
  rw [List.lookup_cons]
  by_cases h : net.id q = net.id r
  · rw [if_pos h, h, beq_self_eq_true]
  · rw [if_neg h, beq_false_of_ne h]

/-- Measuring a node settles what it stood for. -/
theorem balance_cons (hnet : net.Labelled) (hr : r < net.size) (hnone : net.depth? depths r = none) (d : Nat) :
    net.balance ((net.id r, d) :: depths) + (1 + (net.operands r).length) = net.balance depths := by
  have hmem : r ∈ Finset.range net.size := Finset.mem_range.mpr hr
  have hself : net.charge depths r = 1 + (net.operands r).length := by
    unfold charge
    rw [hnone]
    rfl
  have hzero : net.charge ((net.id r, d) :: depths) r = 0 := by
    unfold charge
    rw [depth?_cons, if_pos rfl]
    rfl
  have hother : ∀ q ∈ (Finset.range net.size).erase r,
      net.charge ((net.id r, d) :: depths) q = net.charge depths q := by
    intro q hq
    obtain ⟨hne, hq⟩ := Finset.mem_erase.mp hq
    unfold charge
    rw [depth?_cons, if_neg fun h => hne (hnet.injective q (Finset.mem_range.mp hq) r hr h)]
  have hold : net.charge depths r + ∑ q ∈ (Finset.range net.size).erase r, net.charge depths q = net.balance depths :=
    Finset.add_sum_erase _ _ hmem
  have hnew : net.charge ((net.id r, d) :: depths) r +
      ∑ q ∈ (Finset.range net.size).erase r, net.charge ((net.id r, d) :: depths) q =
        net.balance ((net.id r, d) :: depths) := Finset.add_sum_erase _ _ hmem
  have hrest : ∑ q ∈ (Finset.range net.size).erase r, net.charge ((net.id r, d) :: depths) q =
      ∑ q ∈ (Finset.range net.size).erase r, net.charge depths q := Finset.sum_congr rfl hother
  omega

/-! ### Rounds -/

/-- The entries `rs` are taken from the stack one after the other, and `depths` has then grown to `depths'`. -/
structure Measures (net : Netlist) (rs : List Ref) (depths depths' : Depths) : Prop where
  faithful : net.Faithful depths'
  keeps : ∀ q d, net.depth? depths q = some d → net.depth? depths' q = some d
  measured : ∀ q ∈ rs, (net.depth? depths' q).isSome
  /-- What was measured in addition is no deeper than one of the entries. -/
  bounded : ∀ q < net.size, ∀ d, net.depth? depths q = none → net.depth? depths' q = some d →
    ∃ a ∈ rs, ∃ e, net.HasDepth a e ∧ d ≤ e
  /-- What was settled pays for the rounds, but for one round for each entry. -/
  rounds : ∃ k, k + net.balance depths' ≤ net.balance depths + rs.length ∧
    ∀ fuel rest, net.measureAll (fuel + k) depths (rs ++ rest) = net.measureAll fuel depths' rest

theorem Measures.nil (h : net.Faithful depths) : net.Measures [] depths depths :=
  ⟨h, fun _ _ hq => hq, fun _ hq => absurd hq List.not_mem_nil,
    fun _ _ _ hnone hsome => (nomatch hnone.symm.trans hsome),
    0, by simp, fun _ _ => rfl⟩

theorem Measures.cons {depths'' : Depths} {rs : List Ref} (h : net.Measures [r] depths depths')
    (h' : net.Measures rs depths' depths'') : net.Measures (r :: rs) depths depths'' := by
  obtain ⟨k, hk, hrun⟩ := h.rounds
  obtain ⟨k', hk', hrun'⟩ := h'.rounds
  refine ⟨h'.faithful, fun q d hq => h'.keeps q d (h.keeps q d hq), fun q hq => ?_, fun q hq d hnone hsome => ?_,
    k' + k, ?_, fun fuel rest => ?_⟩
  · rcases List.mem_cons.mp hq with rfl | hq
    · obtain ⟨d, hd⟩ := Option.isSome_iff_exists.mp (h.measured q List.mem_cons_self)
      rw [h'.keeps q d hd]
      rfl
    · exact h'.measured q hq
  · match hmid : net.depth? depths' q with
    | none =>
      obtain ⟨a, ha, he⟩ := h'.bounded q hq d hmid hsome
      exact ⟨a, List.mem_cons_of_mem r ha, he⟩
    | some e =>
      obtain ⟨a, ha, he⟩ := h.bounded q hq e hnone hmid
      have hde : e = d := Option.some.inj ((h'.keeps q e hmid).symm.trans hsome)
      exact ⟨a, List.mem_singleton.mp ha ▸ List.mem_cons_self, hde ▸ he⟩
  · simp only [List.length_cons, List.length_nil] at hk ⊢
    omega
  · rw [← Nat.add_assoc, List.cons_append]
    exact (hrun (fuel + k') (rs ++ rest)).trans (hrun' fuel rest)

/-- An entry that was measured before is dropped. -/
theorem measures_of_isSome (h : net.Faithful depths) (hr : (net.depth? depths r).isSome) :
    net.Measures [r] depths depths := by
  refine ⟨h, fun _ _ hq => hq, fun q hq => List.mem_singleton.mp hq ▸ hr, fun q _ d hnone hsome => ?_,
    1, by simp [Nat.add_comm], fun fuel rest => ?_⟩
  · rw [hnone] at hsome
    cases hsome
  · show net.measureAll fuel (net.measureTop depths r rest).1 (net.measureTop depths r rest).2 = _
    rw [measureTop, if_pos hr]

/-- A node whose operands are measured is measured in one round, which it pays for alone. -/
theorem measures_of_operands (hnet : net.Labelled) (h : net.Faithful depths) (hr : r < net.size)
    (hnone : net.depth? depths r = none) (hd : net.HasDepth r d)
    (hoperands : ∀ a ∈ net.operands r, (net.depth? depths a).isSome) :
    net.Measures [r] depths ((net.id r, d) :: depths) ∧
      net.balance ((net.id r, d) :: depths) + (1 + (net.operands r).length) = net.balance depths ∧
      ∀ fuel rest,
        net.measureAll (fuel + 1) depths (r :: rest) = net.measureAll fuel ((net.id r, d) :: depths) rest := by
  have hself : net.depth? ((net.id r, d) :: depths) r = some d := by rw [depth?_cons, if_pos rfl]
  have hother : ∀ q < net.size, q ≠ r → net.depth? ((net.id r, d) :: depths) q = net.depth? depths q := by
    intro q hq hne
    rw [depth?_cons, if_neg fun hid => hne (hnet.injective q hq r hr hid)]
  have hbalance := balance_cons hnet hr hnone d
  have hrun : ∀ fuel rest, net.measureAll (fuel + 1) depths (r :: rest) =
      net.measureAll fuel ((net.id r, d) :: depths) rest := by
    intro fuel rest
    have hpending : net.unmeasured depths r = [] := by
      refine List.filter_eq_nil_iff.mpr fun a ha => ?_
      simpa [Option.isSome_iff_ne_none] using hoperands a ha
    -- the depths found for the operands are theirs
    have hover : depthOver ((net.operands r).filterMap (net.depth? depths)) = d := by
      cases hd with
      | above f hf =>
        have hfound : ∀ a ∈ net.operands r, net.depth? depths a = some (f a) := by
          intro a ha
          obtain ⟨e, he⟩ := Option.isSome_iff_exists.mp (hoperands a ha)
          rw [he, (h a (hnet.operand_lt r a ha) e he).unique (hf a ha)]
        rw [List.filterMap_congr hfound, List.filterMap_eq_map']
    show net.measureAll fuel (net.measureTop depths r rest).1 (net.measureTop depths r rest).2 = _
    rw [measureTop, hnone, if_neg (by simp), hpending, hover]
  refine ⟨⟨fun q hq e he => ?_, fun q e he => ?_, fun q hq => ?_, fun q hq e hq' he => ?_, 1, ?_, hrun⟩, hbalance, hrun⟩
  · by_cases hqr : q = r
    · subst hqr
      rw [hself] at he
      exact Option.some.inj he ▸ hd
    · rw [hother q hq hqr] at he
      exact h q hq e he
  · rw [depth?_cons]
    split
    · next hid =>
      unfold depth? at he hnone
      rw [hid, hnone] at he
      cases he
    · exact he
  · rw [List.mem_singleton.mp hq, hself]
    rfl
  · by_cases hqr : q = r
    · subst hqr
      rw [hself] at he
      exact ⟨q, List.mem_cons_self, d, hd, Nat.le_of_eq (Option.some.inj he).symm⟩
    · rw [hother q hq hqr, hq'] at he
      cases he
  · rw [List.length_singleton]
    omega

/-- Entries that can be measured one by one can be measured in turn. -/
theorem exists_measures {rs : List Ref}
    (h : ∀ r ∈ rs, ∀ depths, net.Faithful depths → ∃ depths', net.Measures [r] depths depths')
    (hdepths : net.Faithful depths) : ∃ depths', net.Measures rs depths depths' := by
  induction rs generalizing depths with
  | nil => exact ⟨depths, .nil hdepths⟩
  | cons r rs ih =>
    obtain ⟨depths₁, h₁⟩ := h r List.mem_cons_self depths hdepths
    obtain ⟨depths₂, h₂⟩ := ih (fun q hq => h q (List.mem_cons_of_mem r hq)) h₁.faithful
    exact ⟨depths₂, h₁.cons h₂⟩

/-- What is measured along with operands of a node is less deep than the node. -/
theorem Measures.lt_of_operands {rs : List Ref} (h : net.Measures rs depths depths')
    (hrs : ∀ a ∈ rs, a ∈ net.operands r) (hd : net.HasDepth r d) (hq : q < net.size)
    (hnone : net.depth? depths q = none) (hsome : net.depth? depths' q = some e) : e < d := by
  cases hd with
  | above f hf =>
    obtain ⟨a, ha, e', he', hle⟩ := h.bounded q hq e hnone hsome
    have hlt : f a < depthOver ((net.operands r).map f) := lt_depthOver (List.mem_map_of_mem (hrs a ha))
    have hfa : e' = f a := he'.unique (hf a (hrs a ha))
    omega

/-- Once the operands that were missing are measured, all of them are. -/
theorem Measures.isSome_of_unmeasured (h : net.Measures (net.unmeasured depths r).reverse depths depths') :
    ∀ a ∈ net.operands r, (net.depth? depths' a).isSome := by
  intro a ha
  cases hfound : net.depth? depths a with
  | some e =>
    rw [h.keeps a e hfound]
    rfl
  | none =>
    refine h.measured a (List.mem_reverse.mpr (List.mem_filter.mpr ⟨ha, ?_⟩))
    rw [hfound]
    rfl

/-- A node with operands that are missing is opened, and measured when it is on top again. -/
theorem Measures.opened (h : net.Measures (net.unmeasured depths r).reverse depths depths') (hnet : net.Labelled)
    (hr : r < net.size) (hnone : net.depth? depths r = none) (hd : net.HasDepth r d)
    (hpending : net.unmeasured depths r ≠ []) : net.Measures [r] depths ((net.id r, d) :: depths') := by
  have hmem : ∀ a ∈ (net.unmeasured depths r).reverse, a ∈ net.operands r := fun a ha =>
    List.mem_of_mem_filter (List.mem_reverse.mp ha)
  obtain ⟨k, hk, hrun⟩ := h.rounds
  -- the node is none of those that were measured meanwhile, since it is deeper
  have hnone' : net.depth? depths' r = none := by
    cases hsome : net.depth? depths' r with
    | none => rfl
    | some e =>
      have hlt := h.lt_of_operands hmem hd hr hnone hsome
      have he : e = d := (h.faithful r hr e hsome).unique hd
      omega
  obtain ⟨hmeasures, hbalance, hlast⟩ := measures_of_operands hnet h.faithful hr hnone' hd h.isSome_of_unmeasured
  refine ⟨hmeasures.faithful, fun q e hq => hmeasures.keeps q e (h.keeps q e hq), hmeasures.measured,
    fun q hq e hq' he => ?_, 1 + k + 1, ?_, fun fuel rest => ?_⟩
  · cases hmid : net.depth? depths' q with
    | none => exact hmeasures.bounded q hq e hmid he
    | some e' =>
      have heq : e' = e := Option.some.inj ((hmeasures.keeps q e' hmid).symm.trans he)
      have hlt := h.lt_of_operands hmem hd hq hq' hmid
      exact ⟨r, List.mem_cons_self, d, hd, by omega⟩
  · have hle : (net.unmeasured depths r).length ≤ (net.operands r).length := List.length_filter_le _ _
    rw [List.length_reverse] at hk
    rw [List.length_singleton]
    omega
  · have hopen : net.measureAll (fuel + 1 + k + 1) depths (r :: rest) =
        net.measureAll (fuel + 1 + k) depths ((net.unmeasured depths r).reverse ++ r :: rest) := by
      show net.measureAll (fuel + 1 + k) (net.measureTop depths r rest).1 (net.measureTop depths r rest).2 = _
      rw [measureTop, hnone, if_neg (by simp)]
      split
      · next hnil => exact absurd hnil hpending
      · rfl
    have hfuel : fuel + (1 + k + 1) = fuel + 1 + k + 1 := by omega
    rw [hfuel]
    exact hopen.trans ((hrun (fuel + 1) (r :: rest)).trans (hlast fuel rest))

/-- A node that has a depth is taken from the stack. -/
theorem HasDepth.measures (hnet : net.Labelled) (h : net.HasDepth r d) (hr : r < net.size)
    (hdepths : net.Faithful depths) : ∃ depths', net.Measures [r] depths depths' := by
  induction h generalizing depths with
  | @above r f hf ih =>
    have hr' := HasDepth.above f hf
    cases hnone : net.depth? depths r with
    | some e => exact ⟨depths, measures_of_isSome hdepths (by rw [hnone]; rfl)⟩
    | none =>
      by_cases hpending : net.unmeasured depths r = []
      · refine ⟨_, (measures_of_operands hnet hdepths hr hnone hr' fun a ha => ?_).1⟩
        have hfound := List.filter_eq_nil_iff.mp hpending a ha
        simpa [Option.isSome_iff_ne_none] using hfound
      · have hmem : ∀ a ∈ (net.unmeasured depths r).reverse, a ∈ net.operands r := fun a ha =>
          List.mem_of_mem_filter (List.mem_reverse.mp ha)
        obtain ⟨depths₁, h₁⟩ : ∃ depths₁, net.Measures (net.unmeasured depths r).reverse depths depths₁ :=
          exists_measures (fun a ha _ hdepths => ih a (hmem a ha) (hnet.operand_lt r a (hmem a ha)) hdepths) hdepths
        exact ⟨_, h₁.opened hnet hr hnone hr' hpending⟩

/-- Measuring a node that has a depth ends in the rounds that are allowed, whatever was measured before. -/
theorem measureAll_ok (hnet : net.Labelled) (h : net.HasDepth r d) (hr : r < net.size) (hdepths : net.Faithful depths) :
    ∃ depths', net.measureAll net.rounds depths [r] = .ok depths' ∧ net.Faithful depths' ∧
      net.depth? depths' r = some d := by
  obtain ⟨depths', hmeasures⟩ := h.measures hnet hr hdepths
  obtain ⟨k, hk, hrun⟩ := hmeasures.rounds
  have hlt := net.balance_lt_rounds depths
  have hrounds : net.rounds = (net.rounds - k) + k := by
    rw [List.length_singleton] at hk
    omega
  obtain ⟨e, he⟩ := Option.isSome_iff_exists.mp (hmeasures.measured r List.mem_cons_self)
  refine ⟨depths', ?_, hmeasures.faithful, ?_⟩
  · rw [hrounds]
    refine (hrun _ []).trans ?_
    cases net.rounds - k <;> rfl
  · rw [he, (hmeasures.faithful r hr e he).unique h]

/-- Nodes that have depths are measured in turn, in any order and however often they are listed. -/
theorem mapM_depth_ok (hnet : net.Labelled) {roots : List Ref}
    (h : ∀ r ∈ roots, r < net.size ∧ ∃ d, net.HasDepth r d) (hdepths : net.Faithful depths) :
    ∃ ds depths', (roots.mapM net.depth).run depths = .ok (ds, depths') ∧ net.Faithful depths' ∧
      List.Forall₂ net.HasDepth roots ds := by
  induction roots generalizing depths with
  | nil => exact ⟨[], depths, rfl, hdepths, .nil⟩
  | cons r roots ih =>
    obtain ⟨hr, d, hd⟩ := h r List.mem_cons_self
    obtain ⟨depths₁, hok, hdepths₁, hfound⟩ := measureAll_ok hnet hd hr hdepths
    obtain ⟨ds, depths₂, hrest, hdepths₂, hds⟩ := ih (fun q hq => h q (List.mem_cons_of_mem r hq)) hdepths₁
    refine ⟨d :: ds, depths₂, ?_, hdepths₂, .cons hd hds⟩
    have hdepth : (net.depth r).run depths = .ok (d, depths₁) := by
      simp [depth, hok, hfound]
    rw [List.mapM_cons, StateT.run_bind, hdepth]
    show ((roots.mapM net.depth >>= fun ds => pure (d :: ds)).run depths₁) = _
    rw [StateT.run_bind, hrest]
    rfl

end Netlist

end SoftLogic
