import Mathlib.Data.List.Count
import SoftLogic.Proofs.Effect

/-!
# What walks do

Two rules for `Visit.run`.  `Visit.run_keeps` is about any walk: what settling keeps, the walk keeps, however
it ends.  `Visit.run_ok` is about a walk whose dependencies go down in rank: it settles what it enters, and
the number of nodes is fuel enough, since each opening settles one node.
-/

namespace SoftLogic

/-- A place that drops out lowers the count of places by one. -/
theorem countP_range_of_drop {size r : Nat} {p p' : Nat → Bool} (hr : r < size) (hp : p r = true)
    (hdrop : ∀ q, p' q = (p q && !(q == r))) :
    (List.range size).countP p = (List.range size).countP p' + 1 := by
  -- over any list, the two counts differ by how often `r` is in it
  have hcount : ∀ l : List Nat, l.countP p = l.countP p' + l.count r := by
    intro l
    induction l with
    | nil => rfl
    | cons q l ih =>
      rw [List.countP_cons, List.countP_cons, List.count_cons, ih, hdrop q]
      by_cases hq : q = r
      · subst hq
        simp [hp]
        omega
      · simp [hq]
        omega
  rw [hcount, List.nodup_range.count, if_pos (List.mem_range.mpr hr)]

namespace Visit

open Effect

variable {σ : Type} {v : Visit σ} {I : σ → Prop} {P : Ref → Prop}

/-! ### Steps -/

theorem run_nil (fuel : Nat) (s : σ) : v.run fuel [] s = .ok () s := by
  unfold run
  exact bind_of_ok rfl _

theorem run_of_settled {s : σ} {task : Task} (h : v.settled s task.ref = true) (fuel : Nat)
    (rest : List Task) : v.run fuel (task :: rest) s = v.run fuel rest s := by
  unfold run
  rw [bind_apply, bind_apply, advance_of_settled h]

theorem run_enter {s : σ} {r : Ref} {ds : List Ref} (h : v.settled s r = false)
    (hds : v.dependencies r = .ok ds) (fuel : Nat) (rest : List Task) :
    v.run (fuel + 1) (.enter r :: rest) s = v.run fuel (opening r ds rest) s := by
  rw [run, bind_of_ok (advance_enter h rest)]
  simp only [hds]

theorem run_leave {s s' : σ} {r : Ref} (h : v.settled s r = false) (hsettle : v.settle r s = .ok () s')
    (fuel : Nat) (rest : List Task) : v.run fuel (.leave r :: rest) s = v.run fuel rest s' := by
  unfold run
  rw [bind_apply, bind_apply, advance_leave h, bind_of_ok hsettle]

/-! ### What every walk keeps -/

theorem advance_keeps (hsettle : ∀ r s, P r → I s → v.settled s r = false → I (left (v.settle r s)))
    {tasks : List Task} (h : ∀ t ∈ tasks, P t.ref) : Keeps I (v.advance tasks) := by
  induction tasks with
  | nil => exact keeps_pure none
  | cons task rest ih =>
    have hrest := ih fun t ht => h t (List.mem_cons_of_mem task ht)
    intro s hs
    rw [advance_cons]
    by_cases hsettled : v.settled s task.ref = true
    · rw [if_pos hsettled]
      exact hrest s hs
    · rw [if_neg hsettled]
      match task with
      | .enter r => exact hs
      | .leave r =>
        have hleft := hsettle r s (h _ List.mem_cons_self) hs (eq_false_of_ne_true hsettled)
        simp only
        rw [bind_apply]
        match hr : v.settle r s with
        | .ok u s' =>
          rw [hr] at hleft
          exact hrest s' hleft
        | .error e s' =>
          rw [hr] at hleft
          exact hleft

/-- What is left to do after an advance was to be done before. -/
theorem mem_of_advance {tasks rest : List Task} {r : Ref} {s s' : σ}
    (h : v.advance tasks s = .ok (some (r, rest)) s') : .enter r ∈ tasks ∧ ∀ t ∈ rest, t ∈ tasks := by
  induction tasks generalizing s with
  | nil => cases h
  | cons task tasks ih =>
    have hcons : ∀ {s}, v.advance tasks s = .ok (some (r, rest)) s' →
        .enter r ∈ task :: tasks ∧ ∀ t ∈ rest, t ∈ task :: tasks := fun h =>
      ⟨List.mem_cons_of_mem task (ih h).1, fun t ht => List.mem_cons_of_mem task ((ih h).2 t ht)⟩
    rw [advance_cons] at h
    split at h
    · exact hcons h
    · match task with
      | .enter q =>
        cases h
        exact ⟨List.mem_cons_self, fun t ht => List.mem_cons_of_mem _ ht⟩
      | .leave q =>
        obtain ⟨_, _, _, h⟩ := of_bind_ok h
        exact hcons h

/-- What settling a node keeps that is not settled, a walk keeps. -/
theorem run_keeps (hsettle : ∀ r s, P r → I s → v.settled s r = false → I (left (v.settle r s)))
    (hdeps : ∀ r ds, P r → v.dependencies r = .ok ds → ∀ d ∈ ds, P d) (fuel : Nat) {tasks : List Task}
    (h : ∀ t ∈ tasks, P t.ref) : Keeps I (v.run fuel tasks) := by
  induction fuel generalizing tasks with
  | zero =>
    unfold run
    refine (advance_keeps hsettle h).bind ?_
    rintro (_ | ⟨r, rest⟩)
    · exact keeps_pure ()
    · exact keeps_throw Fault.cycle
  | succ fuel ih =>
    intro s hs
    unfold run
    rw [bind_apply]
    have hkeeps := advance_keeps hsettle h
    match hadvance : v.advance tasks s with
    | .error e s' => exact hkeeps.error hs hadvance
    | .ok none s' => exact hkeeps.ok hs hadvance
    | .ok (some (r, rest)) s' =>
      have hs' := hkeeps.ok hs hadvance
      obtain ⟨hr, hrest⟩ := mem_of_advance hadvance
      match hds : v.dependencies r with
      | .error fault =>
        simp only [hds]
        exact hs'
      | .ok ds =>
        simp only [hds]
        -- the tasks now are the dependencies, the leaving of `r` and the rest
        refine ih (fun t ht => ?_) s' hs'
        rcases List.mem_append.mp ht with ht | ht
        · obtain ⟨d, hd, rfl⟩ := List.mem_map.mp (List.mem_reverse.mp ht)
          exact hdeps r ds (h (.enter r) hr) hds d hd
        · rcases List.mem_cons.mp ht with rfl | ht
          · exact h (.enter r) hr
          · exact h t (hrest t ht)

/-! ### Walks down in rank -/

/-- A walk that cannot fail at the nodes of `P`: their dependencies are nodes of `P` of lower rank, and where
all of these are settled, the node is settled, with no effect on what else is settled. -/
structure Descends (v : Visit σ) (I : σ → Prop) (P : Ref → Prop) (rank : Ref → Nat) (size : Nat) : Prop where
  lt_size : ∀ r, P r → r < size
  dependencies : ∀ r, P r → ∃ ds, v.dependencies r = .ok ds ∧ ∀ d ∈ ds, P d ∧ rank d < rank r
  settle : ∀ r ds s, P r → v.dependencies r = .ok ds → I s → v.settled s r = false →
    (∀ d ∈ ds, v.settled s d = true) →
    ∃ s', v.settle r s = .ok () s' ∧ I s' ∧ ∀ q, v.settled s' q = (v.settled s q || q == r)

/-- The number of nodes that are not settled. -/
def unsettled (v : Visit σ) (size : Nat) (s : σ) : Nat := (List.range size).countP fun r => !v.settled s r

variable {rank : Ref → Nat} {size bound : Nat} {tasks tasks' rest : List Task} {s s' s'' : σ}

theorem unsettled_le (v : Visit σ) (size : Nat) (s : σ) : v.unsettled size s ≤ size := by
  unfold unsettled
  exact Nat.le_trans List.countP_le_length (Nat.le_of_eq List.length_range)

/-- Settling one node lowers the count by one. -/
theorem unsettled_settle {r : Nat} (hr : r < size) (h : v.settled s r = false)
    (h' : ∀ q, v.settled s' q = (v.settled s q || q == r)) :
    v.unsettled size s = v.unsettled size s' + 1 := by
  refine countP_range_of_drop hr (by simp [h]) fun q => ?_
  rw [h' q, Bool.not_or]

/-- A stretch of a walk, from `s` with `tasks` to `s'` with `rest`.  It settles nodes of rank below `bound`
only, and uses as much fuel as it settles nodes. -/
structure Passes (v : Visit σ) (I : σ → Prop) (rank : Ref → Nat) (size bound : Nat) (tasks rest : List Task)
    (s s' : σ) : Prop where
  keeps : I s'
  mono : ∀ q, v.settled s q = true → v.settled s' q = true
  frame : ∀ q, bound ≤ rank q → v.settled s' q = v.settled s q
  fuel : ∃ m, v.unsettled size s = v.unsettled size s' + m ∧
    ∀ fuel, v.run (fuel + m) tasks s = v.run fuel rest s'

theorem Passes.refl (h : I s) (tasks : List Task) : v.Passes I rank size bound tasks tasks s s :=
  ⟨h, fun _ hq => hq, fun _ _ => rfl, 0, rfl, fun _ => rfl⟩

theorem Passes.trans (h : v.Passes I rank size bound tasks tasks' s s')
    (h' : v.Passes I rank size bound tasks' rest s' s'') :
    v.Passes I rank size bound tasks rest s s'' := by
  obtain ⟨m, hm, hrun⟩ := h.fuel
  obtain ⟨m', hm', hrun'⟩ := h'.fuel
  refine ⟨h'.keeps, fun q hq => h'.mono q (h.mono q hq),
    fun q hq => (h'.frame q hq).trans (h.frame q hq), m + m', by omega, fun fuel => ?_⟩
  rw [Nat.add_comm m m', ← Nat.add_assoc, hrun, hrun']

theorem Passes.weaken {bound' : Nat} (h : v.Passes I rank size bound tasks rest s s')
    (hle : bound ≤ bound') : v.Passes I rank size bound' tasks rest s s' :=
  ⟨h.keeps, h.mono, fun q hq => h.frame q (Nat.le_trans hle hq), h.fuel⟩

/-- A walk settles the nodes of a list, if it settles each of them. -/
theorem enter_all (nodes : List Ref) (bound : Nat) (h : I s) (hnodes : ∀ d ∈ nodes, ∀ s rest, I s →
      ∃ s', v.Passes I rank size bound (.enter d :: rest) rest s s' ∧ v.settled s' d = true)
    (rest : List Task) :
    ∃ s', v.Passes I rank size bound (nodes.map .enter ++ rest) rest s s' ∧
      ∀ d ∈ nodes, v.settled s' d = true := by
  induction nodes generalizing s with
  | nil => exact ⟨s, .refl h rest, fun d hd => absurd hd List.not_mem_nil⟩
  | cons d nodes ih =>
    obtain ⟨s₁, hfirst, hd⟩ := hnodes d List.mem_cons_self s (nodes.map .enter ++ rest) h
    obtain ⟨s₂, hothers, hall⟩ := ih hfirst.keeps fun c hc => hnodes c (List.mem_cons_of_mem d hc)
    refine ⟨s₂, hfirst.trans hothers, fun c hc => ?_⟩
    rcases List.mem_cons.mp hc with rfl | hc
    · exact hothers.mono _ hd
    · exact hall c hc

/-- A walk settles the node that it enters. -/
theorem Descends.enter (hv : v.Descends I P rank size) {r : Ref} (hr : P r) (h : I s) (rest : List Task) :
    ∃ s', v.Passes I rank size (rank r + 1) (.enter r :: rest) rest s s' ∧ v.settled s' r = true := by
  induction hrank : rank r using Nat.strongRecOn generalizing r s rest with
  | _ k ih =>
    subst hrank
    by_cases hsettled : v.settled s r = true
    · exact ⟨s, ⟨h, fun _ hq => hq, fun _ _ => rfl, 0, rfl, fun fuel => run_of_settled hsettled fuel rest⟩,
        hsettled⟩
    · have hopen : v.settled s r = false := by simpa using hsettled
      obtain ⟨ds, hds, hlower⟩ := hv.dependencies r hr
      -- the dependencies have lower rank, so `r` itself is still to be settled when it is left
      obtain ⟨s₁, hwalk, hall⟩ := enter_all ds.reverse (rank r) h
        (fun d hd s rest hs => by
          obtain ⟨hPd, hlt⟩ := hlower d (List.mem_reverse.mp hd)
          obtain ⟨s', hpasses, hs'⟩ := ih (rank d) hlt hPd hs rest rfl
          exact ⟨s', hpasses.weaken hlt, hs'⟩) (.leave r :: rest)
      have hopen' : v.settled s₁ r = false := (hwalk.frame r (Nat.le_refl _)).trans hopen
      obtain ⟨s₂, hsettle, hI, hexact⟩ := hv.settle r ds s₁ hr hds hwalk.keeps hopen'
        fun d hd => hall d (List.mem_reverse.mpr hd)
      have hr₂ : v.settled s₂ r = true := by simp [hexact r]
      obtain ⟨m, hm, hrun⟩ := hwalk.fuel
      have hcount := unsettled_settle (hv.lt_size r hr) hopen' hexact
      refine ⟨s₂, ⟨hI, ?_, ?_, m + 1, by omega, ?_⟩, hr₂⟩
      · intro q hq
        rw [hexact q, hwalk.mono q hq, Bool.true_or]
      · intro q hq
        have hne : (q == r) = false := by
          rw [beq_eq_false_iff_ne]
          rintro rfl
          exact absurd hq (Nat.not_succ_le_self _)
        rw [hexact q, hne, Bool.or_false, hwalk.frame q (Nat.le_of_succ_le hq)]
      · intro fuel
        rw [← Nat.add_assoc, run_enter hopen hds, opening, ← List.map_reverse, hrun,
          run_leave hopen' hsettle]

/-- A walk that goes down in rank succeeds, and the number of nodes is fuel enough. -/
theorem Descends.run_ok (hv : v.Descends I P rank size) {r : Ref} (hr : P r) (h : I s) :
    ∃ s', v.run size [.enter r] s = .ok () s' ∧ I s' ∧ v.settled s' r = true ∧
      ∀ q, v.settled s q = true → v.settled s' q = true := by
  obtain ⟨s', hpasses, hsettled⟩ := hv.enter hr h []
  obtain ⟨m, hm, hrun⟩ := hpasses.fuel
  have hle := v.unsettled_le size s
  -- the walk has used `m` units of fuel, and at most `size` nodes could be settled
  refine ⟨s', ?_, hpasses.keeps, hsettled, hpasses.mono⟩
  have hfuel : size = size - m + m := by omega
  rw [hfuel, hrun, run_nil]

end Visit

end SoftLogic
