import Mathlib.Algebra.BigOperators.Group.Multiset.Basic
import Mathlib.Data.List.Forall2
import SoftLogic.Proofs.Clause.Grammar

/-!
# Occurrences of variables

A formula has its variables as often as the symbols that it was read from, whether or not the grammar derives them:
`Formula.leaves_of_read`.  So what is counted or multiplied over the variable signs of an accepted clause can be
followed by induction on its formula.  In a formula an occurrence is also on one of two sides, by the number of
negations that it stands under.
-/

namespace SoftLogic

namespace Formula

/-- The occurrences of variables, each with whether it stands under an even number of negations. -/
def occurrences : Formula → Multiset (ℕ × Bool)
  | .var k => {(k, true)}
  | .not f => f.occurrences.map fun o => (o.1, !o.2)
  | .binary _ f g => f.occurrences + g.occurrences

/-- The variables, as often as they occur. -/
def leaves (f : Formula) : Multiset ℕ := f.occurrences.map Prod.fst

variable {f g : Formula} {op : Connective} {i k : ℕ} {b : Bool}

@[simp] theorem leaves_var : (var k).leaves = {k} := rfl

@[simp] theorem leaves_not : (not f).leaves = f.leaves := by
  simp [leaves, occurrences, Multiset.map_map]

@[simp] theorem leaves_binary : (binary op f g).leaves = f.leaves + g.leaves := by
  simp [leaves, occurrences]

theorem mem_occurrences_not : (i, b) ∈ (not f).occurrences ↔ (i, !b) ∈ f.occurrences := by
  cases b <;> simp [occurrences]

theorem mem_occurrences_binary :
    (i, b) ∈ (binary op f g).occurrences ↔ (i, b) ∈ f.occurrences ∨ (i, b) ∈ g.occurrences := Multiset.mem_add

theorem forall_leaves_binary {P : ℕ → Prop} :
    (∀ k ∈ (binary op f g).leaves, P k) ↔ (∀ k ∈ f.leaves, P k) ∧ ∀ k ∈ g.leaves, P k := by
  simp only [leaves_binary, Multiset.mem_add, or_imp, forall_and]

/-- A variable occurs on one side or the other. -/
theorem mem_leaves_iff (b : Bool) :
    i ∈ f.leaves ↔ (i, b) ∈ f.occurrences ∨ (i, !b) ∈ f.occurrences := by
  cases b <;> simp [leaves, or_comm]

end Formula

/-- The variable that a symbol is. -/
def Symbol.index? : Symbol → Option Nat
  | .variable k => some k
  | _ => none

/-- The variables of a list of symbols in order. -/
def indices (w : List Symbol) : List ℕ := w.filterMap Symbol.index?

theorem indices_cons (x : Symbol) (w : List Symbol) : indices (x :: w) = x.index?.toList ++ indices w := by
  unfold indices
  rw [List.filterMap_cons]
  cases x.index? <;> rfl

/-- Whatever fills the slot, the frame brings `m` along. -/
inductive Frame.Brings : Frame → Multiset ℕ → Prop
  | hole {fill : Formula → Formula} {m : Multiset ℕ} :
    (∀ f, (fill f).leaves = m + f.leaves) → Brings (.hole fill) m
  | group : Brings .group 0

namespace Reading

/-- In both stacks together stand the variables `m`. -/
def Has (s : Reading) (m : Multiset ℕ) : Prop :=
  ∃ ms : List (Multiset ℕ), List.Forall₂ Frame.Brings s.frames ms ∧
    m = ms.sum + (s.formulas.map Formula.leaves).sum

variable {s s' : Reading} {frames : List Frame} {formulas : List Formula} {m : Multiset ℕ} {x : Symbol}
  {w : List Symbol}

/-- A further formula on top. -/
theorem Has.push (h : Has ⟨frames, formulas⟩ m) (f : Formula) :
    Has ⟨frames, f :: formulas⟩ (m + f.leaves) := by
  obtain ⟨ms, hms, rfl⟩ := h
  refine ⟨ms, hms, ?_⟩
  simp only [List.map_cons, List.sum_cons]
  ac_rfl

/-- A formula that goes into a slot is still there. -/
theorem Has.collapse (h : Has ⟨frames, formulas⟩ m) (hs : collapse frames formulas = some s') : s'.Has m := by
  induction frames generalizing formulas with
  | nil =>
    cases hs
    exact h
  | cons frame frames ih =>
    cases frame with
    | group =>
      cases hs
      exact h
    | hole fill =>
      cases formulas with
      | nil => cases hs
      | cons f formulas =>
        obtain ⟨ms, hms, rfl⟩ := h
        obtain ⟨m, ms, hbrings, hrest, rfl⟩ := List.forall₂_cons_left_iff.mp hms
        cases hbrings with
        | hole hfill =>
          refine ih ⟨ms, hrest, ?_⟩ hs
          simp only [List.map_cons, List.sum_cons, hfill]
          ac_rfl

/-- A symbol adds the variable that it is. -/
theorem Has.step (h : s.Has m) (hs : s.step x = some s') : s'.Has (m + x.index?.toList) := by
  obtain ⟨frames, formulas⟩ := s
  match x, frames, formulas with
  | .variable k, _, _ => exact (h.push (.var k)).collapse hs
  | .connective op, _, f :: formulas =>
    cases hs
    obtain ⟨ms, hms, rfl⟩ := h
    refine ⟨f.leaves :: ms, .cons (.hole fun g => Formula.leaves_binary) hms, ?_⟩
    simp only [Symbol.index?, Option.toList_none, Multiset.coe_nil, List.map_cons, List.sum_cons]
    ac_rfl
  | .not, _, _ =>
    cases hs
    obtain ⟨ms, hms, rfl⟩ := h
    exact ⟨0 :: ms, .cons (.hole fun f => by simp) hms, by simp [Symbol.index?]⟩
  | .openGroup, _, _ =>
    cases hs
    obtain ⟨ms, hms, rfl⟩ := h
    exact ⟨0 :: ms, .cons .group hms, by simp [Symbol.index?]⟩
  | .closeGroup, .group :: frames, _ =>
    obtain ⟨ms, hms, rfl⟩ := h
    obtain ⟨m, ms, hbrings, hrest, rfl⟩ := List.forall₂_cons_left_iff.mp hms
    cases hbrings
    refine Has.collapse ⟨ms, hrest, ?_⟩ hs
    simp [Symbol.index?]

theorem Has.run (h : s.Has m) (hs : s.run w = some s') : s'.Has (m + indices w) := by
  induction w generalizing s m with
  | nil =>
    cases hs
    simpa [indices] using h
  | cons x w ih =>
    obtain ⟨t, ht, hs⟩ := Option.bind_eq_some_iff.mp hs
    have hrest := ih (h.step ht) hs
    rwa [add_assoc, Multiset.coe_add, ← indices_cons] at hrest

end Reading

/-- What is read of symbols has their variables. -/
theorem Formula.leaves_of_read {w : List Symbol} {f : Formula} (h : Formula.read w = some f) :
    f.leaves = indices w := by
  obtain ⟨s, hrun, hclose⟩ := Option.bind_eq_some_iff.mp h
  obtain ⟨s', hcollapse, hresult⟩ := Option.bind_eq_some_iff.mp hclose
  obtain rfl := Reading.result_eq_some_iff.mp hresult
  have hstart : Reading.Has ⟨[], []⟩ 0 := ⟨[], .nil, rfl⟩
  obtain ⟨ms, hms, hsum⟩ := (hstart.run hrun).collapse hcollapse
  cases hms
  simpa using hsum.symm

end SoftLogic
