import Mathlib.Logic.Relation
import SoftLogic.Netlist.Reset
import SoftLogic.Proofs.Netlist.Wiring

/-!
# What a reset reaches

`Netlist.cell_reset`: a reset from some nodes resets the cells that lie downstream of one of them, along any
number of links from a node to one that it feeds, and leaves the others.

`Sweep.Follows` is the invariant of a sweep.  What it has met is closed under consumers up to the stack, so once
the stack is empty it has met what lies downstream of its source.
-/

namespace SoftLogic

/-- `b` is reached from `a` through consumers. -/
def Netlist.Feeds (net : Netlist) : Nat → Nat → Prop := Relation.ReflTransGen fun a b => b ∈ net.consumers a

variable {R : Type} [Scalar R] {net : Netlist} {s : Signals R} {r q : Nat}

namespace Sweep

/-- The node was met. -/
def Met (w : Sweep R) (q : Nat) : Prop := w.seen[q]? = some true

/-- What holds after any number of rounds of the sweep from `r` that began with the signals `s`. -/
structure Follows (net : Netlist) (r : Nat) (s : Signals R) (w : Sweep R) : Prop where
  seen_size : w.seen.size = net.size
  cells_size : w.signals.cells.size = s.cells.size
  source : r < net.size → w.Met r ∨ r ∈ w.work
  feeds_of_met : ∀ q, w.Met q → net.Feeds r q
  feeds_of_mem : ∀ q ∈ w.work, net.Feeds r q
  closed : ∀ a b, w.Met a → b ∈ net.consumers a → b < net.size → w.Met b ∨ b ∈ w.work
  cell_of_met : ∀ q, w.Met q → w.signals.cell q = (s.cell q).reset (net.gate q)
  cell_of_not_met : ∀ q, ¬w.Met q → w.signals.cell q = s.cell q

theorem follows_start (net : Netlist) (r : Nat) (s : Signals R) : Follows net r s (start net r s) := by
  have hnone : ∀ q, ¬(start net r s).Met q := by
    intro q hq
    unfold Met start at hq
    rw [Array.getElem?_replicate] at hq
    split at hq <;> cases hq
  refine ⟨Array.size_replicate, rfl, fun _ => .inr List.mem_cons_self, fun q hq => absurd hq (hnone q), ?_,
    fun a _ ha => absurd ha (hnone a), fun q hq => absurd hq (hnone q), fun _ _ => rfl⟩
  intro q hq
  rw [List.mem_singleton.mp hq]
  exact .refl

variable {w : Sweep R}

omit [Scalar R] in
/-- A place without the mark of an unmet node is met. -/
theorem met_of_ne {p : Nat} (hp : w.seen[p]? ≠ some false) (hlt : p < w.seen.size) : w.Met p := by
  unfold Met
  rw [Array.getElem?_eq_getElem hlt] at hp ⊢
  match hb : w.seen[p] with
  | true => rfl
  | false => exact absurd (congrArg some hb) hp

/-- Dropping a node from the stack that was met, or is none of the netlist, loses nothing. -/
theorem Follows.drop (h : Follows net r s w) {p : Nat} {rest : List Ref} (hwork : w.work = p :: rest)
    (hp : w.seen[p]? ≠ some false) : Follows net r s { w with work := rest } := by
  have hkept : ∀ q < net.size, w.Met q ∨ q ∈ w.work → w.Met q ∨ q ∈ rest := by
    intro q hq hor
    rw [hwork] at hor
    rcases hor with hmet | hmem
    · exact .inl hmet
    · rcases List.mem_cons.mp hmem with rfl | hmem
      · exact .inl (met_of_ne hp (h.seen_size ▸ hq))
      · exact .inr hmem
  exact {
    seen_size := h.seen_size
    cells_size := h.cells_size
    source := fun hr => hkept r hr (h.source hr)
    feeds_of_met := h.feeds_of_met
    feeds_of_mem := fun q hq => h.feeds_of_mem q (hwork ▸ List.mem_cons_of_mem p hq)
    closed := fun a b ha hb hlt => hkept b hlt (h.closed a b ha hb hlt)
    cell_of_met := h.cell_of_met
    cell_of_not_met := h.cell_of_not_met }

/-- Meeting a node puts its consumers in its place on the stack. -/
theorem Follows.meet (h : Follows net r s w) (hs : s.cells.size = net.size) {p : Nat} {rest : List Ref}
    (hwork : w.work = p :: rest) (hp : w.seen[p]? = some false) :
    Follows net r s ⟨w.seen.setIfInBounds p true, (net.consumers p).reverse ++ rest,
      w.signals.update p (Cell.reset (net.gate p))⟩ := by
  obtain ⟨hlt, -⟩ := Array.getElem?_eq_some_iff.mp hp
  have hcell : p < w.signals.cells.size := by rw [h.cells_size, hs, ← h.seen_size]; exact hlt
  have hunmet : ¬w.Met p := fun hmet => by cases hp.symm.trans hmet
  have hfeeds : net.Feeds r p := h.feeds_of_mem p (hwork ▸ List.mem_cons_self)
  -- exactly one more node is met
  have hmet : ∀ q, Met ⟨w.seen.setIfInBounds p true, (net.consumers p).reverse ++ rest,
      w.signals.update p (Cell.reset (net.gate p))⟩ q ↔ q = p ∨ w.Met q := by
    intro q
    unfold Met
    rw [Array.getElem?_setIfInBounds]
    by_cases hq : p = q
    · subst hq
      simp [hlt]
    · rw [if_neg hq]
      exact ⟨.inr, fun h => h.resolve_left (Ne.symm hq)⟩
  have hkept : ∀ q, w.Met q ∨ q ∈ w.work → (q = p ∨ w.Met q) ∨ q ∈ (net.consumers p).reverse ++ rest := by
    intro q hor
    rw [hwork, List.mem_cons] at hor
    rcases hor with hq | rfl | hq
    · exact .inl (.inr hq)
    · exact .inl (.inl rfl)
    · exact .inr (List.mem_append_right _ hq)
  exact {
    seen_size := by rw [Array.size_setIfInBounds, h.seen_size]
    cells_size := by rw [Signals.size_update, h.cells_size]
    source := fun hr => by rw [hmet]; exact hkept r (h.source hr)
    feeds_of_met := by
      intro q hq
      rcases (hmet q).mp hq with rfl | hq
      · exact hfeeds
      · exact h.feeds_of_met q hq
    feeds_of_mem := by
      intro q hq
      rcases List.mem_append.mp hq with hq | hq
      · exact hfeeds.tail (List.mem_reverse.mp hq)
      · exact h.feeds_of_mem q (hwork ▸ List.mem_cons_of_mem p hq)
    closed := by
      intro a b ha hb hlt
      rw [hmet]
      rcases (hmet a).mp ha with rfl | ha
      · exact .inr (List.mem_append_left _ (List.mem_reverse.mpr hb))
      · exact hkept b (h.closed a b ha hb hlt)
    cell_of_met := by
      intro q hq
      rw [Signals.cell_update _ _ _ _ hcell]
      rcases (hmet q).mp hq with rfl | hold
      · rw [if_pos rfl, h.cell_of_not_met q hunmet]
      · have hne : q ≠ p := by
          rintro rfl
          exact hunmet hold
        rw [if_neg hne, h.cell_of_met q hold]
    cell_of_not_met := by
      intro q hq
      rw [hmet, not_or] at hq
      rw [Signals.cell_update_of_ne _ _ hq.1, h.cell_of_not_met q hq.2] }

theorem Follows.step (h : Follows net r s w) (hs : s.cells.size = net.size) :
    Follows net r s (w.step net) := by
  match hwork : w.work with
  | [] => rwa [step_of_nil hwork]
  | p :: rest =>
    by_cases hp : w.seen[p]? = some false
    · rw [step_of_unseen hwork hp]
      exact h.meet hs hwork hp
    · rw [step_of_seen hwork hp]
      exact h.drop hwork hp

theorem Follows.run (h : Follows net r s w) (hs : s.cells.size = net.size) :
    Follows net r s (w.run net) := by
  fun_induction Sweep.run net w with
  | case1 w _ => exact h
  | case2 w _ ih => exact ih (h.step hs)

/-- A sweep that was carried out has an empty stack. -/
theorem work_run (net : Netlist) (w : Sweep R) : (w.run net).work = [] := by
  fun_induction run net w with
  | case1 w h => exact h
  | case2 w h ih => exact ih

/-- Once the stack is empty, a sweep has met what lies downstream of its source. -/
theorem Follows.met_iff (h : Follows net r s w) (hwork : w.work = []) (hq : q < net.size) :
    w.Met q ↔ net.Feeds r q := by
  have hmet : ∀ p, w.Met p ∨ p ∈ w.work → w.Met p := by
    intro p hor
    rw [hwork] at hor
    exact hor.resolve_right List.not_mem_nil
  refine ⟨h.feeds_of_met q, fun hfeeds => ?_⟩
  induction hfeeds with
  | refl => exact hmet r (h.source hq)
  | @tail a b _ hb ih =>
    -- a node with consumers is one of the netlist
    have ha : a < net.size := by
      by_contra hle
      rw [Netlist.consumers_of_size_le (Nat.le_of_not_lt hle)] at hb
      cases hb
    exact hmet b (h.closed a b (ih ha) hb hq)

end Sweep

namespace Netlist

open Classical in
/-- A reset of a node resets the cells downstream of it and leaves the others. -/
theorem cell_resetNode (hs : s.cells.size = net.size) (r : Nat) (hq : q < net.size) :
    (net.resetNode r s).cell q = if net.Feeds r q then (s.cell q).reset (net.gate q) else s.cell q := by
  have hrun := (Sweep.follows_start net r s).run hs
  have hmet := hrun.met_iff (Sweep.work_run net _) hq
  by_cases hfeeds : net.Feeds r q
  · rw [if_pos hfeeds]
    exact hrun.cell_of_met q (hmet.mpr hfeeds)
  · rw [if_neg hfeeds]
    exact hrun.cell_of_not_met q fun h => hfeeds (hmet.mp h)

open Classical in
/-- A reset resets the cells downstream of its sources and leaves the others. -/
theorem cell_reset (hs : s.cells.size = net.size) (sources : List Ref) (hq : q < net.size) :
    (net.reset sources s).cell q =
      if ∃ p ∈ sources, net.Feeds p q then (s.cell q).reset (net.gate q) else s.cell q := by
  induction sources generalizing s with
  | nil => simp [reset]
  | cons r rest ih =>
    have hcons : (∃ p ∈ r :: rest, net.Feeds p q) ↔ net.Feeds r q ∨ ∃ p ∈ rest, net.Feeds p q := by
      simp only [List.mem_cons, exists_eq_or_imp]
    show (net.reset rest (net.resetNode r s)).cell q = _
    rw [ih ((size_resetNode net r s).trans hs), cell_resetNode hs r hq]
    simp only [hcons]
    by_cases hr : net.Feeds r q
    · by_cases hrest : ∃ p ∈ rest, net.Feeds p q
      · rw [if_pos hrest, if_pos hr, if_pos (.inl hr), Cell.reset_reset]
      · rw [if_neg hrest, if_pos hr, if_pos (.inl hr)]
    · simp only [hr, false_or, if_false]

end Netlist

end SoftLogic
