import SoftLogic.Netlist.Signals

/-!
# Reset

Resetting a node resets everything it feeds, directly or through others: signals become unknown, gradients
return to their baseline and nothing counts as pushed.  Inputs keep the value they hold.

A `Sweep` is a reset under way.  Its work is a stack, on which a node may stand several times; a node is reset
when it is taken for the first time, and the nodes it feeds then go on top.  A sweep ends on every netlist, with
cycles too: each round meets a node that was not met before, or it meets none and makes the stack shorter.
-/

namespace SoftLogic

variable {R : Type} [Scalar R]

/-- A reset under way. -/
structure Sweep (R : Type) where
  /-- The nodes met so far, as marks in creation order. -/
  seen : Array Bool
  /-- The nodes still to look at, the top of the stack first. -/
  work : List Ref
  signals : Signals R

namespace Sweep

/-- The sweep before its first round. -/
def start (net : Netlist) (r : Ref) (s : Signals R) : Sweep R := ⟨.replicate net.size false, [r], s⟩

/-- One round.  A node met before is dropped; any other is marked and reset, and the nodes that it feeds go on
the stack one after the other. -/
def step (net : Netlist) (w : Sweep R) : Sweep R :=
  match w.work with
  | [] => w
  | r :: rest =>
    if w.seen[r]? = some false then
      { seen := w.seen.setIfInBounds r true
        work := (net.consumers r).reverse ++ rest
        signals := w.signals.update r (Cell.reset (net.gate r)) }
    else { w with work := rest }

/-- The number of nodes that were not met yet. -/
def unmet (w : Sweep R) : Nat := w.seen.count false

theorem step_of_nil {net : Netlist} {w : Sweep R} (h : w.work = []) : w.step net = w := by
  unfold step
  rw [h]

theorem step_of_seen {net : Netlist} {w : Sweep R} {r : Ref} {rest : List Ref} (h : w.work = r :: rest)
    (hr : w.seen[r]? ≠ some false) : w.step net = { w with work := rest } := by
  unfold step
  rw [h]
  exact if_neg hr

theorem step_of_unseen {net : Netlist} {w : Sweep R} {r : Ref} {rest : List Ref} (h : w.work = r :: rest)
    (hr : w.seen[r]? = some false) : w.step net =
      ⟨w.seen.setIfInBounds r true, (net.consumers r).reverse ++ rest,
        w.signals.update r (Cell.reset (net.gate r))⟩ := by
  unfold step
  rw [h]
  exact if_pos hr

/-- A round lowers the number of nodes that were not met, or it keeps it and lowers the stack. -/
theorem step_lt (net : Netlist) {w : Sweep R} (h : w.work ≠ []) :
    Prod.Lex (· < ·) (· < ·) ((w.step net).unmet, (w.step net).work.length) (w.unmet, w.work.length) := by
  match hwork : w.work with
  | [] => exact absurd hwork h
  | r :: rest =>
    by_cases hr : w.seen[r]? = some false
    · rw [step_of_unseen hwork hr]
      obtain ⟨hlt, hfalse⟩ := Array.getElem?_eq_some_iff.mp hr
      have hmem : false ∈ w.seen := hfalse ▸ Array.getElem_mem hlt
      have hpos : 0 < w.seen.count false := Array.count_pos_iff.mpr hmem
      refine .left _ _ ?_
      have hcount : (w.seen.set r true hlt).count false = w.seen.count false - 1 := by
        rw [Array.count_set, hfalse]
        rfl
      simp only [unmet, Array.setIfInBounds, hlt, dif_pos, hcount]
      omega
    · rw [step_of_seen hwork hr]
      exact .right _ (by simp)

/-- Carries out all rounds. -/
def run (net : Netlist) (w : Sweep R) : Sweep R :=
  if w.work = [] then w else run net (w.step net)
termination_by (w.unmet, w.work.length)
decreasing_by exact step_lt net ‹_›

@[simp] theorem size_step (net : Netlist) (w : Sweep R) :
    (w.step net).signals.cells.size = w.signals.cells.size := by
  unfold step
  split
  · rfl
  · split
    · exact Signals.size_update _ _ _
    · rfl

@[simp] theorem size_run (net : Netlist) (w : Sweep R) :
    (w.run net).signals.cells.size = w.signals.cells.size := by
  fun_induction run net w with
  | case1 w h => rfl
  | case2 w h ih => rw [ih, size_step]

end Sweep

namespace Netlist

/-- Resets a node and everything that it feeds, directly or through others. -/
def resetNode (net : Netlist) (r : Ref) (s : Signals R) : Signals R := ((Sweep.start net r s).run net).signals

/-- Resets some nodes, one after the other. -/
def reset (net : Netlist) (sources : List Ref) (s : Signals R) : Signals R :=
  sources.foldl (fun s r => net.resetNode r s) s

@[simp] theorem size_resetNode (net : Netlist) (r : Ref) (s : Signals R) :
    (net.resetNode r s).cells.size = s.cells.size := Sweep.size_run net _

@[simp] theorem size_reset (net : Netlist) (sources : List Ref) (s : Signals R) :
    (net.reset sources s).cells.size = s.cells.size := by
  induction sources generalizing s with
  | nil => rfl
  | cons r rest ih => exact (ih _).trans (size_resetNode net r s)

end Netlist

end SoftLogic
