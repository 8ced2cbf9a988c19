import SoftLogic.Scalar
import SoftLogic.Netlist.Basic

/-!
# Signals

The dynamic side of a netlist: for every node the signal it carries, if it is known, the gradient gathered
so far, and whether the node has pushed its gradient on.  An input always carries the value it holds.

`SignalM` is a computation on signals that may stop with a `Fault`; what it changed before stopping stays.
-/

namespace SoftLogic

/-- What is known at one node. -/
structure Cell (R : Type) where
  /-- The signal once it is known; at an input, the value held. -/
  signal : Option R
  /-- The gradient gathered so far. -/
  gradient : R
  /-- Whether the gradient was pushed into the operands. -/
  pushed : Bool
  deriving DecidableEq, Repr

/-- What is known at every node, in creation order. -/
structure Signals (R : Type) where
  cells : Array (Cell R)
  deriving DecidableEq, Repr

/-- A computation on signals that may be refused. -/
abbrev SignalM (R : Type) := EStateM Fault (Signals R)

variable {R : Type} [Scalar R]

namespace Cell

/-- The cell of a node that nothing has touched: an input holds zero, other signals are unknown. -/
def initial (gate : Gate) : Cell R :=
  { signal := if gate.isInput then some 0 else none, gradient := gate.baseline, pushed := false }

/-- Forgets the signal, unless it is the value an input holds, and what was gathered and pushed. -/
def reset (gate : Gate) (c : Cell R) : Cell R :=
  { signal := if gate.isInput then c.signal else none, gradient := gate.baseline, pushed := false }

@[simp] theorem reset_reset (gate : Gate) (c : Cell R) : reset gate (reset gate c) = reset gate c := by
  cases h : gate.isInput <;> simp [reset, h]

@[simp] theorem reset_initial (gate : Gate) : reset gate (initial gate : Cell R) = initial gate := by
  cases h : gate.isInput <;> simp [reset, initial, h]

end Cell

namespace Signals

/-- The cell at a place. -/
def cell (s : Signals R) (r : Ref) : Cell R := s.cells.getD r ⟨none, 0, false⟩

/-- Changes the cell at a place. -/
def update (s : Signals R) (r : Ref) (f : Cell R → Cell R) : Signals R := ⟨s.cells.modify r f⟩

/-- The signals of a netlist that nothing has touched. -/
def fresh (net : Netlist) : Signals R := ⟨net.nodes.map fun n => Cell.initial n.gate⟩

/-- The signals of a netlist that has grown: the new nodes are untouched. -/
def extend (s : Signals R) (net : Netlist) : Signals R :=
  ⟨s.cells ++ (net.nodes.extract s.cells.size net.size).map fun n => Cell.initial n.gate⟩

omit [Scalar R] in
@[simp] theorem size_update (s : Signals R) (r : Ref) (f : Cell R → Cell R) :
    (s.update r f).cells.size = s.cells.size := by simp [update]

@[simp] theorem size_fresh (net : Netlist) : (fresh net : Signals R).cells.size = net.size := by
  simp [fresh, Netlist.size]

theorem cell_update (s : Signals R) (r q : Ref) (f : Cell R → Cell R) (h : r < s.cells.size) :
    (s.update r f).cell q = if q = r then f (s.cell q) else s.cell q := by
  simp only [cell, update, Array.getD_eq_getD_getElem?, Array.getElem?_modify]
  by_cases hq : q = r
  · subst hq; simp [h]
  · simp [hq, Ne.symm hq]

theorem cell_update_of_ne (s : Signals R) {r q : Ref} (f : Cell R → Cell R) (h : q ≠ r) :
    (s.update r f).cell q = s.cell q := by
  simp [cell, update, Array.getD_eq_getD_getElem?, Array.getElem?_modify, Ne.symm h]

theorem cell_fresh {net : Netlist} {r : Ref} (h : r < net.size) :
    (fresh net : Signals R).cell r = Cell.initial (net.gate r) := by
  simp only [Netlist.size] at h
  simp [fresh, cell, Netlist.gate, Netlist.node, h]

/-- Signals with the same cells are the same. -/
theorem ext_cell {s s' : Signals R} (hsize : s.cells.size = s'.cells.size)
    (h : ∀ r < s.cells.size, s.cell r = s'.cell r) : s = s' := by
  have hcells : s.cells = s'.cells := by
    refine Array.ext hsize fun r hr hr' => ?_
    have := h r hr
    simpa [cell, hr, hr'] using this
  cases s
  cases s'
  exact congrArg Signals.mk hcells

/-- Growth leaves the cells that are there as they are. -/
theorem cell_extend {s : Signals R} {r : Ref} (net : Netlist) (h : r < s.cells.size) :
    (s.extend net).cell r = s.cell r := by
  simp [extend, cell, Array.getElem?_append_left h]

end Signals

namespace SignalM

/-- The signal at a place, which has to be known. -/
def known (r : Ref) : SignalM R R := do
  match ((← get).cell r).signal with
  | some x => return x
  | none => throw .cycle

/-- Stores the signal of a node. -/
def store (r : Ref) (x : R) : SignalM R Unit :=
  modify (·.update r fun c => { c with signal := some x })

/-- The gradient gathered at a place. -/
def gradient (r : Ref) : SignalM R R := return ((← get).cell r).gradient

/-- Adds to the gradient gathered at a place. -/
def gather (r : Ref) (d : R) : SignalM R Unit :=
  modify (·.update r fun c => { c with gradient := c.gradient + d })

/-- Marks the gradient of a node as pushed. -/
def markPushed (r : Ref) : SignalM R Unit :=
  modify (·.update r fun c => { c with pushed := true })

/-! ### What the computations do -/

theorem known_apply (r : Ref) (s : Signals R) :
    known r s = match (s.cell r).signal with
      | some x => .ok x s
      | none => .error .cycle s := by
  show (match (s.cell r).signal with
    | some x => (pure x : SignalM R R)
    | none => (throw Fault.cycle : SignalM R R)) s = _
  cases (s.cell r).signal <;> rfl

theorem known_of_some {s : Signals R} {r : Ref} {x : R} (h : (s.cell r).signal = some x) :
    known r s = .ok x s := by
  rw [known_apply, h]

omit [Scalar R] in
theorem store_apply (r : Ref) (x : R) (s : Signals R) :
    store r x s = .ok () (s.update r fun c => { c with signal := some x }) := rfl

theorem gradient_apply (r : Ref) (s : Signals R) : gradient r s = .ok (s.cell r).gradient s := rfl

theorem gather_apply (r : Ref) (d : R) (s : Signals R) :
    gather r d s = .ok () (s.update r fun c => { c with gradient := c.gradient + d }) := rfl

omit [Scalar R] in
theorem markPushed_apply (r : Ref) (s : Signals R) :
    markPushed r s = .ok () (s.update r fun c => { c with pushed := true }) := rfl

end SignalM

end SoftLogic
