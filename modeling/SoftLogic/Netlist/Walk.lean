import SoftLogic.Netlist.Basic

/-!
# Walks in dependency order

A walk settles a node after everything it depends on.  It keeps a list of open tasks: to enter a node is to
open its dependencies, the last of them first, and to leave it is to settle it, once they are settled.  A
task at a node that is settled already is dropped.

`Visit` says what a walk does at a node and `Visit.run` carries it out; evaluating and pulling gradients are two
visits.  A walk opens a node at most once unless the node depends on itself, so the size of the netlist bounds
the number of openings, and a walk that needs more has met a cycle.
-/

namespace SoftLogic

/-- An open task of a walk. -/
inductive Task
  /-- Open the dependencies of the node. -/
  | enter (r : Ref)
  /-- Settle the node; its dependencies have been dealt with. -/
  | leave (r : Ref)
  deriving DecidableEq, Repr

/-- The node that a task is about. -/
def Task.ref : Task → Ref
  | .enter r | .leave r => r

/-- What a walk over state `σ` does at each node. -/
structure Visit (σ : Type) where
  /-- Nothing is left to do at the node. -/
  settled : σ → Ref → Bool
  /-- The nodes to settle first. -/
  dependencies : Ref → Except Fault (List Ref)
  /-- Settles the node. -/
  settle : Ref → EStateM Fault σ Unit

namespace Visit

variable {σ : Type}

/-- Carries out the tasks before the first one that opens a node; returns that node and the tasks after
it. -/
def advance (v : Visit σ) : List Task → EStateM Fault σ (Option (Ref × List Task))
  | [] => return none
  | task :: rest => do
    if v.settled (← get) task.ref then
      v.advance rest
    else
      match task with
      | .enter r => return some (r, rest)
      | .leave r => do
        v.settle r
        v.advance rest

/-- The tasks that opening a node puts in front: its dependencies, the last one first, then leaving it. -/
def opening (r : Ref) (dependencies : List Ref) (rest : List Task) : List Task :=
  (dependencies.map .enter).reverse ++ .leave r :: rest

/-- Carries out all tasks, opening at most `fuel` nodes. -/
def run (v : Visit σ) : Nat → List Task → EStateM Fault σ Unit
  | fuel, tasks => do
    match ← v.advance tasks with
    | none => return ()
    | some (r, rest) =>
      match fuel with
      | 0 => throw .cycle
      | fuel + 1 =>
        match v.dependencies r with
        | .error fault => throw fault
        | .ok dependencies => v.run fuel (opening r dependencies rest)

/-! ### Steps of a walk -/

@[simp] theorem advance_nil (v : Visit σ) (s : σ) : v.advance [] s = .ok none s := rfl

theorem advance_cons (v : Visit σ) (task : Task) (rest : List Task) (s : σ) :
    v.advance (task :: rest) s =
      if v.settled s task.ref then v.advance rest s
      else match task with
        | .enter r => .ok (some (r, rest)) s
        | .leave r => (v.settle r >>= fun _ => v.advance rest) s := by
  show (if v.settled s task.ref = true then v.advance rest else
    match task with
    | .enter r => return some (r, rest)
    | .leave r => v.settle r >>= fun _ => v.advance rest) s = _
  split
  · rfl
  · cases task <;> rfl

theorem advance_of_settled {v : Visit σ} {s : σ} {task : Task} (h : v.settled s task.ref = true)
    (rest : List Task) : v.advance (task :: rest) s = v.advance rest s := by
  rw [advance_cons, if_pos h]

theorem advance_enter {v : Visit σ} {s : σ} {r : Ref} (h : v.settled s r = false) (rest : List Task) :
    v.advance (.enter r :: rest) s = .ok (some (r, rest)) s := by
  simp [advance_cons, Task.ref, h]

theorem advance_leave {v : Visit σ} {s : σ} {r : Ref} (h : v.settled s r = false) (rest : List Task) :
    v.advance (.leave r :: rest) s = (v.settle r >>= fun _ => v.advance rest) s := by
  simp [advance_cons, Task.ref, h]

end Visit

end SoftLogic
