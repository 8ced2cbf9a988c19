import SoftLogic.Clause.Token
import SoftLogic.Netlist.Registry

/-!
# Assembling clauses

A clause is assembled in a registry whose variables are given as shared nodes.  There is no precedence: a
connective takes everything to its left, back to the opening parenthesis, as its first operand, and the
next complete operand as its second.

Two stacks hold what is under way: gates that wait for an operand, with marks for open parentheses, and
finished operands.  As soon as an operand is complete it is folded into the waiting gates, down to the
nearest mark.  What a rejected clause had placed stays in the registry.
-/

namespace SoftLogic

/-- Why a clause was not assembled. -/
inductive AssemblyError
  /-- The clause is at fault. -/
  | clause (error : ClauseError)
  /-- The registry refused a node. -/
  | register (error : RegisterError)
  deriving DecidableEq, Repr

/-- The wording of a failed assembly. -/
def AssemblyError.message : AssemblyError → String
  | .clause e => e.message
  | .register e => e.message

/-- An assembly in a registry. -/
abbrev AssemblyM := EStateM AssemblyError Registry

namespace Assembly

/-- What waits for an operand. -/
inductive Pending
  /-- A gate with an open slot. -/
  | gate (r : Ref)
  /-- An open parenthesis. -/
  | group
  deriving DecidableEq, Repr

/-- The two stacks of an assembly, innermost entries first. -/
structure Stacks where
  pending : List Pending
  operands : List Ref
  deriving DecidableEq, Repr

/-- Rejects the clause for a flaw at a column. -/
def reject {α : Type} (clause : String) (flaw : Flaw) (column : Option Nat) : AssemblyM α :=
  throw (.clause (.malformed flaw column clause))

/-- Places a new node in the registry. -/
def place (gate : Gate) : AssemblyM Ref := EStateM.adaptExcept .register (Registry.place gate)

/-- Fills the open slot of a gate. -/
def wire (r operand : Ref) : AssemblyM Unit := do
  match (← get).wire r operand with
  | .ok reg => set reg
  | .error e => throw (.register e)

/-- Folds finished operands into the gates that wait for them, down to the nearest open parenthesis. -/
def collapse (clause : String) (column : Nat) : List Pending → List Ref → AssemblyM Stacks
  | .gate r :: pending, operands => do
    match operands with
    | [] => reject clause (.noOperand ((← get).net.symbol r)) column
    | a :: operands => do
      wire r a
      collapse clause column pending (r :: operands)
  | pending, operands => return ⟨pending, operands⟩

/-- Takes one token; `leaf` gives the node of a variable. -/
def step (clause : String) (leaf : Nat → Ref) (s : Stacks) (t : Token) : AssemblyM Stacks := do
  match t.symbol with
  | .variable index => collapse clause t.column s.pending (leaf index :: s.operands)
  | .connective op =>
    match s.operands with
    | [] => reject clause (.noLeftOperand op) t.column
    | a :: operands => do
      let r ← place (.binary op a none)
      return ⟨.gate r :: s.pending, operands⟩
  | .not => do
    let r ← place (.not none)
    return ⟨.gate r :: s.pending, s.operands⟩
  | .openGroup => do
    modify fun reg => reg.fresh.2
    return ⟨.group :: s.pending, s.operands⟩
  | .closeGroup =>
    match s.pending with
    | .group :: pending => collapse clause t.column pending s.operands
    | _ => reject clause .unmatchedClose t.column

/-- Closes the clause: one operand has to be left, and its cost becomes the root. -/
def close (clause : String) (s : Stacks) : AssemblyM Ref := do
  let s ← collapse clause clause.length s.pending s.operands
  match s.pending, s.operands with
  | [], [a] => place (.cost a)
  | [], [] => reject clause .noOperands none
  | [], operands => reject clause (.unconnected operands.length) none
  | _, _ => reject clause .unclosedOpen none

/-- Assembles a clause over `declared` variables, whose nodes are given by `leaf`, and returns its root. -/
def assemble (declared : Nat) (leaf : Nat → Ref) (clause : String) : AssemblyM Ref := do
  match Token.scan clause declared with
  | .error e => throw (.clause e)
  | .ok tokens => do
    let s ← tokens.foldlM (step clause leaf) ⟨[], []⟩
    close clause s

end Assembly

end SoftLogic
