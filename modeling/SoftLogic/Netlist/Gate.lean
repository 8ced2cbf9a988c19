/-!
# Gates

The kinds of node in a soft-logic circuit, with the operands that each kind reads.  A node is named by its
place in creation order, a `Ref`; its id is a label given by the caller and is used only for reading.

A negation waits for its operand and a binary gate for its second one, so those slots may be empty.
-/

namespace SoftLogic

/-- A node of a netlist, named by its place in creation order. -/
abbrev Ref := Nat

/-- The two infix connectives. -/
inductive Connective
  | and
  | or
  deriving DecidableEq, Repr

/-- What a node computes, and from which nodes. -/
inductive Gate
  /-- A node with no rule of its own. -/
  | plain
  /-- A leaf that holds one raw value. -/
  | input
  /-- The truth value of a raw value; the only kind that may feed several nodes. -/
  | sigmoid (source : Ref)
  /-- Negation, whose operand may still be missing. -/
  | not (operand : Option Ref)
  /-- A connective, whose second operand may still be missing. -/
  | binary (op : Connective) (first : Ref) (second : Option Ref)
  /-- The cost of one clause; it feeds nothing. -/
  | cost (source : Ref)
  deriving DecidableEq, Repr

/-- The sign of a connective in clauses and in listings. -/
def Connective.symbol : Connective → Char
  | .and => '^'
  | .or => 'v'

namespace Gate

/-- The nodes that a gate reads, in slot order. -/
def operands : Gate → List Ref
  | .plain | .input => []
  | .sigmoid a | .cost a => [a]
  | .not a => a.toList
  | .binary _ a b => a :: b.toList

/-- The one-character tag of a kind. -/
def symbol : Gate → Char
  | .plain => '?'
  | .input => 'i'
  | .sigmoid _ => 's'
  | .not _ => '~'
  | .binary op _ _ => op.symbol
  | .cost _ => 'c'

/-- The name of a kind of node. -/
def name : Gate → String
  | .plain => "Node"
  | .input => "InputNode"
  | .sigmoid _ => "SigmoidGate"
  | .not _ => "NotGate"
  | .binary .and _ _ => "AndGate"
  | .binary .or _ _ => "OrGate"
  | .cost _ => "CostNode"

/-- Whether the node is a leaf that holds a value. -/
def isInput : Gate → Bool
  | .input => true
  | _ => false

/-- The gradient of a node that nothing has pushed into: one at a cost, the end of the chain, and zero
elsewhere. -/
def baseline {R : Type} [Zero R] [One R] : Gate → R
  | .cost _ => 1
  | _ => 0

@[simp] theorem operands_input : Gate.input.operands = [] := rfl
@[simp] theorem operands_sigmoid (a : Ref) : (Gate.sigmoid a).operands = [a] := rfl
@[simp] theorem operands_not (a : Option Ref) : (Gate.not a).operands = a.toList := rfl
@[simp] theorem operands_binary (op : Connective) (a : Ref) (b : Option Ref) :
    (Gate.binary op a b).operands = a :: b.toList := rfl
@[simp] theorem operands_cost (a : Ref) : (Gate.cost a).operands = [a] := rfl

end Gate

end SoftLogic
