import SoftLogic.Netlist.Gate

/-!
# Faults

Why wiring or propagation was refused.  Each constructor is a cause; its wording is `Fault.message` and
its class is `Fault.category`.
-/

namespace SoftLogic

/-- Why wiring or propagating was refused.  Nodes are named by their ids. -/
inductive Fault
  /-- A node that may feed one node only already does. -/
  | alreadyFeeds (id : Int) (symbol : Char) (consumer refused : Int)
  /-- A cost feeds nothing. -/
  | feedsNothing (id : Int)
  /-- The kind has no open slot for an operand. -/
  | takesNoInput (id : Int) (symbol : Char)
  /-- The operand of a negation is there already. -/
  | operandTaken (id operand : Int)
  /-- Both operands of a connective are there already. -/
  | operandsTaken (id : Int) (symbol : Char) (first second refused : Int)
  /-- A negation was used before its operand was wired. -/
  | operandMissing (id : Int)
  /-- A connective was evaluated before its second operand was wired. -/
  | secondMissing (id : Int) (symbol : Char)
  /-- A gradient was pulled through a connective without its second operand. -/
  | secondUndefined (id : Int) (symbol : Char)
  /-- There is no consumer to pull a gradient from. -/
  | noConsumer (id : Int) (symbol : Char)
  /-- The gradient of a cost is not for others to change. -/
  | gradientFixed (id : Int)
  /-- A pull starts at an input and does not pass through one. -/
  | pullOrigin (id : Int)
  /-- The kind has no rule for this operation. -/
  | noRule
  /-- The kind has no operation of this name. -/
  | lacks (kind operation : String)
  /-- A value depends on itself, so the walk that looks for it has no end. -/
  | cycle
  deriving DecidableEq, Repr

/-- The classes of faults. -/
inductive Fault.Category
  /-- A slot is filled twice, or missing when needed. -/
  | wiring
  /-- The kind of node never supports the operation. -/
  | illegal
  /-- There is no rule at all. -/
  | unsupported
  /-- There is no such operation. -/
  | missing
  /-- The walk has no end. -/
  | endless
  deriving DecidableEq, Repr

namespace Fault

/-- The class of a fault. -/
def category : Fault → Category
  | .alreadyFeeds .. | .operandTaken .. | .operandsTaken .. | .operandMissing .. | .secondMissing ..
  | .secondUndefined .. | .noConsumer .. => .wiring
  | .feedsNothing .. | .takesNoInput .. | .gradientFixed .. | .pullOrigin .. => .illegal
  | .noRule => .unsupported
  | .lacks .. => .missing
  | .cycle => .endless

/-- The wording of a fault. -/
def message : Fault → String
  | .alreadyFeeds id symbol consumer refused =>
    s!"Node {id} ({symbol}) already feeds node {consumer}; cannot also feed node {refused}"
  | .feedsNothing id => s!"Cost node {id} is a clause root and feeds nothing"
  | .takesNoInput id symbol => s!"Node {id} ({symbol}) takes no further inputs"
  | .operandTaken id operand => s!"NOT gate {id} already has operand {operand}"
  | .operandsTaken id symbol first second refused =>
    s!"Gate {id} ({symbol}) already has both operands ({first}, {second}); cannot wire node {refused}"
  | .operandMissing id => s!"NOT gate {id} has no operand"
  | .secondMissing id symbol => s!"Gate {id} ({symbol}) used before its second operand was wired"
  | .secondUndefined id symbol => s!"Gate {id} ({symbol}) backpropagated with an undefined operand"
  | .noConsumer id symbol => s!"Node {id} ({symbol}) has no consumer to pull gradient from"
  | .gradientFixed id => s!"Gradient of cost node {id} is fixed at 1.0"
  | .pullOrigin id =>
    s!"Input node {id} is the origin of a pull; use resulting_grad() instead"
  | .noRule => ""
  | .lacks kind operation => s!"'{kind}' object has no attribute '{operation}'"
  | .cycle => "the wiring has a cycle"

end Fault

end SoftLogic
