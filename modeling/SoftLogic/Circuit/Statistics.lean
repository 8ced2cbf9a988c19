import SoftLogic.Circuit.Basic

/-!
# Statistics of a circuit

Counts of nodes, edges and kinds, the fan-out, and the depth of the clauses.  The depth of a node is the
length of the longest way from it down to a node that reads nothing.

Depth is measured with a stack.  The node on top is measured once all its operands are; until then it stays and
those of them that are still to be measured go on top of it, so it is looked at again, and an operand may stand on
the stack more than once.  What was measured is kept from one clause to the next, by the ids of the nodes.
-/

namespace SoftLogic

namespace Netlist

/-- The depths measured so far, by the ids of the nodes. -/
abbrev Depths := List (Int × Nat)

/-- The depth measured for a node. -/
def depth? (net : Netlist) (depths : Depths) (r : Ref) : Option Nat := depths.lookup (net.id r)

/-- The operands of a node that are still to be measured. -/
def unmeasured (net : Netlist) (depths : Depths) (r : Ref) : List Ref :=
  (net.operands r).filter fun a => (net.depth? depths a).isNone

/-- The depth of a node over operands of the given depths. -/
def depthOver : List Nat → Nat
  | [] => 0
  | depths => 1 + depths.foldl max 0

/-- One round with `r` on top of the stack. -/
def measureTop (net : Netlist) (depths : Depths) (r : Ref) (rest : List Ref) : Depths × List Ref :=
  if (net.depth? depths r).isSome then (depths, rest)
  else
    match net.unmeasured depths r with
    | [] => ((net.id r, depthOver ((net.operands r).filterMap (net.depth? depths))) :: depths, rest)
    | pending => (depths, pending.reverse ++ r :: rest)

/-- Measures the nodes of a stack in at most `fuel` rounds. -/
def measureAll (net : Netlist) : Nat → Depths → List Ref → Except Fault Depths
  | _, depths, [] => .ok depths
  | 0, _, _ :: _ => .error .cycle
  | fuel + 1, depths, r :: rest =>
    let next := net.measureTop depths r rest
    net.measureAll fuel next.1 next.2

/-- The sum of some counts. -/
def total (counts : List Nat) : Nat := counts.foldr (· + ·) 0

/-- The number of edges from operands to their consumers, counted at the consumers. -/
def edges (net : Netlist) : Nat := total (net.nodes.toList.map fun n => n.gate.operands.length)

/-- The number of consumers of each node. -/
def fanOuts (net : Netlist) : List Nat := net.nodes.toList.map fun n => n.consumers.length

/-- Rounds enough to measure a node that does not depend on itself: each node is opened at most once and each edge
puts one node on the stack. -/
def rounds (net : Netlist) : Nat := net.size + net.edges + 1

/-- Measures the depth of a node. -/
def depth (net : Netlist) (r : Ref) : StateT Depths (Except Fault) Nat := do
  let depths ← net.measureAll net.rounds (← get) [r]
  set depths
  return (net.depth? depths r).getD 0

/-- The greatest depth among some nodes, zero if there are none. -/
def maxDepth (net : Netlist) (roots : List Ref) : Except Fault Nat := do
  let (depths, _) ← (roots.mapM net.depth).run []
  return depths.foldl max 0

end Netlist

/-- Adds one to the count of a key; a new key comes last. -/
def countKey {α : Type} [BEq α] (key : α) : List (α × Nat) → List (α × Nat)
  | [] => [(key, 1)]
  | (k, n) :: rest => if k == key then (k, n + 1) :: rest else (k, n) :: countKey key rest

/-- How often each key occurs, in order of first occurrence. -/
def occurrences {α : Type} [BEq α] (keys : List α) : List (α × Nat) :=
  keys.foldl (fun counts key => countKey key counts) []

/-- The statistics of a circuit. -/
structure Statistics where
  nodes : Nat
  edges : Nat
  numVars : Nat
  clauses : Nat
  maxFanOut : Nat
  /-- The sum of all fan-outs. -/
  fanOut : Nat
  maxDepth : Nat
  /-- The number of nodes of each kind, by tag, in order of first appearance. -/
  operations : List (Char × Nat)
  deriving DecidableEq, Repr

/-- The average fan-out, zero if there are no nodes. -/
def Statistics.averageFanOut (s : Statistics) : Float :=
  if s.nodes = 0 then 0.0 else s.fanOut.toFloat / s.nodes.toFloat

/-- The statistics of a circuit.  Measuring depth fails on a clause that depends on itself. -/
def Circuit.statistics (c : Circuit) : Except Fault Statistics := do
  let depth ← c.net.maxDepth c.roots
  return {
    nodes := c.registry.size
    edges := c.net.edges
    numVars := c.numVars
    clauses := c.roots.length
    maxFanOut := c.net.fanOuts.foldl max 0
    fanOut := Netlist.total c.net.fanOuts
    maxDepth := depth
    operations := occurrences (c.net.nodes.toList.map fun n => n.gate.symbol) }

end SoftLogic
