import SoftLogic.Circuit.Statistics
import SoftLogic.Decimal.Places

/-!
# Summaries

Two texts about a circuit: a listing with one line for each node, and a summary of the statistics.
-/

namespace SoftLogic

namespace Layout

/-- A text moved to the right edge of a column. -/
def right (width : Nat) (s : String) : String := "".pushn ' ' (width - s.length) ++ s

/-- A text moved to the left edge of a column. -/
def left (width : Nat) (s : String) : String := s.pushn ' ' (width - s.length)

/-- Puts a comma before every third digit, counted from the end; the digits are given last one first. -/
def groupThousands : List Char → List Char
  | a :: b :: c :: d :: rest => a :: b :: c :: ',' :: groupThousands (d :: rest)
  | digits => digits

/-- A number with its thousands set apart by commas. -/
def thousands (n : Nat) : String :=
  .ofList (groupThousands (Nat.toDigits 10 n).reverse).reverse

end Layout

namespace Netlist

/-- The line of one node in a listing. -/
def listingLine (net : Netlist) (n : Node) : String :=
  let id := Layout.right 4 (toString n.id)
  let tag := n.gate.symbol
  match n.gate.operands with
  | [] => s!"Node {id}: {tag}  [leaf/input]"
  | operands =>
    let sources := String.intercalate ", " (operands.map fun r => toString (net.id r))
    s!"Node {id}: {tag}  <- [{sources}]"

/-- How many of `size` nodes a listing with a limit shows.  A negative limit leaves out that many at the
end. -/
def shown (size : Nat) (limit : Int) : Nat :=
  if limit < 0 then (size + limit).toNat else limit.toNat

/-- The listing of the nodes up to a limit, with a last line for those beyond it. -/
def listing (net : Netlist) (limit : Int) : String :=
  let lines := (net.nodes.toList.take (shown net.size limit)).map net.listingLine
  let more := if limit < net.size then [s!"... ({net.size - limit} more nodes)"] else []
  String.intercalate "\n" (lines ++ more)

end Netlist

namespace Statistics

/-- The kinds of node, the most frequent first; kinds of one frequency keep their order. -/
def byFrequency (s : Statistics) : List (Char × Nat) :=
  s.operations.mergeSort fun a b => b.2 ≤ a.2

/-- The line of one kind of node. -/
def operationLine (s : Statistics) (tag : Char) (count : Nat) : String :=
  let share := 100.0 * count.toFloat / s.nodes.toFloat
  let name := Layout.left 4 (toString tag)
  let number := Layout.right 6 (Layout.thousands count)
  let percent := Layout.right 5 (Decimal.fixed 1 share)
  s!"  {name}: {number} ({percent}%)"

/-- The lines of a summary before the listing. -/
def summaryLines (s : Statistics) : List String :=
  let rule := "".pushn '=' 70
  [ "",
    rule,
    "CIRCUIT SUMMARY",
    rule,
    s!"Variables:          {Layout.thousands s.numVars}",
    s!"Clauses:            {Layout.thousands s.clauses}",
    s!"Total nodes:        {Layout.thousands s.nodes}",
    s!"Total edges:        {Layout.thousands s.edges}",
    s!"Max fan-out:        {s.maxFanOut}",
    s!"Avg fan-out:        {Decimal.fixed 2 s.averageFanOut}",
    s!"Max clause depth:   {s.maxDepth}",
    "",
    "Gate breakdown:" ]
  ++ s.byFrequency.map fun (tag, count) => s.operationLine tag count

end Statistics

namespace Circuit

/-- How many nodes a detailed summary lists. -/
def detailLimit : Int := 100

/-- The summary of a circuit, with a listing of its first nodes if wanted. -/
def summary (c : Circuit) (detailed : Bool) : Except Fault String := do
  let s ← c.statistics
  if s.nodes = 0 then return "Empty circuit"
  let detail := if detailed then ["", c.net.listing detailLimit] else []
  return String.intercalate "\n" (s.summaryLines ++ detail ++ ["".pushn '=' 70, ""])

end Circuit

end SoftLogic
