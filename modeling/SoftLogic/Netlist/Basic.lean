import SoftLogic.Netlist.Fault

/-!
# Netlists

A `Netlist` is the static side of a circuit: its nodes in creation order, each with an id, a gate and the
list of the nodes it feeds.  Values and gradients are kept apart, in `Signals`.

Wiring is done by three operations, each of which either returns a new netlist or refuses with a `Fault`
and so leaves the netlist as it was:

* `add` creates a node and makes it a consumer of the operands that its gate already has;
* `addOperand` fills the open slot of a gate;
* `connect` makes one node a consumer of another without filling a slot.

Only a sigmoid may feed several nodes, and a cost feeds none.
-/

namespace SoftLogic

/-- One node: a label, what it computes, and the nodes it feeds in the order they were connected. -/
structure Node where
  id : Int
  gate : Gate
  consumers : List Ref
  deriving DecidableEq, Repr

/-- The nodes of a circuit in creation order. -/
structure Netlist where
  nodes : Array Node
  deriving DecidableEq, Repr

namespace Netlist

/-- The netlist without nodes. -/
def empty : Netlist := ⟨#[]⟩

/-- The number of nodes. -/
def size (net : Netlist) : Nat := net.nodes.size

/-- The node at a place; beyond the last one stands a node that computes nothing. -/
def node (net : Netlist) (r : Ref) : Node := net.nodes.getD r ⟨0, .plain, []⟩

/-- The gate at a place. -/
def gate (net : Netlist) (r : Ref) : Gate := (net.node r).gate

/-- The id of the node at a place. -/
def id (net : Netlist) (r : Ref) : Int := (net.node r).id

/-- The tag of the node at a place. -/
def symbol (net : Netlist) (r : Ref) : Char := (net.gate r).symbol

/-- The nodes that a node reads. -/
def operands (net : Netlist) (r : Ref) : List Ref := (net.gate r).operands

/-- The nodes that a node feeds. -/
def consumers (net : Netlist) (r : Ref) : List Ref := (net.node r).consumers

/-- Changes the node at a place. -/
def update (net : Netlist) (r : Ref) (f : Node → Node) : Netlist := ⟨net.nodes.modify r f⟩

/-- Appends a node that feeds nothing yet. -/
def push (net : Netlist) (id : Int) (gate : Gate) : Netlist := ⟨net.nodes.push ⟨id, gate, []⟩⟩

/-- Records that `operand` feeds `consumer`, after those it feeds already. -/
def link (net : Netlist) (operand consumer : Ref) : Netlist :=
  net.update operand fun n => { n with consumers := n.consumers ++ [consumer] }

/-- Puts a gate with other operands in the place of a gate. -/
def setGate (net : Netlist) (r : Ref) (gate : Gate) : Netlist :=
  net.update r fun n => { n with gate := gate }

/-! ### Wiring -/

/-- Makes `consumer` a consumer of `operand`, if the kind of `operand` allows one more. -/
def connect (net : Netlist) (operand consumer : Ref) : Except Fault Netlist :=
  match net.gate operand, net.consumers operand with
  | .cost _, _ => .error (.feedsNothing (net.id operand))
  | .sigmoid _, _ => .ok (net.link operand consumer)
  | _, [] => .ok (net.link operand consumer)
  | gate, current :: _ =>
    .error (.alreadyFeeds (net.id operand) gate.symbol (net.id current) (net.id consumer))

/-- Creates a node, which becomes a consumer of each operand that its gate has. -/
def add (net : Netlist) (id : Int) (gate : Gate) : Except Fault Netlist :=
  gate.operands.foldlM (fun net operand => net.connect operand (net.size - 1)) (net.push id gate)

/-- Fills the open slot of the gate at `r` with `operand`. -/
def addOperand (net : Netlist) (r operand : Ref) : Except Fault Netlist :=
  match net.gate r with
  | .not none => do return (← net.connect operand r).setGate r (.not (some operand))
  | .not (some a) => .error (.operandTaken (net.id r) (net.id a))
  | .binary op a none => do return (← net.connect operand r).setGate r (.binary op a (some operand))
  | .binary op a (some b) =>
    .error (.operandsTaken (net.id r) op.symbol (net.id a) (net.id b) (net.id operand))
  | gate => .error (.takesNoInput (net.id r) gate.symbol)

/-! ### What the operations do to a node -/

@[simp] theorem size_empty : empty.size = 0 := rfl

/-- The nodes are those at the places below the size. -/
theorem nodes_toList (net : Netlist) : net.nodes.toList = (List.range net.size).map net.node := by
  refine List.ext_getElem (by simp [size]) fun r hr _ => ?_
  have hlt : r < net.nodes.size := by simpa using hr
  simp [node, hlt]

@[simp] theorem size_update (net : Netlist) (r : Ref) (f : Node → Node) :
    (net.update r f).size = net.size := by simp [size, update]

@[simp] theorem size_push (net : Netlist) (id : Int) (gate : Gate) :
    (net.push id gate).size = net.size + 1 := by simp [size, push]

@[simp] theorem size_link (net : Netlist) (a c : Ref) : (net.link a c).size = net.size := by
  simp [link]

@[simp] theorem size_setGate (net : Netlist) (r : Ref) (gate : Gate) :
    (net.setGate r gate).size = net.size := by simp [setGate]

theorem node_update (net : Netlist) (r q : Ref) (f : Node → Node) (h : r < net.size) :
    (net.update r f).node q = if q = r then f (net.node q) else net.node q := by
  simp only [size] at h
  simp only [node, update, Array.getD_eq_getD_getElem?, Array.getElem?_modify]
  by_cases hq : q = r
  · subst hq; simp [h]
  · simp [hq, Ne.symm hq]

theorem node_push (net : Netlist) (id : Int) (gate : Gate) (q : Ref) :
    (net.push id gate).node q = if q = net.size then ⟨id, gate, []⟩ else net.node q := by
  simp only [node, push, size, Array.getD_eq_getD_getElem?, Array.getElem?_push]
  split <;> simp_all

/-- A link changes the consumers of one node and nothing else. -/
theorem node_link (net : Netlist) (a c q : Ref) :
    (net.link a c).node q =
      if q = a ∧ a < net.size then { net.node q with consumers := net.consumers q ++ [c] }
      else net.node q := by
  by_cases h : a < net.size
  · rw [link, node_update _ _ _ _ h]
    by_cases hq : q = a
    · simp [hq, h, consumers]
    · simp [hq]
  · simp only [h, and_false, if_false]
    simp only [size, Nat.not_lt] at h
    simp only [link, update, node, Array.getD_eq_getD_getElem?, Array.getElem?_modify]
    split
    · subst q; simp [Array.getElem?_eq_none h]
    · rfl

@[simp] theorem gate_link (net : Netlist) (a c q : Ref) : (net.link a c).gate q = net.gate q := by
  unfold gate
  rw [node_link]
  split <;> rfl

@[simp] theorem id_link (net : Netlist) (a c q : Ref) : (net.link a c).id q = net.id q := by
  unfold id
  rw [node_link]
  split <;> rfl

theorem consumers_link {net : Netlist} {a : Ref} (h : a < net.size) (c q : Ref) :
    (net.link a c).consumers q = if q = a then net.consumers a ++ [c] else net.consumers q := by
  unfold consumers
  rw [node_link]
  by_cases hq : q = a
  · subst hq; simp [h, consumers]
  · simp [hq]

theorem gate_setGate {net : Netlist} {r : Ref} (h : r < net.size) (gate : Gate) (q : Ref) :
    (net.setGate r gate).gate q = if q = r then gate else net.gate q := by
  unfold setGate Netlist.gate
  rw [node_update _ _ _ _ h]
  split <;> rfl

theorem consumers_setGate {net : Netlist} {r : Ref} (h : r < net.size) (gate : Gate) (q : Ref) :
    (net.setGate r gate).consumers q = net.consumers q := by
  unfold setGate consumers
  rw [node_update _ _ _ _ h]
  split <;> rfl

/-- Connecting does nothing but link, when it is not refused. -/
theorem eq_link_of_connect {net net' : Netlist} {a c : Ref} (h : net.connect a c = .ok net') :
    net' = net.link a c := by
  unfold connect at h
  split at h
  · cases h
  · exact (Except.ok.inj h).symm
  · exact (Except.ok.inj h).symm
  · cases h

end Netlist

end SoftLogic
