import SoftLogic.Netlist.Basic

/-!
# Registries

A registry is a netlist that also hands out ids, each larger than all before.  An id may be drawn without a
node being registered under it, so the ids of the nodes can have gaps; no two nodes have the same one.
-/

namespace SoftLogic

/-- Why a node was not registered. -/
inductive RegisterError
  /-- There is a node with that id. -/
  | duplicate (id : Int)
  /-- An operand refused the new consumer. -/
  | wiring (fault : Fault)
  deriving DecidableEq, Repr

/-- The wording of a refusal to register. -/
def RegisterError.message : RegisterError → String
  | .duplicate id => s!"Node id {id} recorded twice"
  | .wiring fault => fault.message

/-- The registered nodes and the next id to hand out. -/
structure Registry where
  net : Netlist
  nextId : Nat
  deriving DecidableEq, Repr

namespace Registry

/-- The registry with no nodes, from which no id was drawn. -/
def empty : Registry := ⟨.empty, 0⟩

/-- The ids of the registered nodes, in order. -/
def ids (reg : Registry) : List Int := reg.net.nodes.toList.map Node.id

/-- The number of registered nodes. -/
def size (reg : Registry) : Nat := reg.net.size

/-- The node registered under an id. -/
def find? (reg : Registry) (id : Int) : Option Ref := reg.net.nodes.findIdx? (·.id == id)

/-- Whether a node is registered under an id. -/
def contains (reg : Registry) (id : Int) : Bool := (reg.find? id).isSome

/-- Draws an id. -/
def fresh (reg : Registry) : Int × Registry := (reg.nextId, { reg with nextId := reg.nextId + 1 })

/-- Registers a new node under an id that no registered node has. -/
def insert (reg : Registry) (id : Int) (gate : Gate) : Except RegisterError Registry :=
  if reg.contains id then .error (.duplicate id)
  else
    match reg.net.add id gate with
    | .ok net => .ok { reg with net := net }
    | .error fault => .error (.wiring fault)

/-- Registers a node that was made elsewhere, if no registered node has its id. -/
def record (node : Node) : EStateM RegisterError Registry Unit := do
  if (← get).contains node.id then throw (.duplicate node.id)
  modify fun reg => { reg with net := ⟨reg.net.nodes.push node⟩ }

/-- Fills the open slot of a gate. -/
def wire (reg : Registry) (r operand : Ref) : Except RegisterError Registry :=
  match reg.net.addOperand r operand with
  | .ok net => .ok { reg with net := net }
  | .error fault => .error (.wiring fault)

/-- Registers a new node under a fresh id and returns its place.  The id is drawn even if the node is
refused. -/
def place (gate : Gate) : EStateM RegisterError Registry Ref := do
  let id ← modifyGet fresh
  match (← get).insert id gate with
  | .ok reg =>
    set reg
    return reg.size - 1
  | .error e => throw e

@[simp] theorem size_empty : empty.size = 0 := rfl

@[simp] theorem fresh_fst (reg : Registry) : reg.fresh.1 = reg.nextId := rfl

@[simp] theorem fresh_snd (reg : Registry) : reg.fresh.2 = { reg with nextId := reg.nextId + 1 } := rfl

/-- An id that is found is the id of the node found. -/
theorem id_of_find? {reg : Registry} {id : Int} {r : Ref} (h : reg.find? id = some r) : reg.net.id r = id := by
  obtain ⟨hr, hid, -⟩ := Array.findIdx?_eq_some_iff_getElem.mp h
  simpa [Netlist.id, Netlist.node, hr] using hid

end Registry

end SoftLogic
