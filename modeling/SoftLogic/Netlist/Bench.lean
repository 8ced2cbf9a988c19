import SoftLogic.Netlist.Gradient
import SoftLogic.Netlist.Reset

/-!
# Nodes on a bench

Nodes that are wired by hand, outside of a circuit.  The calls that wire change nodes one statement after the other:
first the consumer of a link is noted down, and only then is the slot filled that the link is for.  A call that is
refused stops where it is, and nothing is undone.
-/

namespace SoftLogic

/-- Nodes with what is known at them. -/
structure Bench (R : Type) where
  net : Netlist
  signals : Signals R

/-- A computation on a bench that may be refused. -/
abbrev BenchM (R : Type) := EStateM Fault (Bench R)

namespace Bench

variable {R : Type} [Scalar R]

/-- The bench without nodes. -/
def empty : Bench R := ⟨.empty, .fresh .empty⟩

/-- Makes `m` a consumer of `p`, if the kind of `p` allows one more; `id` is the id of `m`. -/
def setConsumer (p m : Ref) (id : Int) : BenchM R Unit := do
  let net := (← get).net
  match net.gate p, net.consumers p with
  | .cost _, _ => throw (.feedsNothing (net.id p))
  | .sigmoid _, _ | _, [] => modify fun b => { b with net := b.net.link p m }
  | gate, current :: _ => throw (.alreadyFeeds (net.id p) gate.symbol (net.id current) id)

/-- Puts a gate in the place of a gate. -/
def setGate (m : Ref) (gate : Gate) : BenchM R Unit := modify fun b => { b with net := b.net.setGate m gate }

/-- Fills the open slot of `m` with `p`, which first takes `m` as a consumer. -/
def addInput (m p : Ref) : BenchM R Unit := do
  let net := (← get).net
  match net.gate m with
  | .not (some a) => throw (.operandTaken (net.id m) (net.id a))
  | .not none => do
    setConsumer p m (net.id m)
    setGate m (.not (some p))
  | .binary op a (some b) => throw (.operandsTaken (net.id m) op.symbol (net.id a) (net.id b) (net.id p))
  | .binary op a none => do
    setConsumer p m (net.id m)
    setGate m (.binary op a (some p))
  | gate => throw (.takesNoInput (net.id m) gate.symbol)

/-- Makes a node, which each node that it reads first takes as a consumer.  It is on the bench once it is made. -/
def construct (id : Int) (gate : Gate) : BenchM R Unit := do
  let place := (← get).net.size
  gate.operands.forM fun a => setConsumer a place id
  modify fun b => ⟨b.net.push id gate, ⟨b.signals.cells.push (.initial gate)⟩⟩

/-- Runs a computation on the signals. -/
def onSignals {α : Type} (x : Netlist → SignalM R α) : BenchM R Unit := fun b =>
  match x b.net b.signals with
  | .ok _ s => .ok () { b with signals := s }
  | .error fault s => .error fault { b with signals := s }

/-- A call on nodes of a bench. -/
inductive Call (R : Type)
  | construct (id : Int) (gate : Gate)
  | addInput (m p : Ref)
  | setConsumer (p m : Ref)
  | addGradient (r : Ref) (d : R)
  | hold (r : Ref) (x : R)
  | evaluate (r : Ref)
  | truth (r : Ref)
  | pull (r : Ref)
  | inputGradient (r : Ref)
  | reset (r : Ref)

/-- Carries out a call; what it returns is not looked at. -/
def Call.run : Call R → BenchM R Unit
  | .construct id gate => Bench.construct id gate
  | .addInput m p => Bench.addInput m p
  | .setConsumer p m => do Bench.setConsumer p m ((← get).net.id m)
  | .addGradient r d => onSignals fun net => net.addGradient r d
  | .hold r x => onSignals fun net => net.hold r x
  | .evaluate r => onSignals fun net => net.evaluate r
  | .truth r => onSignals fun net => net.truth r
  | .pull r => onSignals fun net => net.pull r
  | .inputGradient r => onSignals fun net => net.inputGradient r
  | .reset r => onSignals fun net => (modify (net.resetNode r) : SignalM R Unit)

end Bench

end SoftLogic
