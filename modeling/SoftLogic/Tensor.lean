/-!
# Tensors

A scalar, or a stack of tensors.  A caller gives the raw values of a circuit as a tensor, and the circuit
refuses one that is not a vector of the right length.

The parts of a stack may disagree, and then the tensor has no shape: `Tensor.extents` is what they do agree
on, and `Tensor.shape` refuses the rest.
-/

namespace SoftLogic

/-- A scalar or a stack of tensors. -/
inductive Tensor (R : Type)
  | scalar (x : R)
  | stack (parts : List (Tensor R))

/-- A shape between parentheses; a single extent is followed by a comma. -/
def shapeText : List Nat → String
  | [n] => s!"({n},)"
  | ns => "(" ++ String.intercalate ", " (ns.map toString) ++ ")"

/-- Why a tensor has no shape. -/
inductive TensorError
  /-- Its parts disagree beyond some extents. -/
  | uneven (shared : List Nat)
  /-- It is stacked too deeply. -/
  | deep
  deriving DecidableEq, Repr

namespace Tensor

/-- The extents that the parts of a tensor agree on. -/
structure Extents where
  /-- The extents that all parts have, outermost first. -/
  shared : List Nat
  /-- Whether no part has any more. -/
  isEven : Bool
  deriving DecidableEq, Repr

/-- The longest list that two lists start with. -/
def commonStart : List Nat → List Nat → List Nat
  | a :: as, b :: bs => if a = b then a :: commonStart as bs else []
  | _, _ => []

/-- What two tensors agree on. -/
def Extents.meet (a b : Extents) : Extents := if a = b then a else ⟨commonStart a.shared b.shared, false⟩

/-- The extents of a stack of `count` tensors that agree on `e`. -/
def Extents.stacked (count : Nat) (e : Extents) : Extents := { e with shared := count :: e.shared }

variable {R S : Type}

/-- The extents of a tensor.  An empty stack has no further ones. -/
def extents : Tensor R → Extents
  | .scalar _ => ⟨[], true⟩
  | .stack [] => ⟨[0], true⟩
  | .stack (part :: parts) =>
    ((parts.map extents).foldl Extents.meet part.extents).stacked (parts.length + 1)

/-- The most extents that a shape has. -/
def maxExtents : Nat := 64

/-- The shape of a tensor, outermost extent first. -/
def shape (t : Tensor R) : Except TensorError (List Nat) :=
  match t.extents with
  | ⟨shared, true⟩ => if shared.length ≤ maxExtents then .ok shared else .error .deep
  | ⟨shared, false⟩ => if shared.length < maxExtents then .error (.uneven shared) else .error .deep

/-- The scalars of a tensor, in order. -/
def entries : Tensor R → List R
  | .scalar x => [x]
  | .stack parts => parts.flatMap entries

/-- The tensor with the given entries in a row. -/
def vector (xs : List R) : Tensor R := .stack (xs.map .scalar)

/-- Applies a function to every scalar. -/
def map (f : R → S) : Tensor R → Tensor S
  | .scalar x => .scalar (f x)
  | .stack parts => .stack (parts.map (map f))

@[simp] theorem Extents.meet_self (a : Extents) : a.meet a = a := by simp [meet]

theorem foldl_meet_scalars (xs : List R) :
    ((xs.map Tensor.scalar).map extents).foldl Extents.meet ⟨[], true⟩ = ⟨[], true⟩ := by
  induction xs with
  | nil => rfl
  | cons x xs ih => simpa [extents] using ih

@[simp] theorem extents_vector (xs : List R) : (vector xs).extents = ⟨[xs.length], true⟩ := by
  cases xs with
  | nil => simp [vector, extents]
  | cons x xs =>
    have h := foldl_meet_scalars xs
    simp only [List.map_map] at h
    simp [vector, extents, h, Extents.stacked]

@[simp] theorem shape_vector (xs : List R) : (vector xs).shape = .ok [xs.length] := by
  simp [shape, maxExtents]

@[simp] theorem entries_vector (xs : List R) : (vector xs).entries = xs := by
  induction xs with
  | nil => simp [vector, entries]
  | cons x xs ih =>
    simp only [vector, entries] at ih
    simp [vector, entries, ih]

end Tensor

/-- The wording of a refusal. -/
def TensorError.message : TensorError → String
  | .uneven shared =>
    "setting an array element with a sequence. The requested array has an inhomogeneous shape after "
      ++ s!"{shared.length} dimensions. The detected shape was {shapeText shared} + inhomogeneous part."
  | .deep =>
    "setting an array element with a sequence. "
      ++ s!"The requested array would exceed the maximum number of dimension of {Tensor.maxExtents}."

end SoftLogic
