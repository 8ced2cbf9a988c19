import SoftLogic.Tensor

/-!
# Tensors that are vectors

The parts of a tensor with a shape agree on all their extents, so a tensor whose shape has a single extent is a row
of scalars: `Tensor.eq_vector_of_shape`.
-/

namespace SoftLogic.Tensor

variable {R : Type} {t : Tensor R}

theorem map_vector {S : Type} (f : R → S) (xs : List R) : (vector xs).map f = vector (xs.map f) := by
  simp [vector, map]

/-- Tensors that agree evenly have the same extents. -/
theorem eq_of_foldl_meet {es : List Extents} {e : Extents} {shared : List Nat}
    (h : es.foldl Extents.meet e = ⟨shared, true⟩) : e = ⟨shared, true⟩ ∧ ∀ e' ∈ es, e' = ⟨shared, true⟩ := by
  induction es generalizing e with
  | nil => exact ⟨h, fun e' he' => absurd he' List.not_mem_nil⟩
  | cons e₁ es ih =>
    obtain ⟨hmeet, hes⟩ := ih h
    unfold Extents.meet at hmeet
    split at hmeet
    · next heq =>
      refine ⟨hmeet, fun e' he' => ?_⟩
      rcases List.mem_cons.mp he' with rfl | he'
      · rw [← heq, hmeet]
      · exact hes e' he'
    · cases hmeet

theorem eq_scalar_of_extents (h : t.extents = ⟨[], true⟩) : ∃ x, t = .scalar x := by
  match t with
  | .scalar x => exact ⟨x, rfl⟩
  | .stack [] => simp [extents] at h
  | .stack (part :: parts) => simp [extents, Extents.stacked] at h

/-- A list of scalars is a row. -/
theorem eq_map_scalar {parts : List (Tensor R)} (h : ∀ part ∈ parts, part.extents = ⟨[], true⟩) :
    ∃ xs : List R, parts = xs.map .scalar := by
  induction parts with
  | nil => exact ⟨[], rfl⟩
  | cons part parts ih =>
    obtain ⟨x, rfl⟩ := eq_scalar_of_extents (h part List.mem_cons_self)
    obtain ⟨xs, rfl⟩ := ih fun part hpart => h part (List.mem_cons_of_mem _ hpart)
    exact ⟨x :: xs, rfl⟩

/-- A tensor with a single extent is a vector of that length. -/
theorem eq_vector_of_shape {n : Nat} (h : t.shape = .ok [n]) : ∃ xs : List R, xs.length = n ∧ t = .vector xs := by
  have hextents : t.extents = ⟨[n], true⟩ := by
    unfold shape at h
    split at h
    · next shared heq =>
      split at h
      · cases h
        exact heq
      · cases h
    · split at h <;> cases h
  have hvector : ∃ xs : List R, t = .vector xs := by
    match t with
    | .scalar x => simp [extents] at hextents
    | .stack [] => exact ⟨[], rfl⟩
    | .stack (part :: parts) =>
      have hfold : (parts.map extents).foldl Extents.meet part.extents = ⟨[], true⟩ := by
        rw [extents] at hextents
        generalize (parts.map extents).foldl Extents.meet part.extents = e at hextents ⊢
        cases e
        cases hextents
        rfl
      obtain ⟨hpart, hparts⟩ := eq_of_foldl_meet hfold
      have hscalars : ∀ part' ∈ part :: parts, part'.extents = ⟨[], true⟩ := by
        intro part' hmem
        rcases List.mem_cons.mp hmem with rfl | hmem
        · exact hpart
        · exact hparts _ (List.mem_map_of_mem hmem)
      obtain ⟨xs, hxs⟩ := eq_map_scalar hscalars
      exact ⟨xs, congrArg Tensor.stack hxs⟩
  obtain ⟨xs, rfl⟩ := hvector
  rw [extents_vector] at hextents
  cases hextents
  exact ⟨xs, rfl, rfl⟩

end SoftLogic.Tensor
