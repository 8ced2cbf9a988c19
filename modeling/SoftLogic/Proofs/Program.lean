import SoftLogic.Program
import SoftLogic.Proofs.Text.Number

/-!
# Programs that were written

A program is written unless its count has too many digits (`Program.render_eq`).  It has one line for its count and one
for each clause, as long as no clause has a line boundary in it, and so it is read back as it is
(`Program.parse_written`).
-/

namespace SoftLogic.Program

open Text (isBlank isBoundary decimal width maxDigits)

variable {p : Program} {text : String}

/-- No clause goes over a line boundary. -/
abbrev SingleLines (clauses : List String) : Prop := ∀ clause ∈ clauses, ∀ c ∈ clause.toList, isBoundary c = false

theorem intercalate_append_sep (sep l : List Char) (ls : List (List Char)) :
    sep.intercalate (l :: ls) ++ sep = (l :: ls).flatMap (· ++ sep) := by
  induction ls generalizing l with
  | nil => simp
  | cons l' ls ih =>
    rw [List.intercalate_cons_cons, List.append_assoc, ih]
    rfl

theorem mem_intercalate {sep : List Char} {ls : List (List Char)} {c : Char} (h : c ∈ sep.intercalate ls) :
    c ∈ sep ∨ ∃ l ∈ ls, c ∈ l := by
  induction ls with
  | nil => cases h
  | cons l ls ih =>
    cases ls with
    | nil => exact .inr ⟨l, List.mem_cons_self, by simpa using h⟩
    | cons l' ls =>
      rw [List.intercalate_cons_cons, List.mem_append, List.mem_append] at h
      rcases h with (h | h) | h
      · exact .inr ⟨l, List.mem_cons_self, h⟩
      · exact .inl h
      · rcases ih h with h | ⟨l'', hl'', h⟩
        · exact .inl h
        · exact .inr ⟨l'', List.mem_cons_of_mem l hl'', h⟩

/-- The characters of the program as a text, however many digits the count has. -/
def written (p : Program) : List Char := (decimal p.declared :: p.clauses.map String.toList).flatMap (· ++ ['\n'])

/-- A program is written, unless its count has too many digits. -/
theorem render_eq (p : Program) :
    render p = if maxDigits < width p.declared.natAbs then .error .tooLong else .ok (.ofList (written p)) := by
  unfold render
  by_cases hlong : maxDigits < width p.declared.natAbs
  · rw [if_pos hlong, Text.writeInt_of_long hlong]
    rfl
  · have hwritten : written p = (String.intercalate "\n" (toString p.declared :: p.clauses) ++ "\n").toList := by
      rw [String.toList_append, String.toList_intercalate, List.map_cons]
      exact (intercalate_append_sep _ _ _).symm
    rw [if_neg hlong, Text.writeInt_of_short (Nat.le_of_not_lt hlong), hwritten, String.ofList_toList]
    rfl

theorem lines_written (h : SingleLines p.clauses) :
    Text.lines (written p) = decimal p.declared :: p.clauses.map String.toList := by
  refine Text.lines_flatMap_newline fun line hline => ?_
  rcases List.mem_cons.mp hline with rfl | hline
  · exact fun c hc => Text.isBoundary_of_not_isBlank (Text.isBlank_of_mem_decimal hc)
  · obtain ⟨clause, hclause, rfl⟩ := List.mem_map.mp hline
    exact h clause hclause

/-- The characters of a program are read back, unless its count has too many digits. -/
theorem parse_written (h : SingleLines p.clauses) : parse (.ofList (written p)) =
    if maxDigits < width p.declared.natAbs then .error (.header (.ofList (decimal p.declared))) else .ok p := by
  have hblank : ∀ c ∈ decimal p.declared, isBlank c = false := fun c hc => Text.isBlank_of_mem_decimal hc
  have hline : isBlankLine (decimal p.declared) = false := by
    obtain ⟨c, cs, hcs⟩ := List.exists_cons_of_ne_nil (Text.decimal_ne_nil p.declared)
    rw [hcs] at hblank ⊢
    simp [isBlankLine, hblank c List.mem_cons_self]
  have hstrip : Text.strip (decimal p.declared) = decimal p.declared :=
    Text.trim_eq_self (fun c hc => hblank c (List.mem_of_mem_head? hc)) fun c hc => hblank c (List.mem_of_getLast? hc)
  have hclauses : (p.clauses.map String.toList).map String.ofList = p.clauses := by
    rw [List.map_map]
    exact (List.map_congr_left fun clause _ => String.ofList_toList).trans (List.map_id _)
  unfold parse
  rw [String.toList_ofList, lines_written h, List.dropWhile_cons, hline]
  simp only [Bool.false_eq_true, if_false, hstrip, Text.readInt_decimal, hclauses]
  by_cases hlong : maxDigits < width p.declared.natAbs
  · simp [hlong]
  · simp [hlong]

/-- A program that was read is one that can be written and read back. -/
theorem of_parse_ok (h : parse text = .ok p) : width p.declared.natAbs ≤ maxDigits ∧ SingleLines p.clauses := by
  unfold parse at h
  cases hlines : (Text.lines text.toList).dropWhile isBlankLine with
  | nil =>
    rw [hlines] at h
    cases h
  | cons header clauses =>
    rw [hlines] at h
    cases hread : Text.readInt (Text.strip header) with
    | none =>
      simp only [hread] at h
      cases h
    | some n =>
      simp only [hread] at h
      cases h
      refine ⟨Text.width_of_readInt hread, fun clause hclause c hc => ?_⟩
      obtain ⟨line, hline, rfl⟩ := List.mem_map.mp hclause
      rw [String.toList_ofList] at hc
      have hmem : line ∈ (Text.lines text.toList).dropWhile isBlankLine := hlines ▸ List.mem_cons_of_mem header hline
      exact Text.isBoundary_of_mem_lines ((List.dropWhile_sublist _).subset hmem) hc

end SoftLogic.Program
