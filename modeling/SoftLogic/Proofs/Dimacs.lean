import SoftLogic.Dimacs
import SoftLogic.Proofs.Cnf

/-!
# What is read from a DIMACS document

Every step of the reader keeps `Progress.Valid`: each literal taken is one of a declared variable, and a clause is
finished only if it has literals.  So the formula of a document that is read is valid (`Dimacs.valid_of_parse`).
-/

namespace SoftLogic.Dimacs

/-- The literals read so far are of `n` variables, and no finished clause is empty. -/
structure Progress.Under (n : Nat) (p : Progress) : Prop where
  nonempty : ∀ clause ∈ p.clauses, clause ≠ []
  literal : ∀ clause ∈ p.clauses, ∀ l ∈ clause, Cnf.Literal n l
  pending : ∀ l ∈ p.literals, Cnf.Literal n l

/-- Nothing is read before the header, and what is read after it is of the variables that it declares. -/
structure Progress.Valid (p : Progress) : Prop where
  before : p.header = none → p.clauses = [] ∧ p.literals = []
  under : ∀ h ∈ p.header, p.Under h.numVars

variable {p p' : Progress} {n : Nat}

/-- What taking a word can do: a zero ends the clause under way, and any other number is added to it. -/
theorem takeLiteral_ok_iff {word : List Char} : takeLiteral n p word = .ok p' ↔
    (Text.readInt word = some 0 ∧ p.literals ≠ [] ∧
      p' = { p with clauses := p.literals.reverse :: p.clauses, literals := [] }) ∨
    ∃ l, Text.readInt word = some l ∧ l ≠ 0 ∧ l.natAbs ≤ n ∧ p' = { p with literals := l :: p.literals } := by
  unfold takeLiteral
  cases hread : Text.readInt word with
  | none => simp
  | some l =>
    by_cases hzero : l = 0
    · subst hzero
      by_cases hpending : p.literals = []
      · simp [hpending]
      · simp [hpending, eq_comm (b := p')]
    · by_cases hdeclared : n < l.natAbs
      · simp [hzero, hdeclared, Nat.not_le_of_lt hdeclared]
      · simp [hzero, hdeclared, Nat.le_of_not_lt hdeclared, eq_comm (b := p')]

theorem header_takeLiteral {word : List Char} (h : takeLiteral n p word = .ok p') : p'.header = p.header := by
  rcases takeLiteral_ok_iff.mp h with ⟨-, -, rfl⟩ | ⟨l, -, -, -, rfl⟩ <;> rfl

/-- A literal that is taken is one of a declared variable, and it is zero only where a clause has literals. -/
theorem under_takeLiteral {word : List Char} (hp : p.Under n) (h : takeLiteral n p word = .ok p') : p'.Under n := by
  rcases takeLiteral_ok_iff.mp h with ⟨-, hpending, rfl⟩ | ⟨l, hread, hzero, hdeclared, rfl⟩
  · refine ⟨?_, ?_, nofun⟩
    · rintro clause (_ | ⟨_, hclause⟩)
      · simpa using hpending
      · exact hp.nonempty clause hclause
    · rintro clause (_ | ⟨_, hclause⟩) l hl
      · exact hp.pending l (List.mem_reverse.mp hl)
      · exact hp.literal clause hclause l hl
  · refine ⟨hp.nonempty, hp.literal, ?_⟩
    rintro l' (_ | ⟨_, hl'⟩)
    · exact ⟨hzero, hdeclared, Text.width_of_readInt hread⟩
    · exact hp.pending l' hl'

/-- Taking the literals of a line keeps what taking one keeps. -/
theorem under_takeLiterals {words : List (List Char)} (hp : p.Under n)
    (h : words.foldlM (takeLiteral n) p = .ok p') : p'.Under n := by
  induction words generalizing p with
  | nil =>
    cases h
    exact hp
  | cons word words ih =>
    rw [List.foldlM_cons] at h
    match hword : takeLiteral n p word with
    | .error flaw =>
      rw [hword] at h
      cases h
    | .ok p₁ =>
      rw [hword] at h
      exact ih (under_takeLiteral hp hword) h

theorem header_takeLiterals {words : List (List Char)} (h : words.foldlM (takeLiteral n) p = .ok p') :
    p'.header = p.header := by
  induction words generalizing p with
  | nil =>
    cases h
    rfl
  | cons word words ih =>
    rw [List.foldlM_cons] at h
    match hword : takeLiteral n p word with
    | .error flaw =>
      rw [hword] at h
      cases h
    | .ok p₁ =>
      rw [hword] at h
      exact (ih h).trans (header_takeLiteral hword)

theorem valid_takeLine {line : List Char} (hp : p.Valid) (h : takeLine p line = .ok p') : p'.Valid := by
  unfold takeLine at h
  split at h
  · cases h
    exact hp
  · cases h
    exact hp
  · next rest =>
    match hheader : p.header with
    | some _ =>
      rw [hheader] at h
      cases h
    | none =>
      rw [hheader] at h
      obtain ⟨hclauses, hliterals⟩ := hp.before hheader
      match hread : readHeader ('p' :: rest) with
      | .error flaw =>
        rw [hread] at h
        cases h
      | .ok header =>
        rw [hread] at h
        cases h
        refine ⟨nofun, fun _ _ => ⟨?_, ?_, ?_⟩⟩
        · simp [hclauses]
        · simp [hclauses]
        · simp [hliterals]
  · match hheader : p.header with
    | none =>
      rw [hheader] at h
      cases h
    | some header =>
      rw [hheader] at h
      have hunder := under_takeLiterals (hp.under header hheader) h
      have hsame := header_takeLiterals h
      refine ⟨fun hnone => ?_, fun header' hheader' => ?_⟩
      · rw [hsame, hheader] at hnone
        cases hnone
      · rw [hsame, hheader] at hheader'
        cases hheader'
        exact hunder

theorem valid_takeLines {lines : List (List Char)} {count count' : Nat} (hp : p.Valid)
    (h : takeLines p count lines = .ok (p', count')) : p'.Valid := by
  induction lines generalizing p count with
  | nil =>
    cases h
    exact hp
  | cons line lines ih =>
    unfold takeLines at h
    simp only at h
    split at h
    · cases h
      exact hp
    · split at h
      · cases h
      · next p₁ hline => exact ih (valid_takeLine hp hline) h

/-- The formula of a document that is read is valid. -/
theorem valid_of_parse {text : String} {cnf : Cnf} (h : parse text = .ok cnf) : cnf.Valid := by
  unfold parse at h
  match hlines : takeLines .start 0 (Text.lines text.toList) with
  | .error e =>
    rw [hlines] at h
    cases h
  | .ok (p, count) =>
    rw [hlines] at h
    have hstart : Progress.start.Valid := ⟨fun _ => ⟨rfl, rfl⟩, nofun⟩
    have hp := valid_takeLines hstart hlines
    simp only [bind, Except.bind] at h
    cases hheader : p.header with
    | none =>
      rw [hheader] at h
      cases h
    | some header =>
      rw [hheader] at h
      simp only at h
      split at h
      · cases h
        have hunder := hp.under header hheader
        exact ⟨fun clause hclause => hunder.nonempty clause (List.mem_reverse.mp hclause),
          fun clause hclause => hunder.literal clause (List.mem_reverse.mp hclause)⟩
      · cases h

end SoftLogic.Dimacs
