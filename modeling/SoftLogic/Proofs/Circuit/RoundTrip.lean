import SoftLogic.Proofs.Circuit.Construction
import SoftLogic.Proofs.Clause.Spelling
import SoftLogic.Proofs.Cnf
import SoftLogic.Proofs.Dimacs.Format
import SoftLogic.Proofs.Program

/-!
# Circuits of written programs

A program that is written as a text has the circuit, or the refusal, that it has without being written.  So a document
in DIMACS format can be converted to a program text first, and the count and the stripped clauses of a circuit
that was made from a text make the same circuit again (`Circuit.ofText_render`).  A count with too many digits is not
written; if it is negative, it cannot be named in the refusal of the circuit either, so only a count that is not negative
makes a difference.
-/

namespace SoftLogic

open Text (isBlank isBoundary decimal width maxDigits)

/-! ### Formulas in conjunctive normal form -/

theorem Cnf.isBlank_of_mem_literalText {l : Int} {c : Char} (hc : c ∈ (literalText l).toList) : isBlank c = false := by
  unfold literalText at hc
  split at hc
  · rw [String.toList_append] at hc
    rcases List.mem_append.mp hc with hc | hc
    · exact Text.eq_false_of_any (by decide) hc
    · exact Text.isBlank_of_mem_decimal hc
  · rw [String.toList_append] at hc
    rcases List.mem_append.mp hc with hc | hc
    · exact Text.eq_false_of_any (by decide) hc
    · exact Text.isBlank_of_mem_decimal hc

/-- The clauses of a formula are lines. -/
theorem Cnf.singleLines_toProgram (cnf : Cnf) : Program.SingleLines cnf.toProgram.clauses := by
  intro line hline c hc
  obtain ⟨clause, -, rfl⟩ := List.mem_map.mp hline
  unfold clauseText at hc
  rw [String.toList_intercalate] at hc
  rcases Program.mem_intercalate hc with hc | ⟨text, htext, hc⟩
  · exact Text.eq_false_of_any (by decide) hc
  · obtain ⟨l, -, rfl⟩ := List.mem_map.mp (List.map_map ▸ htext)
    exact Text.isBoundary_of_not_isBlank (isBlank_of_mem_literalText hc)

/-- The number of variables of a document that is read is short enough to be read again. -/
theorem Dimacs.width_numVars_of_parse {text : String} {cnf : Cnf} (h : parse text = .ok cnf) :
    width cnf.numVars ≤ maxDigits := by
  obtain ⟨header, body, header', p, -, -, hread, -, -, -, rfl⟩ := parse_ok_iff.mp h
  obtain ⟨word, vars, clauses, -, hvars, -⟩ := readHeader_ok_iff.mp hread
  simpa using Text.width_of_readInt hvars

namespace Circuit

variable {p : Program} {g : Circuit} {line : String} {lines : List String}

/-! ### Stripped clauses -/

theorem toList_stripped (line : String) : (stripped line).toList = Text.strip line.toList := by
  simp [stripped]

theorem stripped_stripped (line : String) : stripped (stripped line) = stripped line := by
  unfold stripped
  rw [String.toList_ofList, Text.strip, Text.strip, Text.trim_trim]

/-- Stripping leaves something of a line that is not blank. -/
theorem isBlankLine_stripped (h : Program.isBlankLine line.toList = false) :
    Program.isBlankLine (stripped line).toList = false := by
  obtain ⟨as, bs, has, hbs, hline⟩ := Text.exists_trim isBlank line.toList
  unfold Program.isBlankLine at h ⊢
  rw [hline, List.all_append, List.all_append, List.all_eq_true.mpr has, List.all_eq_true.mpr hbs] at h
  rw [toList_stripped, Text.strip]
  simpa using h

theorem significant_map_stripped (lines : List String) :
    significant ((significant lines).map stripped) = (significant lines).map stripped := by
  refine List.filter_eq_self.mpr fun _ hmem => ?_
  obtain ⟨line, hline, rfl⟩ := List.mem_map.mp hmem
  have hblank : Program.isBlankLine line.toList = false := by simpa using (List.mem_filter.mp hline).2
  simp [isBlankLine_stripped hblank]

theorem singleLines_stripped (h : Program.SingleLines lines) :
    Program.SingleLines ((significant lines).map stripped) := by
  intro _ hmem c hc
  obtain ⟨line, hline, rfl⟩ := List.mem_map.mp hmem
  rw [toList_stripped] at hc
  exact h line (List.mem_filter.mp hline).1 c (Text.mem_of_mem_trim hc)

/-- Stripped clauses place the same nodes. -/
theorem agrees_placeAll (n : Nat) (lines : List String) :
    Effect.Agrees (placeAll n lines) (placeAll n (lines.map stripped)) := by
  have hlines : List.Forall₂ (fun line line' => line' = stripped line) lines (lines.map stripped) := by
    rw [List.forall₂_map_right_iff, List.forall₂_same]
    exact fun _ _ => rfl
  refine (Effect.Agrees.refl _).bind fun _ => Effect.agrees_mapM hlines ?_
  rintro line _ rfl
  refine Assembly.agrees_assemble fun tokens hscan => ?_
  have hscans := (Token.scans_of_scanFrom hscan).strip (stripped line) 0
  rwa [← toList_stripped] at hscans

theorem ofProgram_ok_iff : ofProgram p = .ok g ↔ p.declared = g.numVars ∧
    g.clauses = (significant p.clauses).map stripped ∧
    placeAll g.numVars (significant p.clauses) .empty = .ok g.roots g.registry := by
  unfold ofProgram
  constructor
  · intro h
    by_cases hneg : p.declared < 0
    · rw [if_pos hneg] at h
      cases h
    · rw [if_neg hneg] at h
      cases hplace : placeAll p.declared.toNat (significant p.clauses) .empty with
      | error e reg =>
        simp only [hplace] at h
        cases h
      | ok roots reg =>
        simp only [hplace] at h
        cases h
        exact ⟨(Int.toNat_of_nonneg (Int.not_lt.mp hneg)).symm, rfl, hplace⟩
  · rintro ⟨hdeclared, hclauses, hplace⟩
    rw [hdeclared, if_neg (Int.not_lt.mpr (Int.natCast_nonneg _))]
    simp only [Int.toNat_natCast, hplace, ← hclauses]

/-- A circuit is made again from its count and its clauses. -/
theorem ofProgram_clauses (h : ofProgram p = .ok g) : ofProgram ⟨g.numVars, g.clauses⟩ = .ok g := by
  obtain ⟨-, hclauses, hplace⟩ := ofProgram_ok_iff.mp h
  refine ofProgram_ok_iff.mpr ⟨rfl, ?_, ?_⟩
  · rw [hclauses, significant_map_stripped, List.map_map]
    exact List.map_congr_left fun line _ => (stripped_stripped line).symm
  · rw [hclauses, significant_map_stripped]
    exact agrees_placeAll _ _ _ _ _ hplace

/-! ### Reading what was written -/

/-- The circuit of a program that is written as a text first. -/
def ofWritten (p : Program) : Except CircuitError Circuit :=
  match p.render with
  | .ok text => ofText text
  | .error e => .error (.unwritten e)

/-- A program whose count is not too long is written, and has the outcome that it has without being written. -/
theorem ofText_of_render (hwidth : width p.declared.natAbs ≤ maxDigits) (h : Program.SingleLines p.clauses) :
    ∃ text, p.render = .ok text ∧ ofText text = ofProgram p := by
  have hshort : ¬maxDigits < width p.declared.natAbs := Nat.not_lt_of_le hwidth
  refine ⟨_, (Program.render_eq p).trans (if_neg hshort), ?_⟩
  unfold ofText
  rw [Program.parse_written h, if_neg hshort]

theorem ofWritten_of_short (hwidth : width p.declared.natAbs ≤ maxDigits) (h : Program.SingleLines p.clauses) :
    ofWritten p = ofProgram p := by
  obtain ⟨text, hrender, htext⟩ := ofText_of_render hwidth h
  unfold ofWritten
  rw [hrender]
  exact htext

theorem ofWritten_of_long (hlong : maxDigits < width p.declared.natAbs) :
    ofWritten p = .error (.unwritten .tooLong) := by
  unfold ofWritten
  rw [Program.render_eq, if_pos hlong]

/-- A negative count is refused, or too long to be named in the refusal. -/
theorem ofProgram_of_neg (hneg : p.declared < 0) :
    ofProgram p = .error (Text.refusalNaming p.declared (.negative p.declared) .unwritten) := if_pos hneg

/-- A program whose count is not too long, or is negative, and whose clauses are lines, makes the same circuit or is
refused for the same reason when it is written as a text; so a document makes the same circuit when it is converted
first, and a circuit that was made from a text is made again from its count and its stripped clauses. -/
theorem ofText_render :
    (∀ (n : Int) (clauses : List String), n < 0 ∨ width n.natAbs ≤ maxDigits → Program.SingleLines clauses →
      ofWritten ⟨n, clauses⟩ = ofClauses clauses (.integer n)) ∧
    (∀ (text : String) (cnf : Cnf), Dimacs.parse text = .ok cnf → ∃ out,
      cnf.toProgram.render = .ok out ∧ ofText out = (ofDimacs text).1) ∧
    ∀ (text : String) (g : Circuit), ofText text = .ok g → ∃ out,
      Program.render ⟨g.numVars, g.clauses⟩ = .ok out ∧ ofText out = .ok g := by
  refine ⟨fun n clauses hcount hclauses => ?_, fun text cnf hparse => ?_, fun text g hg => ?_⟩
  · by_cases hlong : maxDigits < width n.natAbs
    · -- a long count is negative, and so it cannot be named in the refusal either
      have hneg : n < 0 := hcount.resolve_right (Nat.not_le_of_lt hlong)
      rw [ofWritten_of_long hlong]
      exact ((ofProgram_of_neg hneg).trans (congrArg _ (Text.refusalNaming_of_long hlong _ _))).symm
    · exact ofWritten_of_short (p := ⟨n, clauses⟩) (Nat.le_of_not_lt hlong) hclauses
  · obtain ⟨out, hrender, hout⟩ :=
      ofText_of_render (p := cnf.toProgram) (Dimacs.width_numVars_of_parse hparse) cnf.singleLines_toProgram
    refine ⟨out, hrender, hout.trans ?_⟩
    simp only [ofDimacs, hparse]
  · unfold ofText at hg
    cases hparse : Program.parse text with
    | error e =>
      rw [hparse] at hg
      cases hg
    | ok p =>
      rw [hparse] at hg
      obtain ⟨hwidth, hlines⟩ := Program.of_parse_ok hparse
      obtain ⟨hdeclared, hclauses, -⟩ := ofProgram_ok_iff.mp hg
      have hsingle : Program.SingleLines g.clauses := by
        rw [hclauses]
        exact singleLines_stripped hlines
      rw [hdeclared] at hwidth
      obtain ⟨out, hrender, hout⟩ := ofText_of_render (p := ⟨g.numVars, g.clauses⟩) hwidth hsingle
      exact ⟨out, hrender, hout.trans (ofProgram_clauses hg)⟩

/-- A refusal, a converted document, and a circuit that was made from a text with blanks. -/
theorem ofText_render_examples :
    ofWritten ⟨2, ["", " $0 v", "$1"]⟩ = ofClauses ["", " $0 v", "$1"] (.integer 2) ∧
    (∃ out, (Cnf.mk 1 2 [[-1]]).toProgram.render = .ok out ∧ ofText out = (ofDimacs "p cnf 1 2\n-1 0\n").1) ∧
    ofText "\n 1\n\n $0 \n" = .ok .atom ∧
      ∃ out, Program.render ⟨1, ["$0"]⟩ = .ok out ∧ ofText out = .ok .atom := by
  obtain ⟨hwritten, hconverted, hagain⟩ := ofText_render
  have hatom : ofText "\n 1\n\n $0 \n" = .ok .atom := by decide +kernel
  have hlines : Program.SingleLines ["", " $0 v", "$1"] := by simp [Program.SingleLines, isBoundary]
  exact ⟨hwritten 2 _ (.inr (by decide)) hlines, hconverted _ ⟨1, 2, [[-1]]⟩ (by decide +kernel), hatom,
    hagain _ .atom hatom⟩

/-- A circuit may have more variables than can be written.  A text with as many would not be read either. -/
theorem ofProgram_of_long_count {n : Nat} (hlong : maxDigits < width n) :
    (∃ c, ofClauses [] (.integer n) = .ok c) ∧ Program.render ⟨n, []⟩ = .error .tooLong ∧
      ofWritten ⟨n, []⟩ = .error (.unwritten .tooLong) ∧
      ∃ e, ofText (.ofList (Program.written ⟨n, []⟩)) = .error (.program e) := by
  have hlines : Program.SingleLines [] := fun _ hclause => absurd hclause List.not_mem_nil
  obtain ⟨c, hc, -⟩ := ofProgram_ok (p := ⟨n, []⟩) rfl .nil
  refine ⟨⟨c, hc⟩, ?_, ofWritten_of_long hlong, .header (.ofList (decimal n)), ?_⟩
  · exact (Program.render_eq _).trans (if_pos hlong)
  · unfold ofText
    rw [Program.parse_written hlines, Int.natAbs_natCast, if_pos hlong]

/-- The least count with too many digits. -/
theorem ofText_render_of_long_count :
    (∃ c, ofClauses [] (.integer (Nat.pow 10 maxDigits)) = .ok c) ∧
    Program.render ⟨Nat.pow 10 maxDigits, []⟩ = .error .tooLong ∧
    ofWritten ⟨Nat.pow 10 maxDigits, []⟩ = .error (.unwritten .tooLong) ∧
    ∃ e, ofText (.ofList (Program.written ⟨Nat.pow 10 maxDigits, []⟩)) = .error (.program e) :=
  ofProgram_of_long_count (Text.lt_width_pow maxDigits)

end Circuit

end SoftLogic
