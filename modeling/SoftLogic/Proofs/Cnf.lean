import SoftLogic.Cnf
import SoftLogic.Proofs.Circuit.Construction
import SoftLogic.Proofs.Clause.Scanning

/-!
# Clauses of a formula in conjunctive normal form

The expression that `Cnf.clauseText` writes for a clause is derived by the grammar: it is the chain of disjunctions
of the literals in order, over variables counted from zero, with a negation in front of each negative literal's
variable (`Cnf.derives_clauseText`).
-/

namespace SoftLogic

/-- A literal of one of `n` variables, whose number is not too long to be read. -/
structure Cnf.Literal (n : Nat) (l : Int) : Prop where
  ne_zero : l ≠ 0
  declared : l.natAbs ≤ n
  short : Text.width l.natAbs ≤ Text.maxDigits

/-- A formula whose clauses are not empty and have literals of its variables. -/
structure Cnf.Valid (cnf : Cnf) : Prop where
  nonempty : ∀ clause ∈ cnf.clauses, clause ≠ []
  literal : ∀ clause ∈ cnf.clauses, ∀ l ∈ clause, Cnf.Literal cnf.numVars l

namespace Cnf

open Token

variable {n : Nat} {l : Int} {clause : List Int} {chars : List Char} {w : List Symbol}

/-- The variable of a literal, counted from zero. -/
def index (l : Int) : Nat := l.natAbs - 1

/-- A literal as an operand. -/
def operand (l : Int) : Operand := if l < 0 then .not (.var (index l)) else .var (index l)

/-- A clause as a chain of disjunctions.  No clause is empty. -/
def expression : List Int → Expression
  | [] => .operand (.var 0)
  | l :: ls => ls.foldl (fun e l => .chain e .or (operand l)) (.operand (operand l))

theorem Literal.index_lt (h : Literal n l) : index l < n := by
  have hne := h.ne_zero
  have hle := h.declared
  unfold index
  omega

theorem Literal.short_index (h : Literal n l) : Text.width (index l) ≤ Text.maxDigits :=
  Nat.le_trans (Text.width_mono (Nat.sub_le _ _)) h.short

/-- How a literal is written. -/
theorem toList_literalText (hl : l ≠ 0) : (literalText l).toList =
    (if l < 0 then ['~'] else []) ++ '$' :: Nat.toDigits 10 (index l) := by
  have htext : ∀ k : Nat, (toString (k : Int)).toList = Nat.toDigits 10 k := by
    intro k
    rw [Int.toString_eq_repr, Int.repr_eq_if, if_pos (Int.natCast_nonneg k), Int.toNat_natCast, Nat.toList_repr]
  unfold literalText
  by_cases hneg : l < 0
  · have hindex : -l - 1 = (index l : Int) := by
      unfold index
      omega
    rw [if_pos hneg, if_pos hneg, hindex, String.toList_append, htext]
    rfl
  · have hindex : l - 1 = (index l : Int) := by
      unfold index
      omega
    rw [if_neg hneg, if_neg hneg, hindex, String.toList_append, htext]
    rfl

/-- A literal is scanned as its operand where no digit follows. -/
theorem Literal.scans (h : Literal n l) (hnext : ∀ c ∈ chars.head?, c.isDigit = false)
    (hchars : Scans n chars w) : Scans n ((literalText l).toList ++ chars) ((operand l).symbols ++ w) := by
  have hvariable : Scans n ('$' :: (Nat.toDigits 10 (index l) ++ chars)) (.variable (index l) :: w) :=
    hchars.variable (Int.ofNat_lt.mpr h.index_lt) h.short_index hnext
  rw [toList_literalText h.ne_zero]
  unfold operand
  split
  · exact hvariable.sign rfl
  · exact hvariable

/-- The symbols of a clause. -/
theorem symbols_expression (l : Int) (ls : List Int) : (expression (l :: ls)).symbols =
    (operand l).symbols ++ ls.flatMap fun l => .connective .or :: (operand l).symbols := by
  have hfold : ∀ e : Expression, (ls.foldl (fun e l => .chain e .or (operand l)) e).symbols =
      e.symbols ++ ls.flatMap fun l => .connective .or :: (operand l).symbols := by
    induction ls with
    | nil => exact fun e => (List.append_nil _).symm
    | cons l' ls ih =>
      intro e
      rw [List.foldl_cons, ih, Expression.symbols, List.flatMap_cons, List.append_assoc]
  exact hfold _

/-- Literals with `v` between them are scanned as the symbols of their clause. -/
theorem scans_clause {ls : List Int} (h : ∀ l' ∈ l :: ls, Literal n l') :
    Scans n (" v ".toList.intercalate ((l :: ls).map fun l => (literalText l).toList))
      (expression (l :: ls)).symbols := by
  rw [symbols_expression]
  induction ls generalizing l with
  | nil =>
    have : Scans n ((literalText l).toList ++ []) ((operand l).symbols ++ []) :=
      (h l List.mem_cons_self).scans nofun scans_nil
    simpa using this
  | cons l' ls ih =>
    have hrest := ih fun l'' hl'' => h l'' (List.mem_cons_of_mem l hl'')
    have hor := ((hrest.separator (c := ' ') (by decide) rfl).sign (c := 'v') rfl).separator (c := ' ')
      (by decide) rfl
    have := (h l List.mem_cons_self).scans (fun c hc => by cases hc; rfl) hor
    simpa [List.intercalate_cons_cons, List.flatMap_cons] using this

/-- The text of a clause is derived as the chain of its literals. -/
theorem derives_clauseText (hne : clause ≠ []) (h : ∀ l ∈ clause, Literal n l) :
    (expression clause).Derives n (clauseText clause) := by
  obtain ⟨l, ls, rfl⟩ := List.exists_cons_of_ne_nil hne
  have hscans := scans_clause h
  unfold Expression.Derives Token.scan clauseText
  rw [String.toList_intercalate, List.map_map]
  exact hscans _ _

/-- The literals that symbols spell: a variable stands for its literal, one behind a negation for the negative one, and
any other symbol for none. -/
def spelled : List Symbol → List Int
  | .not :: .variable k :: w => -(k + 1 : Int) :: spelled w
  | .variable k :: w => (k + 1 : Int) :: spelled w
  | _ :: w => spelled w
  | [] => []

theorem spelled_operand (hl : l ≠ 0) (w : List Symbol) : spelled ((operand l).symbols ++ w) = l :: spelled w := by
  unfold operand index
  split
  · simp only [Operand.symbols, List.cons_append, List.nil_append, spelled, List.cons.injEq, and_true]
    omega
  · simp only [Operand.symbols, List.cons_append, List.nil_append, spelled, List.cons.injEq, and_true]
    omega

/-- The symbols of a clause spell its literals. -/
theorem spelled_expression (hne : clause ≠ []) (h : ∀ l ∈ clause, l ≠ 0) :
    spelled (expression clause).symbols = clause := by
  obtain ⟨l, ls, rfl⟩ := List.exists_cons_of_ne_nil hne
  rw [symbols_expression, spelled_operand (h l List.mem_cons_self)]
  congr 1
  have hls := fun l' hl' => h l' (List.mem_cons_of_mem l hl')
  clear h hne
  induction ls with
  | nil => rfl
  | cons l' ls ih =>
    rw [List.flatMap_cons, List.cons_append, spelled, spelled_operand (hls l' List.mem_cons_self),
      ih fun l'' hl'' => hls l'' (List.mem_cons_of_mem l' hl'')]
    · exact nofun
    · exact nofun

/-- The text of a clause is not blank. -/
theorem isBlankLine_clauseText (hne : clause ≠ []) (h : ∀ l ∈ clause, Literal n l) :
    Program.isBlankLine (clauseText clause).toList = false := by
  obtain ⟨l, ls, rfl⟩ := List.exists_cons_of_ne_nil hne
  have hmem : '$' ∈ (clauseText (l :: ls)).toList := by
    have hl : '$' ∈ (literalText l).toList := by
      rw [toList_literalText (h l List.mem_cons_self).ne_zero]
      simp
    unfold clauseText
    rw [String.toList_intercalate]
    cases ls with
    | nil => simpa using hl
    | cons l' ls => simp [List.intercalate_cons_cons, hl]
  unfold Program.isBlankLine
  rw [List.all_eq_false]
  exact ⟨'$', hmem, by decide⟩

/-- Every line of the program of a valid formula is derived. -/
theorem Valid.derives {cnf : Cnf} (h : cnf.Valid) :
    List.Forall₂ (fun line e => Expression.Derives e cnf.numVars line)
      (Circuit.significant cnf.toProgram.clauses) (cnf.clauses.map expression) := by
  have hsignificant : Circuit.significant cnf.toProgram.clauses = cnf.clauses.map clauseText := by
    refine List.filter_eq_self.mpr fun line hline => ?_
    obtain ⟨clause, hclause, rfl⟩ := List.mem_map.mp hline
    rw [isBlankLine_clauseText (h.nonempty clause hclause) (h.literal clause hclause)]
    rfl
  rw [hsignificant, List.forall₂_map_left_iff, List.forall₂_map_right_iff, List.forall₂_same]
  exact fun clause hclause => derives_clauseText (h.nonempty clause hclause) (h.literal clause hclause)

end Cnf

end SoftLogic
