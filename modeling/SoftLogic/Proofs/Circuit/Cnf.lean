import SoftLogic.Proofs.Circuit.Gradient
import SoftLogic.Proofs.Circuit.Satisfaction
import SoftLogic.Proofs.Dimacs

/-!
# Circuits of formulas in conjunctive normal form

A document that is read has a circuit with a cost for each clause, in order, and the circuit means what the
document says: `Circuit.ofDimacs_of_parse`.  An assignment is accepted if it makes a literal of each clause true, and
in a field the truth value of a clause is one minus the product of what its literals lack of one.
-/

namespace SoftLogic

namespace Cnf

/-- Whether a literal is true under an assignment. -/
def literalHolds (a : Nat → Bool) (l : Int) : Bool := if l < 0 then !a (index l) else a (index l)

/-- The truth value of a literal, given those of the variables. -/
def literalValue {K : Type} [ExactScalar K] (s : Nat → K) (l : Int) : K :=
  if l < 0 then 1 - s (index l) else s (index l)

variable {clause : List Int}

theorem holds_operand (a : Nat → Bool) (l : Int) : (operand l).formula.holds a = literalHolds a l := by
  unfold operand literalHolds
  split <;> rfl

/-- A clause holds if one of its literals does. -/
theorem holds_expression (hne : clause ≠ []) (a : Nat → Bool) :
    (expression clause).formula.holds a = clause.any (literalHolds a) := by
  obtain ⟨l, ls, rfl⟩ := List.exists_cons_of_ne_nil hne
  have hfold : ∀ e : Expression, (ls.foldl (fun e l => .chain e .or (operand l)) e).formula.holds a =
      (e.formula.holds a || ls.any (literalHolds a)) := by
    clear hne
    induction ls with
    | nil => exact fun e => (Bool.or_false _).symm
    | cons l' ls ih =>
      intro e
      have hchain : (Expression.chain e .or (operand l')).formula.holds a =
          (e.formula.holds a || literalHolds a l') := by
        rw [Expression.formula, Formula.holds, Connective.holds, holds_operand]
      rw [List.foldl_cons, ih, hchain, List.any_cons, Bool.or_assoc]
  rw [List.any_cons, ← holds_operand]
  exact hfold (.operand (operand l))

/-- The clauses hold if each has a literal that does. -/
theorem Valid.all_expression {cnf : Cnf} (h : cnf.Valid) (a : Nat → Bool) :
    (cnf.clauses.map fun clause => (expression clause).formula).all (fun f => f.holds a) =
      cnf.clauses.all fun clause => clause.any (literalHolds a) := by
  rw [List.all_map, Bool.eq_iff_iff, List.all_eq_true, List.all_eq_true]
  refine forall₂_congr fun clause hclause => ?_
  rw [← holds_expression (h.nonempty clause hclause)]
  rfl

section Value

variable {K : Type} [ExactScalar K]

theorem value_operand (s : Nat → K) (l : Int) : (operand l).formula.value s = literalValue s l := by
  unfold operand literalValue
  split <;> rfl

/-- What a clause lacks of one is the product of what its literals lack. -/
theorem value_expression (hne : clause ≠ []) (s : Nat → K) :
    (expression clause).formula.value s = 1 - (clause.map fun l => 1 - literalValue s l).prod := by
  obtain ⟨l, ls, rfl⟩ := List.exists_cons_of_ne_nil hne
  have hfold : ∀ e : Expression, (ls.foldl (fun e l => .chain e .or (operand l)) e).formula.value s =
      1 - (1 - e.formula.value s) * (ls.map fun l => 1 - literalValue s l).prod := by
    clear hne
    induction ls with
    | nil =>
      intro e
      simp
    | cons l' ls ih =>
      intro e
      have hchain : (Expression.chain e .or (operand l')).formula.value s =
          e.formula.value s + literalValue s l' - e.formula.value s * literalValue s l' := by
        rw [Expression.formula, Formula.value, Connective.apply, value_operand]
      rw [List.foldl_cons, ih, hchain, List.map_cons, List.prod_cons]
      ring
  rw [List.map_cons, List.prod_cons, ← value_operand]
  exact hfold (.operand (operand l))

theorem Valid.map_expression {cnf : Cnf} (h : cnf.Valid) (s : Nat → K) :
    (cnf.clauses.map fun clause => (expression clause).formula).map (Formula.value s) =
      cnf.clauses.map fun clause => 1 - (clause.map fun l => 1 - literalValue s l).prod := by
  rw [List.map_map]
  exact List.map_congr_left fun clause hclause => value_expression (h.nonempty clause hclause) s

end Value

end Cnf

namespace Circuit

/-- A document that is read has a circuit with its variables.  The costs are those of its clauses in order, an
assignment is accepted if every clause has a literal that is true, and the truth values of the clauses are those of
the disjunctions of their literals. -/
theorem ofDimacs_of_parse {R K : Type} [Numeric R] [BooleanTables R] [ExactScalar K] {text : String} {cnf : Cnf}
    (h : Dimacs.parse text = .ok cnf) :
    ∃ c, ofDimacs text = (.ok c, cnf.warnings) ∧ c.numVars = cnf.numVars ∧
      c.roots.length = cnf.clauses.length ∧ c.roots.Nodup ∧ (∀ r, r ∈ c.roots ↔ ∃ a, c.net.gate r = .cost a) ∧
      List.Forall₂ (c.net.CostOf c.numVars) c.roots
        (cnf.clauses.map fun clause => (Cnf.expression clause).formula) ∧
      (∀ bits : List Bool, bits.length = cnf.numVars → ∃ s,
        c.satisfiedBy (.vector bits) (c.signals : Signals R) = .ok (cnf.clauses.all fun clause =>
          clause.any (Cnf.literalHolds fun k => bits.getD k false)) s) ∧
      ∀ xs : List K, xs.length = cnf.numVars → ∃ s,
        c.clauseValues (.vector xs) c.signals = .ok (cnf.clauses.map fun clause =>
          1 - (clause.map fun l => 1 - Cnf.literalValue (truths xs) l).prod) s := by
  have hvalid := Dimacs.valid_of_parse h
  obtain ⟨c, hc, hnumVars⟩ := ofProgram_ok (p := cnf.toProgram) rfl hvalid.derives
  obtain ⟨hcomplete, -⟩ := complete_of_ofProgram hc
  have hformulas : c.HasFormulas (significant cnf.toProgram.clauses)
      (cnf.clauses.map fun clause => (Cnf.expression clause).formula) := by
    have := hcomplete.hasFormulas (hnumVars ▸ hvalid.derives)
    rwa [List.map_map] at this
  have hlength : c.roots.length = cnf.clauses.length := by
    rw [hformulas.denoted.length_eq, List.length_map]
  refine ⟨c, ?_, hnumVars, hlength, hcomplete.nodup, hcomplete.mem_roots, hformulas.denoted,
    fun bits hbits => ?_, fun xs hxs => ?_⟩
  · unfold ofDimacs
    simp only [h, hc]
  · obtain ⟨s, hok⟩ := hcomplete.satisfiedBy_ok (R := R) hformulas
      (c.pristine_signals.blank c.size_signals) (hbits.trans hnumVars.symm)
    rw [hvalid.all_expression] at hok
    exact ⟨s, hok⟩
  · obtain ⟨s, hok⟩ := hcomplete.clauseValues_ok (hxs.trans hnumVars.symm)
      (c.pristine_signals.blank (R := K) c.size_signals)
    rw [hformulas.map_clauseTruth_eq fun a f hd => rfl] at hok
    exact ⟨s, hvalid.map_expression (truths xs) ▸ hok⟩

/-- The implication from the first variable to the second one, and the first one itself. -/
theorem ofDimacs_implication : ∃ (c : Circuit) (s : Signals Extended) (s' : Signals ℚ),
    ofDimacs "p cnf 2 2\n-1 2 0\n1 0\n" = (.ok c, []) ∧ c.roots.length = 2 ∧
      c.satisfiedBy (.vector [true, false]) c.signals = .ok false s ∧
      c.clauseValues (.vector [1 / 2, 1 / 3]) c.signals = .ok [2 / 3, 1 / 2] s' := by
  have hparse : Dimacs.parse "p cnf 2 2\n-1 2 0\n1 0\n" = .ok ⟨2, 2, [[-1, 2], [1]]⟩ := by decide +kernel
  obtain ⟨c, hc, -, hlength, -, -, -, hsatisfied, hvalues⟩ := ofDimacs_of_parse (R := Extended) (K := ℚ) hparse
  obtain ⟨s, hfalse⟩ := hsatisfied [true, false] rfl
  obtain ⟨s', htruths⟩ := hvalues [1 / 2, 1 / 3] rfl
  refine ⟨c, s, s', hc, hlength, hfalse, htruths.trans ?_⟩
  have hentries : ([[-1, 2], [1]] : List (List Int)).map (fun clause =>
      1 - (clause.map fun l => 1 - Cnf.literalValue (truths [1 / 2, 1 / 3]) l).prod) = [2 / 3, (1 / 2 : ℚ)] := by
    decide +kernel
  rw [hentries]

end Circuit

end SoftLogic
