import SoftLogic.Proofs.Circuit.Propagation
import SoftLogic.Proofs.Scalar
import SoftLogic.Proofs.Tensor

/-!
# Assignments

`Formula.holds` reads a formula with the boolean tables.  A circuit judges an assignment by raw values that are
infinite; on the zeros and ones that these have as truth values the soft connectives are the boolean ones, so the
circuit says whether all its clauses hold: `Circuit.satisfiedBy_derived`.
-/

namespace SoftLogic

open Effect

/-- The boolean table of a connective. -/
def Connective.holds : Connective → Bool → Bool → Bool
  | .and, a, b => a && b
  | .or, a, b => a || b

/-- Whether a formula is true under an assignment. -/
def Formula.holds (a : Nat → Bool) : Formula → Bool
  | .var k => a k
  | .not f => !f.holds a
  | .binary op f g => op.holds (f.holds a) (g.holds a)

section Tables

variable {R : Type} [Numeric R] [BooleanTables R]

/-- On zero and one a connective follows its table. -/
theorem Connective.apply_bit (op : Connective) (a b : Bool) :
    op.apply (Scalar.bit a : R) (Scalar.bit b) = Scalar.bit (op.holds a b) := by
  cases op with
  | and => exact BooleanTables.bit_mul_bit a b
  | or => exact BooleanTables.bit_add_bit a b

/-- On zero and one the value of a formula says whether it holds. -/
theorem Netlist.Denotes.value_bit {net : Netlist} {n r : Nat} {f : Formula} (h : net.Denotes n r f)
    {s : Nat → R} {a : Nat → Bool} (hs : ∀ k < n, s k = Scalar.bit (a k)) :
    f.value s = Scalar.bit (f.holds a) := by
  induction h with
  | var hk _ _ => exact hs _ hk
  | not _ _ ih => rw [Formula.value, ih, BooleanTables.one_sub_bit, Formula.holds]
  | binary _ _ _ ihf ihg => rw [Formula.value, ihf, ihg, Connective.apply_bit, Formula.holds]

end Tables

namespace Circuit

variable {R : Type} [Numeric R] [BooleanTables R] {c : Circuit} {lines : List String} {fs : List Formula}
  {s : Signals R} {bits : List Bool}

/-- The truth values of the variables under an assignment. -/
theorem sigmoid_certain (hbits : bits.length = c.numVars) : ∀ k < c.numVars,
    Scalar.sigmoid ((bits.map Numeric.certain).getD k (0 : R)) = Scalar.bit (bits.getD k false) := by
  intro k hk
  have hlt : k < bits.length := hbits ▸ hk
  simp [List.getD_eq_getElem?_getD, hlt, BooleanTables.sigmoid_certain]

/-- Where nothing but the inputs is known, an assignment is accepted if all formulas hold under it. -/
theorem Complete.satisfiedBy_ok (h : c.Complete lines) (hformulas : c.HasFormulas lines fs)
    (hs : s.Blank c.net) (hbits : bits.length = c.numVars) :
    ∃ s', c.satisfiedBy (.vector bits) s =
      .ok (fs.all fun f => f.holds fun k => bits.getD k false) s' := by
  obtain ⟨s', htruths⟩ := h.clauseValues_ok ((length_certain bits).trans hbits) hs
  rw [hformulas.map_clauseTruth_eq fun a f hd => hd.value_bit (sigmoid_certain hbits)] at htruths
  have hall : (fs.map fun f => (Scalar.bit (f.holds fun k => bits.getD k false) : R)).all (· == 1) =
      fs.all fun f => f.holds fun k => bits.getD k false := by
    simp only [List.all_map, Function.comp_def, BooleanTables.bit_beq_one]
  exact ⟨s', (satisfiedBy_of_clauseValues htruths).trans (by rw [hall])⟩

/-- A program whose lines are derived has a circuit, and wherever nothing but its inputs is known, an assignment
is accepted if every line holds under it. -/
theorem satisfiedBy_derived {p : Program} {n : Nat} (hdeclared : p.declared = n) {es : List Expression}
    (hderived : List.Forall₂ (fun line e => Expression.Derives e n line) (significant p.clauses) es) :
    ∃ c, ofProgram p = .ok c ∧ c.numVars = n ∧ ∀ s : Signals R, s.Blank c.net →
      ∀ bits : List Bool, bits.length = n → ∃ s', c.satisfiedBy (.vector bits) s =
        .ok (es.all fun e => e.formula.holds fun k => bits.getD k false) s' := by
  obtain ⟨c, hc, rfl⟩ := ofProgram_ok hdeclared hderived
  obtain ⟨hcomplete, -⟩ := complete_of_ofProgram hc
  refine ⟨c, hc, rfl, fun s hs bits hbits => ?_⟩
  obtain ⟨s', hok⟩ := hcomplete.satisfiedBy_ok (hcomplete.hasFormulas hderived) hs hbits
  rw [List.all_map] at hok
  exact ⟨s', hok⟩

/-- The clauses `~$0 v $1` and `($0)` hold when both variables do, and not when the second one does not. -/
theorem satisfiedBy_implication : ∃ (c : Circuit) (s s' : Signals Extended),
    ofProgram ⟨2, ["~$0 v $1", "($0)"]⟩ = .ok c ∧
      c.satisfiedBy (.vector [true, true]) c.signals = .ok true s ∧
      c.satisfiedBy (.vector [true, false]) c.signals = .ok false s' := by
  have hfirst : Token.scan "~$0 v $1" 2 =
      .ok [⟨.not, 0⟩, ⟨.variable 0, 1⟩, ⟨.connective .or, 4⟩, ⟨.variable 1, 6⟩] := by decide
  have hsecond : Token.scan "($0)" 2 = .ok [⟨.openGroup, 0⟩, ⟨.variable 0, 1⟩, ⟨.closeGroup, 3⟩] := by decide
  have hlines : significant ["~$0 v $1", "($0)"] = ["~$0 v $1", "($0)"] := by decide
  have hderived : List.Forall₂ (fun line e => Expression.Derives e 2 line)
      (significant ["~$0 v $1", "($0)"])
      [.chain (.operand (.not (.var 0))) .or (.var 1), .operand (.group (.operand (.var 0)))] := by
    rw [hlines]
    exact .cons ⟨_, hfirst, rfl⟩ (.cons ⟨_, hsecond, rfl⟩ .nil)
  obtain ⟨c, hc, -, hsatisfied⟩ := satisfiedBy_derived (R := Extended) (p := ⟨2, ["~$0 v $1", "($0)"]⟩) rfl hderived
  have hblank : (c.signals : Signals Extended).Blank c.net := c.pristine_signals.blank c.size_signals
  obtain ⟨s, htrue⟩ := hsatisfied c.signals hblank [true, true] rfl
  obtain ⟨s', hfalse⟩ := hsatisfied c.signals hblank [true, false] rfl
  exact ⟨c, s, s', hc, htrue, hfalse⟩

end Circuit

end SoftLogic
