import Mathlib
import SoftLogic.Proofs.Circuit.Construction

/-!
# The language of clauses

What assembling makes of a clause, in every registry that can come about.  A text that the grammar derives
becomes the gates of its formula under a cost.  A text that is scanned but not `Acceptable` is malformed.
Between the two lie the texts that the grammar does not derive and that are assembled all the same.
-/

namespace SoftLogic.Assembly

/-- A clause that the grammar derives is assembled: its root reads the gates of the derived formula, over
the sigmoids that all clauses share, and what was there before stays. -/
theorem assemble_derivation {n : Nat} {reg : Registry} (h : reg.Reachable n) (e : Expression)
    {clause : String} {tokens : List Token} (hscan : Token.scan clause n = .ok tokens)
    (hsymbols : tokens.map Token.symbol = e.symbols) :
    ∃ root a reg', assemble n (Circuit.sigmoidOf n) clause reg = .ok root reg' ∧
      reg'.net.gate root = .cost a ∧ reg'.net.Denotes n a e.formula ∧
      (∀ f, reg'.net.Denotes n a f → f = e.formula) ∧ reg.Extends reg' := by
  have hread : Formula.read (tokens.map Token.symbol) = some e.formula := by
    rw [hsymbols, Formula.read_symbols]
  obtain ⟨root, reg', hok, hcompletes⟩ := assemble_of_read h.sound hscan hread
  obtain ⟨a, hgate, hd⟩ := hcompletes.source
  exact ⟨root, a, reg', hok, hgate, hd, fun f hf => hf.unique hd, hcompletes.extends_start⟩

theorem placeVariables_one : Circuit.placeVariables 1 .empty =
    .ok () ⟨⟨#[⟨0, .input, [1]⟩, ⟨1, .sigmoid 0, []⟩]⟩, 2⟩ := by cbv

/-- `~($0)` after a clause `~` that was rejected and left its gate behind. -/
theorem assemble_negation_after_rejection :
    ∃ reg root a reg', reg.Reachable 1 ∧ reg.net.gate 2 = .not none ∧
      assemble 1 (Circuit.sigmoidOf 1) "~($0)" reg = .ok root reg' ∧ reg'.net.gate root = .cost a ∧
      reg'.net.Denotes 1 a (.not (.var 0)) := by
  have hrejected : assemble 1 (Circuit.sigmoidOf 1) "~" ⟨⟨#[⟨0, .input, [1]⟩, ⟨1, .sigmoid 0, []⟩]⟩, 2⟩ =
      .error (.clause (.malformed (.noOperand '~') (some 1) "~"))
        ⟨⟨#[⟨0, .input, [1]⟩, ⟨1, .sigmoid 0, []⟩, ⟨2, .not none, []⟩]⟩, 3⟩ := by cbv
  have hreachable := (Registry.Reachable.start placeVariables_one).rejected hrejected
  have hscan : Token.scan "~($0)" 1 =
      .ok [⟨.not, 0⟩, ⟨.openGroup, 1⟩, ⟨.variable 0, 2⟩, ⟨.closeGroup, 4⟩] := by decide
  obtain ⟨root, a, reg', hok, hgate, hd, -⟩ := assemble_derivation hreachable
    (.operand (.not (.group (.operand (.var 0))))) hscan rfl
  exact ⟨_, root, a, reg', hreachable, rfl, hok, hgate, hd⟩

/-- A clause that is scanned is assembled if its symbols are acceptable, and malformed otherwise. -/
theorem assemble_ok_iff_acceptable {n : Nat} {reg : Registry} (h : reg.Reachable n) {clause : String}
    {tokens : List Token} (hscan : Token.scan clause n = .ok tokens) :
    ((∃ root reg', assemble n (Circuit.sigmoidOf n) clause reg = .ok root reg') ↔
      Acceptable (tokens.map Token.symbol)) ∧
    ((∃ flaw column text reg', assemble n (Circuit.sigmoidOf n) clause reg =
      .error (.clause (.malformed flaw column text)) reg') ↔ ¬Acceptable (tokens.map Token.symbol)) := by
  have hiff := Formula.read_isSome_iff (tokens.map Token.symbol)
  match hread : Formula.read (tokens.map Token.symbol) with
  | some f =>
    have hacceptable : Acceptable (tokens.map Token.symbol) := hiff.mp (by rw [hread]; rfl)
    obtain ⟨root, reg', hok, -⟩ := assemble_of_read h.sound hscan hread
    refine ⟨⟨fun _ => hacceptable, fun _ => ⟨root, reg', hok⟩⟩, ⟨?_, fun hnot => absurd hacceptable hnot⟩⟩
    rintro ⟨_, _, _, _, herror⟩
    rw [hok] at herror
    cases herror
  | none =>
    have hnot : ¬Acceptable (tokens.map Token.symbol) := by
      intro hacceptable
      have hsome := hiff.mpr hacceptable
      rw [hread] at hsome
      cases hsome
    obtain ⟨flaw, column, text, reg', herror, -⟩ := assemble_of_not_read h.sound hscan hread
    refine ⟨⟨?_, fun hacceptable => absurd hacceptable hnot⟩,
      ⟨fun _ => hnot, fun _ => ⟨flaw, column, text, reg', herror⟩⟩⟩
    rintro ⟨_, _, hok⟩
    rw [herror] at hok
    cases hok

mutual

/-- A derivation ends with an operand. -/
theorem endsInOperator_expression (e : Expression) : endsInOperator e.symbols = false := by
  match e with
  | .operand u => exact (endsInOperator_operand u).1
  | .chain e op u =>
    obtain ⟨hu, hne⟩ := endsInOperator_operand u
    rw [Expression.symbols, endsInOperator_append _ (List.cons_ne_nil _ _), ← List.singleton_append,
      endsInOperator_append _ hne, hu]

theorem endsInOperator_operand (u : Operand) : endsInOperator u.symbols = false ∧ u.symbols ≠ [] := by
  match u with
  | .var k => exact ⟨rfl, List.cons_ne_nil _ _⟩
  | .not u =>
    obtain ⟨hu, hne⟩ := endsInOperator_operand u
    refine ⟨?_, List.cons_ne_nil _ _⟩
    rw [Operand.symbols, ← List.singleton_append, endsInOperator_append _ hne, hu]
  | .group e =>
    refine ⟨?_, List.cons_ne_nil _ _⟩
    rw [Operand.symbols, ← List.cons_append, endsInOperator_concat]
    rfl

end

/-- The clause `$0 ~` is assembled, as the negation of its variable, though no expression ends with an
operator. -/
theorem assemble_postfix_negation :
    Token.scan "$0 ~" 1 = .ok [⟨.variable 0, 0⟩, ⟨.not, 3⟩] ∧ ¬Derivable [.variable 0, .not] ∧
      ∃ reg reg', reg.Reachable 1 ∧ assemble 1 (Circuit.sigmoidOf 1) "$0 ~" reg = .ok 3 reg' := by
  refine ⟨by decide, ?_, _, ⟨⟨#[⟨0, .input, [1]⟩, ⟨1, .sigmoid 0, [2]⟩, ⟨2, .not (some 1), [3]⟩,
    ⟨3, .cost 2, []⟩]⟩, 4⟩, .start placeVariables_one, by cbv⟩
  rintro ⟨e, he⟩
  have hend := endsInOperator_expression e
  rw [he] at hend
  cases hend

/-- The juxtaposed operands of `$0 $0` are not joined. -/
theorem assemble_juxtaposed :
    ¬Acceptable [.variable 0, .variable 0] ∧ ∃ reg flaw column text reg', reg.Reachable 1 ∧
      assemble 1 (Circuit.sigmoidOf 1) "$0 $0" reg =
        .error (.clause (.malformed flaw column text)) reg' := by
  have hnot : ¬Acceptable [.variable 0, .variable 0] := fun h => absurd h.remaining (by decide)
  have hscan : Token.scan "$0 $0" 1 = .ok [⟨.variable 0, 0⟩, ⟨.variable 0, 3⟩] := by decide
  have hiff := assemble_ok_iff_acceptable (.start placeVariables_one) hscan
  obtain ⟨flaw, column, text, reg', herror⟩ := hiff.2.mpr hnot
  exact ⟨hnot, _, flaw, column, text, reg', .start placeVariables_one, herror⟩

end SoftLogic.Assembly
