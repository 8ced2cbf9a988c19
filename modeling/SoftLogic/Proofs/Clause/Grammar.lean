import SoftLogic.Clause.Token
import SoftLogic.Netlist.Evaluation

/-!
# Formulas and the grammar of clauses

A clause is meant to be an expression of the grammar

    expression ::= operand | expression '^' operand | expression 'v' operand
    operand    ::= '$k' | '~' operand | '(' expression ')'

in which connectives associate to the left and a negation takes the next operand only.  A derivation is a
tree of type `Expression`; its yield is the list of its symbols, and the formula it stands for is what is
left of the tree when the parentheses are forgotten.
-/

namespace SoftLogic

/-- What a clause says: variables under negations and connectives. -/
inductive Formula
  | var (index : Nat)
  | not (f : Formula)
  | binary (op : Connective) (f g : Formula)
  deriving DecidableEq, Repr

/-- The truth value of a formula, given those of the variables. -/
def Formula.value {R : Type} [Scalar R] (s : Nat → R) : Formula → R
  | .var k => s k
  | .not f => 1 - f.value s
  | .binary op f g => op.apply (f.value s) (g.value s)

mutual

/-- A derivation of an expression. -/
inductive Expression
  | operand (u : Operand)
  | chain (e : Expression) (op : Connective) (u : Operand)

/-- A derivation of an operand. -/
inductive Operand
  | var (index : Nat)
  | not (u : Operand)
  | group (e : Expression)

end

mutual

/-- The yield of a derivation. -/
def Expression.symbols : Expression → List Symbol
  | .operand u => u.symbols
  | .chain e op u => e.symbols ++ .connective op :: u.symbols

/-- The yield of a derivation. -/
def Operand.symbols : Operand → List Symbol
  | .var k => [.variable k]
  | .not u => .not :: u.symbols
  | .group e => .openGroup :: (e.symbols ++ [.closeGroup])

end

mutual

/-- The formula that a derivation stands for. -/
def Expression.formula : Expression → Formula
  | .operand u => u.formula
  | .chain e op u => .binary op e.formula u.formula

/-- The formula that a derivation stands for. -/
def Operand.formula : Operand → Formula
  | .var k => .var k
  | .not u => .not u.formula
  | .group e => e.formula

end

/-- The lists of symbols that the grammar derives. -/
def Derivable (w : List Symbol) : Prop := ∃ e : Expression, e.symbols = w

/-! ### Reading symbols with two stacks -/

/-- What waits for an operand while a clause is read. -/
inductive Frame
  /-- An open slot, as the formula that filling it gives. -/
  | hole (fill : Formula → Formula)
  /-- An open parenthesis. -/
  | group

/-- The two stacks of a clause that is being read, innermost entries first. -/
structure Reading where
  frames : List Frame
  formulas : List Formula

namespace Reading

/-- Fills the open slots down to the nearest parenthesis; fails for want of a formula. -/
def collapse : List Frame → List Formula → Option Reading
  | .hole fill :: frames, f :: formulas => collapse frames (fill f :: formulas)
  | .hole _ :: _, [] => none
  | frames, formulas => some ⟨frames, formulas⟩

/-- Takes one symbol. -/
def step (s : Reading) : Symbol → Option Reading
  | .variable k => collapse s.frames (.var k :: s.formulas)
  | .connective op =>
    match s.formulas with
    | [] => none
    | f :: formulas => some ⟨.hole (.binary op f) :: s.frames, formulas⟩
  | .not => some ⟨.hole .not :: s.frames, s.formulas⟩
  | .openGroup => some ⟨.group :: s.frames, s.formulas⟩
  | .closeGroup =>
    match s.frames with
    | .group :: frames => collapse frames s.formulas
    | _ => none

/-- Takes the symbols of a list in turn. -/
def run (s : Reading) (w : List Symbol) : Option Reading := w.foldlM step s

/-- The one formula that is there, if nothing waits. -/
def result : Reading → Option Formula
  | ⟨[], [f]⟩ => some f
  | _ => none

/-- Ends the clause: one formula has to be left. -/
def close (s : Reading) : Option Formula := (collapse s.frames s.formulas).bind result

theorem result_eq_some_iff {s : Reading} {f : Formula} : s.result = some f ↔ s = ⟨[], [f]⟩ := by
  constructor
  · intro h
    unfold result at h
    split at h
    · cases h
      rfl
    · cases h
  · rintro rfl
    rfl

@[simp] theorem run_nil (s : Reading) : s.run [] = some s := rfl

@[simp] theorem run_cons (s : Reading) (x : Symbol) (w : List Symbol) :
    s.run (x :: w) = (s.step x).bind fun s => s.run w := rfl

theorem run_append (s : Reading) (u w : List Symbol) :
    s.run (u ++ w) = (s.run u).bind fun s => s.run w := by
  simp [run, List.foldlM_append]

/-- No slot is open inside the nearest parenthesis. -/
def Quiet : List Frame → Prop
  | .hole _ :: _ => False
  | _ => True

theorem collapse_of_quiet {frames : List Frame} (h : Quiet frames) (formulas : List Formula) :
    collapse frames formulas = some ⟨frames, formulas⟩ := by
  match frames, h with
  | [], _ => rfl
  | .group :: _, _ => rfl

mutual

/-- An operand that has been read fills the slots that wait for it. -/
theorem run_operand (u : Operand) (frames : List Frame) (formulas : List Formula) :
    run ⟨frames, formulas⟩ u.symbols = collapse frames (u.formula :: formulas) := by
  match u with
  | .var k => simp [Operand.symbols, Operand.formula, step]
  | .not u =>
    rw [Operand.symbols, run_cons]
    show run ⟨.hole .not :: frames, formulas⟩ u.symbols = _
    rw [run_operand u]
    rfl
  | .group e =>
    rw [Operand.symbols, run_cons]
    show run ⟨.group :: frames, formulas⟩ (e.symbols ++ [.closeGroup]) = _
    rw [run_append, run_expression e (show Quiet (.group :: frames) from trivial)]
    simp [step, Operand.formula]

/-- An expression that has been read in a place of its own stands on top of the formulas. -/
theorem run_expression (e : Expression) {frames : List Frame} (h : Quiet frames)
    (formulas : List Formula) :
    run ⟨frames, formulas⟩ e.symbols = some ⟨frames, e.formula :: formulas⟩ := by
  match e with
  | .operand u =>
    rw [Expression.symbols, run_operand u, collapse_of_quiet h]
    rfl
  | .chain e op u =>
    rw [Expression.symbols, run_append, run_expression e h, Option.bind_some, run_cons]
    show run ⟨.hole (.binary op e.formula) :: frames, formulas⟩ u.symbols = _
    rw [run_operand u]
    exact collapse_of_quiet h _

end

end Reading

/-- The formula that a list of symbols is read as, if it is read at all. -/
def Formula.read (w : List Symbol) : Option Formula := (Reading.run ⟨[], []⟩ w).bind Reading.close

/-- The yield of a derivation is read as its formula. -/
theorem Formula.read_symbols (e : Expression) : Formula.read e.symbols = some e.formula := by
  rw [Formula.read, Reading.run_expression e (show Reading.Quiet [] from trivial)]
  rfl

end SoftLogic
