import Mathlib.Data.List.Perm.Basic
import SoftLogic.Circuit.Basic
import SoftLogic.Proofs.Clause.Acceptance

/-!
# Drawing formulas

A clause is drawn as a tree whose negations and connectives have places: the first one that is read takes the next free
place, and so on (`Tree.places`).  `Drawing.step` reads symbols as `Reading.step` does, but it keeps the trees, and it
notes down which node came to read which variable, in the order in which that happened.

Two things are seen of a drawing.  Nothing is lost or doubled, however far from its operator an operand comes to stand:
what stands in the two stacks is what was read, each operator at its place (`Drawing.run_entries`), and the readings that
were noted down are those inside the trees (`Drawing.Tallied`).  And what the grammar derives is drawn as it is written:
from left to right the tree has the symbols in their order, and the variables were read in their order
(`Drawing.run_expression`).
-/

namespace SoftLogic

/-- A formula whose negations and connectives have places in a netlist. -/
inductive Tree
  | leaf (index : Nat)
  | not (r : Ref) (t : Tree)
  | binary (r : Ref) (op : Connective) (t u : Tree)

namespace Tree

/-- The node that stands for the whole tree, over `n` variables. -/
def root (n : Nat) : Tree → Ref
  | .leaf k => Circuit.sigmoidOf n k
  | .not r _ | .binary r _ _ _ => r

/-- The symbols of a tree from left to right, each with the node that stands for it. -/
def entries (n : Nat) : Tree → List (Symbol × Ref)
  | .leaf k => [(.variable k, Circuit.sigmoidOf n k)]
  | .not r t => (.not, r) :: t.entries n
  | .binary r op t u => t.entries n ++ (.connective op, r) :: u.entries n

/-- The variable that a tree is, if it is no more than one, and that `r` reads it. -/
def stem (r : Ref) : Tree → List (Nat × Ref)
  | .leaf k => [(k, r)]
  | _ => []

/-- The variables of a tree from left to right, each with the node that reads it; `r` reads the whole tree. -/
def readings (r : Ref) : Tree → List (Nat × Ref)
  | .leaf k => [(k, r)]
  | .not q t => t.readings q
  | .binary q _ t u => t.readings q ++ u.readings q

/-- The readings inside a tree, whoever reads the whole of it. -/
def inner : Tree → List (Nat × Ref)
  | .leaf _ => []
  | .not q t => t.readings q
  | .binary q _ t u => t.readings q ++ u.readings q

/-- The symbols of a text without its parentheses, each with the node that stands for it: variables have their sigmoids,
and operators the places from `next` on. -/
def places (n : Nat) : Nat → List Symbol → List (Symbol × Ref)
  | _, [] => []
  | next, .variable k :: w => (.variable k, Circuit.sigmoidOf n k) :: places n next w
  | next, .connective op :: w => (.connective op, next) :: places n (next + 1) w
  | next, .not :: w => (.not, next) :: places n (next + 1) w
  | next, .openGroup :: w | next, .closeGroup :: w => places n next w

theorem readings_eq (r : Ref) (t : Tree) : t.readings r = t.inner ++ t.stem r := by
  cases t <;> simp [readings, inner, stem]

end Tree

/-- The number of negations and connectives in a text. -/
def operators (w : List Symbol) : Nat := w.countP Symbol.isOperator

section Operators

variable (w : List Symbol)

@[simp] theorem operators_nil : operators [] = 0 := rfl

@[simp] theorem operators_variable (k : Nat) : operators (.variable k :: w) = operators w :=
  List.countP_cons_of_neg Bool.false_ne_true

@[simp] theorem operators_connective (op : Connective) : operators (.connective op :: w) = operators w + 1 :=
  List.countP_cons_of_pos rfl

@[simp] theorem operators_not : operators (.not :: w) = operators w + 1 := List.countP_cons_of_pos rfl

@[simp] theorem operators_openGroup : operators (.openGroup :: w) = operators w :=
  List.countP_cons_of_neg Bool.false_ne_true

@[simp] theorem operators_closeGroup : operators (.closeGroup :: w) = operators w :=
  List.countP_cons_of_neg Bool.false_ne_true

@[simp] theorem operators_append (u w : List Symbol) : operators (u ++ w) = operators u + operators w :=
  List.countP_append

theorem operators_cons (x : Symbol) (w : List Symbol) : operators (x :: w) = operators [x] + operators w :=
  operators_append [x] w

end Operators

/-- A negation or a connective that waits for its last operand. -/
inductive Gap
  | not (r : Ref)
  | binary (r : Ref) (op : Connective) (t : Tree)

namespace Gap

/-- The place of the operator. -/
def place : Gap → Ref
  | .not r | .binary r _ _ => r

/-- The tree that the last operand makes. -/
def fill (u : Tree) : Gap → Tree
  | .not r => .not r u
  | .binary r op t => .binary r op t u

/-- The symbols so far. -/
def entries (n : Nat) : Gap → List (Symbol × Ref)
  | .not r => [(.not, r)]
  | .binary r op t => t.entries n ++ [(.connective op, r)]

/-- The readings so far. -/
def inner : Gap → List (Nat × Ref)
  | .not _ => []
  | .binary r _ t => t.readings r

theorem entries_fill (n : Nat) (g : Gap) (u : Tree) : (g.fill u).entries n = g.entries n ++ u.entries n := by
  cases g <;> simp [fill, Gap.entries, Tree.entries]

theorem inner_fill (g : Gap) (u : Tree) : (g.fill u).inner = g.inner ++ u.readings g.place := by
  cases g <;> simp [fill, Gap.inner, Tree.inner, place]

end Gap

/-- What waits while a clause is drawn. -/
inductive Slot
  | gap (g : Gap)
  /-- An open parenthesis. -/
  | group

namespace Slot

def entries (n : Nat) : Slot → List (Symbol × Ref)
  | .gap g => g.entries n
  | .group => []

def inner : Slot → List (Nat × Ref)
  | .gap g => g.inner
  | .group => []

end Slot

/-- A clause that is being drawn: the two stacks, innermost entries first, the next free place, and which node came to
read which variable so far. -/
structure Drawing where
  slots : List Slot
  trees : List Tree
  next : Nat
  readings : List (Nat × Ref)

namespace Drawing

/-- Nothing is drawn yet, and `next` is the first free place. -/
def blank (next : Nat) : Drawing := ⟨[], [], next, []⟩

/-- Fills the gaps down to the nearest parenthesis; fails for want of a tree. -/
def collapse (next : Nat) : List Slot → List Tree → List (Nat × Ref) → Option Drawing
  | .gap g :: slots, t :: trees, readings => collapse next slots (g.fill t :: trees) (readings ++ t.stem g.place)
  | .gap _ :: _, [], _ => none
  | slots, trees, readings => some ⟨slots, trees, next, readings⟩

/-- Takes one symbol. -/
def step (d : Drawing) : Symbol → Option Drawing
  | .variable k => collapse d.next d.slots (.leaf k :: d.trees) d.readings
  | .connective op =>
    match d.trees with
    | [] => none
    | t :: trees => some ⟨.gap (.binary d.next op t) :: d.slots, trees, d.next + 1, d.readings ++ t.stem d.next⟩
  | .not => some ⟨.gap (.not d.next) :: d.slots, d.trees, d.next + 1, d.readings⟩
  | .openGroup => some ⟨.group :: d.slots, d.trees, d.next, d.readings⟩
  | .closeGroup =>
    match d.slots with
    | .group :: slots => collapse d.next slots d.trees d.readings
    | _ => none

/-- Takes the symbols of a list in turn. -/
def run (d : Drawing) (w : List Symbol) : Option Drawing := w.foldlM step d

@[simp] theorem run_nil (d : Drawing) : d.run [] = some d := rfl

@[simp] theorem run_cons (d : Drawing) (x : Symbol) (w : List Symbol) :
    d.run (x :: w) = (d.step x).bind fun d => d.run w := rfl

theorem run_append (d : Drawing) (u w : List Symbol) : d.run (u ++ w) = (d.run u).bind fun d => d.run w := by
  simp [run, List.foldlM_append]

/-! ### Nothing is lost or doubled -/

/-- All that stands in the two stacks. -/
def entries (n : Nat) (d : Drawing) : List (Symbol × Ref) :=
  d.trees.flatMap (Tree.entries n) ++ d.slots.flatMap (Slot.entries n)

/-- The readings inside of all that stands in the two stacks. -/
def inner (d : Drawing) : List (Nat × Ref) := d.trees.flatMap Tree.inner ++ d.slots.flatMap Slot.inner

/-- What was noted down is what there is. -/
def Tallied (d : Drawing) : Prop := d.readings.Perm d.inner

section Conservation

variable {n : Nat} {d d' : Drawing} {next : Nat} {slots : List Slot} {trees : List Tree} {readings : List (Nat × Ref)}

theorem collapse_conserves (h : collapse next slots trees readings = some d) :
    d.next = next ∧ (d.entries n).Perm (entries n ⟨slots, trees, next, readings⟩) ∧
      (Tallied ⟨slots, trees, next, readings⟩ → d.Tallied) := by
  induction slots generalizing trees readings with
  | nil =>
    cases h
    exact ⟨rfl, .rfl, id⟩
  | cons slot slots ih =>
    cases slot with
    | group =>
      cases h
      exact ⟨rfl, .rfl, id⟩
    | gap g =>
      cases trees with
      | nil => cases h
      | cons t trees =>
        obtain ⟨hnext, hentries, htallied⟩ := ih h
        refine ⟨hnext, hentries.trans ?_, fun htally => htallied ?_⟩
        · -- the gap goes in front of its operand
          rw [List.perm_iff_count]
          intro e
          simp only [entries, List.flatMap_cons, Gap.entries_fill, Slot.entries, List.count_append]
          omega
        · unfold Tallied inner at htally ⊢
          rw [List.perm_iff_count] at htally ⊢
          intro e
          have hcount := htally e
          simp only [List.flatMap_cons, Gap.inner_fill, Tree.readings_eq, Slot.inner, List.count_append] at hcount ⊢
          omega

theorem step_conserves {x : Symbol} (h : d.step x = some d') :
    d'.next = d.next + operators [x] ∧ (d'.entries n).Perm (d.entries n ++ Tree.places n d.next [x]) ∧
      (d.Tallied → d'.Tallied) := by
  obtain ⟨slots, trees, next, readings⟩ := d
  cases x with
  | «variable» k =>
    obtain ⟨hnext, hentries, htallied⟩ := collapse_conserves (n := n) h
    refine ⟨hnext, hentries.trans ?_, fun htally => htallied ?_⟩
    · rw [List.perm_iff_count]
      intro e
      simp only [entries, List.flatMap_cons, Tree.entries, Tree.places, List.count_append]
      omega
    · exact htally
  | connective op =>
    cases trees with
    | nil => cases h
    | cons t trees =>
      cases h
      refine ⟨rfl, ?_, fun htally => ?_⟩
      · rw [List.perm_iff_count]
        intro e
        simp only [entries, List.flatMap_cons, Slot.entries, Gap.entries, Tree.places, List.count_append]
        omega
      · unfold Tallied inner at htally ⊢
        rw [List.perm_iff_count] at htally ⊢
        intro e
        have hcount := htally e
        simp only [List.flatMap_cons, Slot.inner, Gap.inner, Tree.readings_eq, List.count_append] at hcount ⊢
        omega
  | not =>
    cases h
    refine ⟨rfl, ?_, id⟩
    rw [List.perm_iff_count]
    intro e
    simp only [entries, List.flatMap_cons, Slot.entries, Gap.entries, Tree.places, List.count_append]
    omega
  | openGroup =>
    cases h
    exact ⟨rfl, by simp [entries, Slot.entries, Tree.places], id⟩
  | closeGroup =>
    match slots with
    | [] => cases h
    | .gap g :: slots => cases h
    | .group :: slots =>
      obtain ⟨hnext, hentries, htallied⟩ := collapse_conserves (n := n) h
      exact ⟨hnext, by simpa [entries, Slot.entries, Tree.places] using hentries, htallied⟩

theorem places_cons (n : Nat) (next : Nat) (x : Symbol) (w : List Symbol) :
    Tree.places n next (x :: w) = Tree.places n next [x] ++ Tree.places n (next + operators [x]) w := by
  cases x <;> rfl

theorem places_append (n : Nat) (next : Nat) (u w : List Symbol) :
    Tree.places n next (u ++ w) = Tree.places n next u ++ Tree.places n (next + operators u) w := by
  induction u generalizing next with
  | nil => rfl
  | cons x u ih =>
    rw [List.cons_append, places_cons, ih, places_cons n next x u, operators_cons x u, List.append_assoc, Nat.add_assoc]

/-- What was read is there, and nothing else. -/
theorem run_conserves {w : List Symbol} (h : d.run w = some d') :
    d'.next = d.next + operators w ∧ (d'.entries n).Perm (d.entries n ++ Tree.places n d.next w) ∧
      (d.Tallied → d'.Tallied) := by
  induction w generalizing d with
  | nil =>
    cases h
    exact ⟨rfl, by simp [Tree.places], id⟩
  | cons x w ih =>
    rw [run_cons] at h
    obtain ⟨d₁, hstep, hrun⟩ := Option.bind_eq_some_iff.mp h
    obtain ⟨hnext, hentries, htallied⟩ := step_conserves (n := n) hstep
    obtain ⟨hnext', hentries', htallied'⟩ := ih hrun
    refine ⟨?_, ?_, fun htally => htallied' (htallied htally)⟩
    · rw [hnext', hnext, operators_cons x w, Nat.add_assoc]
    · rw [places_cons, ← List.append_assoc, ← hnext]
      exact hentries'.trans (hentries.append_right _)

/-- The one tree that is left in the end holds what was read, and so do the notes. -/
theorem tree_conserves {w : List Symbol} {t : Tree} {next' : Nat} (hrun : (blank next).run w = some d)
    (h : collapse d.next d.slots d.trees d.readings = some ⟨[], [t], next', readings⟩) :
    next' = next + operators w ∧ (t.entries n).Perm (Tree.places n next w) ∧
      (readings ++ t.stem next').Perm (t.readings next') := by
  obtain ⟨hnext, hentries, htallied⟩ := run_conserves (n := n) hrun
  obtain ⟨hnext', hentries', htallied'⟩ := collapse_conserves (n := n) h
  have htally : readings.Perm (t.inner ++ []) := by simpa [Tallied, inner] using htallied' (htallied .rfl)
  refine ⟨hnext'.trans hnext, ?_, ?_⟩
  · simpa [entries, blank] using hentries'.trans hentries
  · rw [Tree.readings_eq]
    exact (by simpa using htally : readings.Perm t.inner).append_right _

end Conservation

/-! ### Expressions are drawn as they are written -/

/-- No gap is open inside the nearest parenthesis. -/
def Quiet : List Slot → Prop
  | .gap _ :: _ => False
  | _ => True

theorem collapse_of_quiet {next : Nat} {slots : List Slot} (h : Quiet slots) (trees : List Tree)
    (readings : List (Nat × Ref)) : collapse next slots trees readings = some ⟨slots, trees, next, readings⟩ := by
  match slots, h with
  | [], _ => rfl
  | .group :: _, _ => rfl

end Drawing

mutual

/-- The tree of a derivation whose operators take the places from `next` on, in the order in which they are written. -/
def Expression.tree (next : Nat) : Expression → Tree
  | .operand u => u.tree next
  | .chain e op u =>
    .binary (next + operators e.symbols) op (e.tree next) (u.tree (next + operators e.symbols + 1))

/-- The tree of a derivation whose operators take the places from `next` on, in the order in which they are written. -/
def Operand.tree (next : Nat) : Operand → Tree
  | .var k => .leaf k
  | .not u => .not next (u.tree (next + 1))
  | .group e => e.tree next

end

namespace Drawing

mutual

/-- An operand that has been drawn fills the gaps that wait for it. -/
theorem run_operand (u : Operand) (d : Drawing) : d.run u.symbols =
    collapse (d.next + operators u.symbols) d.slots (u.tree d.next :: d.trees)
      (d.readings ++ (u.tree d.next).inner) := by
  match u with
  | .var k => simp [Operand.symbols, Operand.tree, Tree.inner, step]
  | .not u =>
    rw [Operand.symbols, run_cons]
    show (mk (.gap (.not d.next) :: d.slots) d.trees (d.next + 1) d.readings).run u.symbols = _
    have hnext : d.next + operators (.not :: u.symbols) = d.next + 1 + operators u.symbols := by
      rw [operators_not]
      omega
    rw [run_operand u, collapse, Gap.place, List.append_assoc, ← Tree.readings_eq, hnext]
    rfl
  | .group e =>
    rw [Operand.symbols, run_cons]
    show (mk (.group :: d.slots) d.trees d.next d.readings).run (e.symbols ++ [.closeGroup]) = _
    rw [run_append, run_expression e (show Quiet (.group :: d.slots) from trivial)]
    simp [step, Operand.tree]

/-- An expression that has been drawn in a place of its own stands on top of the trees. -/
theorem run_expression (e : Expression) {d : Drawing} (h : Quiet d.slots) : d.run e.symbols =
    some ⟨d.slots, e.tree d.next :: d.trees, d.next + operators e.symbols, d.readings ++ (e.tree d.next).inner⟩ := by
  match e with
  | .operand u =>
    rw [Expression.symbols, run_operand u, collapse_of_quiet h]
    rfl
  | .chain e op u =>
    rw [Expression.symbols, run_append, run_expression e h, Option.bind_some, run_cons]
    show (mk (.gap (.binary (d.next + operators e.symbols) op (e.tree d.next)) :: d.slots) d.trees
      (d.next + operators e.symbols + 1)
      (d.readings ++ (e.tree d.next).inner ++ (e.tree d.next).stem (d.next + operators e.symbols))).run u.symbols = _
    have hnext : d.next + operators (e.symbols ++ .connective op :: u.symbols) =
        d.next + operators e.symbols + 1 + operators u.symbols := by
      rw [operators_append, operators_connective]
      omega
    rw [run_operand u, collapse, collapse_of_quiet h, hnext]
    simp [Expression.tree, Gap.fill, Gap.place, Tree.inner, Tree.readings_eq _ (Expression.tree _ _),
      Tree.readings_eq _ (Operand.tree _ _)]

end

end Drawing

mutual

/-- From left to right, the tree of a derivation has the symbols in the order in which they are written. -/
theorem Operand.entries_tree (n : Nat) (u : Operand) (next : Nat) :
    (u.tree next).entries n = Tree.places n next u.symbols := by
  match u with
  | .var k => rfl
  | .not u => exact congrArg _ (Operand.entries_tree n u (next + 1))
  | .group e =>
    rw [Operand.tree, Expression.entries_tree n e, Operand.symbols, Tree.places, Drawing.places_append, Tree.places,
      Tree.places, List.append_nil]

/-- From left to right, the tree of a derivation has the symbols in the order in which they are written. -/
theorem Expression.entries_tree (n : Nat) (e : Expression) (next : Nat) :
    (e.tree next).entries n = Tree.places n next e.symbols := by
  match e with
  | .operand u => exact Operand.entries_tree n u next
  | .chain e op u =>
    rw [Expression.tree, Tree.entries, Expression.entries_tree n e, Operand.entries_tree n u, Expression.symbols,
      Drawing.places_append]
    rfl

end

end SoftLogic
