import Mathlib.Data.List.Basic
import Mathlib.Data.List.Induction
import SoftLogic.Proofs.Clause.Grammar

/-!
# Which symbols are read

The two stacks do not remember where an operand came from, so they take more than the grammar derives:
`$0 ~`, `$0 $1 ^` and `$0 ( ^ $1 )` are read as formulas.  `Formula.read_isSome_iff` says exactly which lists
of symbols are read: the parentheses have to match, no operator may stand right before a closing
parenthesis, every connective needs a formula to its left that is not used up, so does every operator whose
slot a group is to fill, and one formula is left in the end.

Formulas are counted by `surplus` and open parentheses by `depth`.
-/

namespace SoftLogic

namespace Symbol

/-- Whether the symbol leaves a slot open. -/
def isOperator : Symbol → Bool
  | .connective _ | .not => true
  | _ => false

/-- How many formulas the symbol adds: a connective joins two. -/
def supply : Symbol → Int
  | .variable _ => 1
  | .connective _ => -1
  | _ => 0

/-- How many parentheses the symbol opens. -/
def rise : Symbol → Int
  | .openGroup => 1
  | .closeGroup => -1
  | _ => 0

end Symbol

/-- The number of formulas that a list of symbols leaves. -/
def surplus : List Symbol → Int
  | [] => 0
  | x :: w => x.supply + surplus w

/-- The number of parentheses that a list of symbols leaves open. -/
def depth : List Symbol → Int
  | [] => 0
  | x :: w => x.rise + depth w

/-- Whether the last symbol leaves a slot open. -/
def endsInOperator (w : List Symbol) : Bool := w.getLast?.any Symbol.isOperator

/-- Lists of symbols in which every parenthesis has its partner. -/
inductive Balanced : List Symbol → Prop
  | nil : Balanced []
  | plain {x : Symbol} : x.rise = 0 → Balanced [x]
  | append {u w : List Symbol} : Balanced u → Balanced w → Balanced (u ++ w)
  | group {w : List Symbol} : Balanced w → Balanced (.openGroup :: (w ++ [.closeGroup]))

/-- The lists of symbols that two stacks accept. -/
structure Acceptable (w : List Symbol) : Prop where
  /-- Every parenthesis has its partner. -/
  balanced : Balanced w
  /-- No operator stands right before a closing parenthesis. -/
  closed : ∀ u x v, w = u ++ x :: .closeGroup :: v → x.isOperator = false
  /-- There is a formula to the left of every connective. -/
  supplied : ∀ u op v, w = u ++ .connective op :: v → 0 < surplus u
  /-- There is a formula for every operator whose operand is a group. -/
  grouped : ∀ u x g v, w = u ++ x :: .openGroup :: g ++ .closeGroup :: v → x.isOperator = true →
    Balanced g → 0 < surplus (u ++ x :: .openGroup :: g)
  /-- One formula is left. -/
  remaining : surplus w = 1

/-! ### Counting -/

@[simp] theorem surplus_nil : surplus [] = 0 := rfl

@[simp] theorem surplus_cons (x : Symbol) (w : List Symbol) : surplus (x :: w) = x.supply + surplus w := rfl

@[simp] theorem surplus_append (u w : List Symbol) : surplus (u ++ w) = surplus u + surplus w := by
  induction u with
  | nil => simp
  | cons x u ih => simp [ih, Int.add_assoc]

@[simp] theorem depth_nil : depth [] = 0 := rfl

@[simp] theorem depth_cons (x : Symbol) (w : List Symbol) : depth (x :: w) = x.rise + depth w := rfl

@[simp] theorem depth_append (u w : List Symbol) : depth (u ++ w) = depth u + depth w := by
  induction u with
  | nil => simp
  | cons x u ih => simp [ih, Int.add_assoc]

@[simp] theorem endsInOperator_nil : endsInOperator [] = false := rfl

@[simp] theorem endsInOperator_concat (u : List Symbol) (x : Symbol) :
    endsInOperator (u ++ [x]) = x.isOperator := by
  simp [endsInOperator]

theorem endsInOperator_append (u : List Symbol) {w : List Symbol} (h : w ≠ []) :
    endsInOperator (u ++ w) = endsInOperator w := by
  obtain ⟨v, x, rfl⟩ := (List.eq_nil_or_concat' w).resolve_left h
  rw [← List.append_assoc, endsInOperator_concat, endsInOperator_concat]

theorem endsInOperator_open (u w : List Symbol) :
    endsInOperator (u ++ .openGroup :: w) = endsInOperator w := by
  rcases List.eq_nil_or_concat' w with rfl | ⟨v, x, rfl⟩
  · simp [Symbol.isOperator]
  · rw [← List.cons_append, ← List.append_assoc, endsInOperator_concat, endsInOperator_concat]

theorem exists_of_endsInOperator {w : List Symbol} (h : endsInOperator w = true) :
    ∃ u x, w = u ++ [x] ∧ x.isOperator = true := by
  rcases List.eq_nil_or_concat' w with rfl | ⟨u, x, rfl⟩
  · simp at h
  · exact ⟨u, x, rfl, by simpa using h⟩

theorem Balanced.depth_eq_zero {w : List Symbol} (h : Balanced w) : depth w = 0 := by
  induction h with
  | nil => rfl
  | plain hx => simpa using hx
  | append _ _ ihu ihw => simp [ihu, ihw]
  | group _ ih => simp [Symbol.rise, ih]

/-- No part at the beginning closes more than it opens. -/
theorem Balanced.depth_nonneg {w : List Symbol} (h : Balanced w) {u v : List Symbol} (huv : w = u ++ v) :
    0 ≤ depth u := by
  induction h generalizing u v with
  | nil =>
    obtain ⟨rfl, -⟩ := List.append_eq_nil_iff.mp huv.symm
    simp
  | @plain x hx =>
    rcases List.append_eq_cons_iff.mp huv.symm with ⟨rfl, -⟩ | ⟨u', rfl, hu'⟩
    · simp
    · obtain ⟨rfl, -⟩ := List.append_eq_nil_iff.mp hu'.symm
      simp [hx]
  | @append w₁ w₂ h₁ h₂ ih₁ ih₂ =>
    rcases List.append_eq_append_iff.mp huv with ⟨v', rfl, hv⟩ | ⟨u', hu, rfl⟩
    · rw [depth_append, h₁.depth_eq_zero]
      have := ih₂ hv
      omega
    · exact ih₁ hu
  | @group w hw ih =>
    rcases List.append_eq_cons_iff.mp huv.symm with ⟨rfl, -⟩ | ⟨u', rfl, hu'⟩
    · simp
    · rw [depth_cons]
      rcases List.append_eq_append_iff.mp hu' with ⟨v', rfl, hv⟩ | ⟨u'', hu, rfl⟩
      · rcases List.append_eq_cons_iff.mp hv.symm with ⟨rfl, -⟩ | ⟨v'', rfl, hv''⟩
        · simp [Symbol.rise, hw.depth_eq_zero]
        · obtain ⟨rfl, -⟩ := List.append_eq_nil_iff.mp hv''.symm
          simp [Symbol.rise, hw.depth_eq_zero]
      · have := ih hu
        simp only [Symbol.rise]
        omega

/-! ### Open slots -/

/-- For every open parenthesis, innermost first, and last for the whole clause, whether a slot is open right
inside it. -/
def slots : List Frame → List Bool
  | [] => [false]
  | .hole _ :: frames => true :: (slots frames).tail
  | .group :: frames => false :: slots frames

/-- The slots that are open after some symbols, as the symbols show them. -/
inductive Nested : List Symbol → List Bool → Prop
  | outer {w : List Symbol} : Balanced w → Nested w [endsInOperator w]
  | inner {u w : List Symbol} {bs : List Bool} : Nested u bs → Balanced w →
    Nested (u ++ .openGroup :: w) (endsInOperator w :: bs)

theorem Nested.head {w : List Symbol} {bs : List Bool} (h : Nested w bs) :
    ∃ bs', bs = endsInOperator w :: bs' := by
  cases h with
  | outer _ => exact ⟨[], rfl⟩
  | inner _ _ => exact ⟨_, by rw [endsInOperator_open]⟩

/-- Where no parenthesis is open, every one has its partner. -/
theorem Nested.balanced {w : List Symbol} {b : Bool} (h : Nested w [b]) : Balanced w := by
  cases h with
  | outer hw => exact hw
  | inner hu _ =>
    obtain ⟨_, hnil⟩ := hu.head
    cases hnil

theorem Nested.depth {w : List Symbol} {bs : List Bool} (h : Nested w bs) :
    depth w + 1 = bs.length := by
  induction h with
  | outer hw => simp [hw.depth_eq_zero]
  | inner _ hw ih =>
    simp only [depth_append, depth_cons, Symbol.rise, hw.depth_eq_zero, List.length_cons]
    omega

/-- Whatever is balanced does not open or close a level. -/
theorem Nested.append {u w : List Symbol} {bs : List Bool} (h : Nested u bs) (hw : Balanced w)
    (hne : w ≠ []) : Nested (u ++ w) (endsInOperator w :: bs.tail) := by
  cases h with
  | outer hu =>
    have := Nested.outer (hu.append hw)
    rwa [endsInOperator_append _ hne] at this
  | @inner u v bs hu hv =>
    have := Nested.inner hu (hv.append hw)
    rw [endsInOperator_append _ hne] at this
    rw [List.append_assoc, List.cons_append]
    exact this

/-- A closing parenthesis is the partner of the one that opened the innermost level. -/
theorem Nested.close {w : List Symbol} {b : Bool} {bs : List Bool} (h : Nested w (b :: bs)) (hne : bs ≠ []) :
    Nested (w ++ [.closeGroup]) (false :: bs.tail) := by
  cases h with
  | outer _ => exact absurd rfl hne
  | @inner u g _ hu hg =>
    have hend : endsInOperator (.openGroup :: (g ++ [.closeGroup])) = false :=
      endsInOperator_concat (.openGroup :: g) .closeGroup
    have := hu.append (.group hg) (by simp)
    rw [hend] at this
    simpa using this

theorem slots_ne_nil (frames : List Frame) : slots frames ≠ [] := by
  cases frames with
  | nil => simp [slots]
  | cons frame frames => cases frame <;> simp [slots]

namespace Reading

theorem collapse_eq_none_iff {frames : List Frame} {formulas : List Formula} :
    collapse frames formulas = none ↔ (slots frames).head? = some true ∧ formulas = [] := by
  induction frames generalizing formulas with
  | nil => simp [collapse, slots]
  | cons frame frames ih =>
    cases frame with
    | group => simp [collapse, slots]
    | hole fill =>
      cases formulas with
      | nil => simp [collapse, slots]
      | cons f formulas => simp [collapse, ih]

/-- Collapsing closes the slots of the innermost level and keeps the number of formulas. -/
theorem slots_collapse {frames : List Frame} {formulas : List Formula} {s : Reading}
    (h : collapse frames formulas = some s) :
    slots s.frames = false :: (slots frames).tail ∧ s.formulas.length = formulas.length := by
  induction frames generalizing formulas with
  | nil =>
    obtain rfl := Option.some.inj h
    exact ⟨rfl, rfl⟩
  | cons frame frames ih =>
    cases frame with
    | group =>
      obtain rfl := Option.some.inj h
      exact ⟨rfl, rfl⟩
    | hole fill =>
      cases formulas with
      | nil => cases h
      | cons f formulas => simpa [slots] using ih h

theorem step_closeGroup_eq_none_iff {s : Reading} :
    s.step .closeGroup = none ↔ slots s.frames = [false] ∨ (slots s.frames).head? = some true ∨
      (slots s.frames).tail.head? = some true ∧ s.formulas = [] := by
  obtain ⟨frames, formulas⟩ := s
  match frames with
  | [] => simp [step, slots]
  | .hole fill :: frames => simp [step, slots]
  | .group :: frames => simp [step, slots, collapse_eq_none_iff, slots_ne_nil]

/-- A symbol that is no parenthesis changes the innermost level only. -/
theorem slots_step_plain {s s' : Reading} {x : Symbol} (hx : x.rise = 0) (h : s.step x = some s') :
    slots s'.frames = x.isOperator :: (slots s.frames).tail := by
  obtain ⟨frames, formulas⟩ := s
  match x, formulas with
  | .variable k, _ => exact (slots_collapse h).1
  | .connective op, f :: _ =>
    obtain rfl := Option.some.inj h
    rfl
  | .not, _ =>
    obtain rfl := Option.some.inj h
    rfl

theorem slots_step_openGroup {s s' : Reading} (h : s.step .openGroup = some s') :
    slots s'.frames = false :: slots s.frames := by
  obtain rfl := Option.some.inj h
  rfl

theorem slots_step_closeGroup {s s' : Reading} (h : s.step .closeGroup = some s') :
    ∃ bs, slots s.frames = false :: bs ∧ bs ≠ [] ∧ slots s'.frames = false :: bs.tail := by
  obtain ⟨frames, formulas⟩ := s
  match frames with
  | .group :: frames => exact ⟨slots frames, rfl, slots_ne_nil frames, (slots_collapse h).1⟩

/-- Every symbol adds as many formulas as it supplies. -/
theorem length_step {s s' : Reading} {x : Symbol} (h : s.step x = some s') :
    (s'.formulas.length : Int) = s.formulas.length + x.supply := by
  obtain ⟨frames, formulas⟩ := s
  match x, frames, formulas with
  | .variable k, _, _ => simp [(slots_collapse h).2, Symbol.supply]
  | .connective op, _, f :: _ =>
    obtain rfl := Option.some.inj h
    simp only [List.length_cons, Symbol.supply]
    omega
  | .not, _, _ =>
    obtain rfl := Option.some.inj h
    simp [Symbol.supply]
  | .openGroup, _, _ =>
    obtain rfl := Option.some.inj h
    simp [Symbol.supply]
  | .closeGroup, .group :: frames, _ => simp [(slots_collapse h).2, Symbol.supply]

/-- What is balanced leaves the outer levels as they are. -/
theorem slots_run_balanced {w : List Symbol} (hw : Balanced w) {s s' : Reading} (h : s.run w = some s') :
    (slots s'.frames).tail = (slots s.frames).tail := by
  induction hw generalizing s s' with
  | nil =>
    obtain rfl := Option.some.inj h
    rfl
  | plain hx =>
    obtain ⟨t, ht, hs⟩ := Option.bind_eq_some_iff.mp h
    obtain rfl := Option.some.inj hs
    rw [slots_step_plain hx ht, List.tail_cons]
  | append _ _ ihu ihw =>
    rw [run_append] at h
    obtain ⟨t, ht, hs⟩ := Option.bind_eq_some_iff.mp h
    rw [ihw hs, ihu ht]
  | group _ ih =>
    rw [run_cons] at h
    obtain ⟨t, ht, hs⟩ := Option.bind_eq_some_iff.mp h
    rw [run_append] at hs
    obtain ⟨t', ht', hs⟩ := Option.bind_eq_some_iff.mp hs
    obtain ⟨t'', ht'', hs⟩ := Option.bind_eq_some_iff.mp hs
    obtain rfl := Option.some.inj hs
    obtain ⟨bs, hopen, -, hclose⟩ := slots_step_closeGroup ht''
    have htail := ih ht'
    rw [hopen, slots_step_openGroup ht, List.tail_cons, List.tail_cons] at htail
    rw [hclose, htail, List.tail_cons]

/-- What the symbols read so far say about the stacks. -/
structure Tracks (w : List Symbol) (s : Reading) : Prop where
  nested : Nested w (slots s.frames)
  count : (s.formulas.length : Int) = surplus w

theorem Tracks.start : Tracks [] ⟨[], []⟩ := ⟨.outer .nil, rfl⟩

theorem Tracks.step {w : List Symbol} {s s' : Reading} {x : Symbol} (h : Tracks w s)
    (hs : s.step x = some s') : Tracks (w ++ [x]) s' := by
  refine ⟨?_, by rw [length_step hs, h.count]; simp⟩
  by_cases hx : x.rise = 0
  · rw [slots_step_plain hx hs]
    have := h.nested.append (.plain hx) (by simp)
    rwa [show endsInOperator [x] = x.isOperator from endsInOperator_concat [] x] at this
  · match x with
    | .openGroup =>
      rw [slots_step_openGroup hs]
      exact .inner h.nested .nil
    | .closeGroup =>
      obtain ⟨bs, hopen, hne, hclose⟩ := slots_step_closeGroup hs
      have hnested := h.nested
      rw [hopen] at hnested
      rw [hclose]
      exact hnested.close hne

theorem Tracks.run {u w : List Symbol} {s s' : Reading} (h : Tracks u s) (hs : s.run w = some s') :
    Tracks (u ++ w) s' := by
  induction w generalizing u s with
  | nil =>
    obtain rfl := Option.some.inj hs
    simpa using h
  | cons x w ih =>
    rw [run_cons] at hs
    obtain ⟨t, ht, hs⟩ := Option.bind_eq_some_iff.mp hs
    simpa using ih (h.step ht) hs

/-- The clause can be ended if no parenthesis is open and one formula is left. -/
theorem Tracks.close_isSome_iff {w : List Symbol} {s : Reading} (h : Tracks w s) :
    s.close.isSome ↔ Balanced w ∧ surplus w = 1 := by
  rw [← h.count]
  constructor
  · intro hs
    obtain ⟨f, hf⟩ := Option.isSome_iff_exists.mp hs
    obtain ⟨t, ht, hresult⟩ := Option.bind_eq_some_iff.mp hf
    rw [result_eq_some_iff] at hresult
    subst hresult
    obtain ⟨hslots, hlength⟩ := slots_collapse ht
    have htail : (slots s.frames).tail = [] := (List.cons.inj hslots).2.symm
    have hnested := h.nested
    obtain ⟨bs, hbs⟩ := hnested.head
    rw [hbs] at htail hnested
    obtain rfl : bs = [] := htail
    exact ⟨hnested.balanced, by simp [← hlength]⟩
  · rintro ⟨hw, hone⟩
    have hlen : (slots s.frames).length = 1 := by
      have := h.nested.depth
      rw [hw.depth_eq_zero] at this
      omega
    cases hc : collapse s.frames s.formulas with
    | none =>
      obtain ⟨-, hnil⟩ := collapse_eq_none_iff.mp hc
      simp [hnil] at hone
    | some t =>
      obtain ⟨frames, formulas⟩ := t
      obtain ⟨hslots, hlength⟩ := slots_collapse hc
      have htail : (slots s.frames).tail = [] := List.eq_nil_of_length_eq_zero (by simp [hlen])
      obtain ⟨f, rfl⟩ : ∃ f, formulas = [f] := List.length_eq_one_iff.mp (by simp only at hlength; omega)
      obtain rfl : frames = [] := by
        match frames with
        | [] => rfl
        | .hole _ :: _ => cases hslots
        | .group :: frames =>
          rw [htail] at hslots
          exact absurd (List.cons.inj hslots).2 (slots_ne_nil frames)
      simp [close, hc, result]

/-- Reading a list of symbols passes through every part at its beginning. -/
theorem exists_of_run {u v : List Symbol} {x : Symbol} {s : Reading}
    (h : run ⟨[], []⟩ (u ++ x :: v) = some s) :
    ∃ t t', run ⟨[], []⟩ u = some t ∧ Tracks u t ∧ t.step x = some t' := by
  rw [run_append] at h
  obtain ⟨t, ht, h⟩ := Option.bind_eq_some_iff.mp h
  obtain ⟨t', ht', -⟩ := Option.bind_eq_some_iff.mp h
  exact ⟨t, t', ht, by simpa using Tracks.start.run ht, ht'⟩

theorem acceptable_of_run {w : List Symbol} {s : Reading} (h : run ⟨[], []⟩ w = some s)
    (hs : s.close.isSome) : Acceptable w where
  balanced := ((Tracks.start.run h).close_isSome_iff.mp hs).1
  remaining := ((Tracks.start.run h).close_isSome_iff.mp hs).2
  closed := by
    rintro u x v rfl
    rw [List.append_cons] at h
    obtain ⟨t, t', -, htracks, ht⟩ := exists_of_run h
    obtain ⟨bs, hopen, -, -⟩ := slots_step_closeGroup ht
    obtain ⟨bs', hhead⟩ := htracks.nested.head
    rw [hopen, endsInOperator_concat] at hhead
    exact (List.cons.inj hhead).1.symm
  supplied := by
    rintro u op v rfl
    obtain ⟨⟨frames, formulas⟩, t', -, htracks, ht⟩ := exists_of_run h
    rw [← htracks.count]
    match formulas with
    | f :: formulas => simp only [List.length_cons]; omega
  grouped := by
    rintro u x g v rfl hx hg
    obtain ⟨t, t', hrun, htracks, ht⟩ := exists_of_run h
    rw [← htracks.count]
    -- the level around the group has an open slot while the group is read
    rw [List.append_cons, run_append] at hrun
    obtain ⟨t₁, ht₁, hrun⟩ := Option.bind_eq_some_iff.mp hrun
    rw [run_cons] at hrun
    obtain ⟨t₂, ht₂, hrun⟩ := Option.bind_eq_some_iff.mp hrun
    obtain ⟨bs, hbs⟩ := (Tracks.start.run ht₁).nested.head
    have htail := slots_run_balanced hg hrun
    rw [slots_step_openGroup ht₂, List.tail_cons, hbs, List.nil_append, endsInOperator_concat, hx] at htail
    have hne : t.formulas ≠ [] := by
      intro hnil
      have := step_closeGroup_eq_none_iff.mpr (.inr (.inr ⟨by rw [htail]; rfl, hnil⟩))
      rw [ht] at this
      cases this
    have := List.length_pos_iff.mpr hne
    omega

theorem exists_run_of_acceptable {w : List Symbol} (h : Acceptable w) {u v : List Symbol}
    (huv : w = u ++ v) : ∃ s, run ⟨[], []⟩ u = some s := by
  induction u using List.reverseRecOn generalizing v with
  | nil => exact ⟨_, rfl⟩
  | append_singleton u x ih =>
    rw [List.append_assoc, List.singleton_append] at huv
    obtain ⟨s, hs⟩ := ih huv
    have htracks : Tracks u s := by simpa using Tracks.start.run hs
    have hstep : s.step x ≠ none := by
      match x with
      | .variable k => simp [step, collapse_eq_none_iff]
      | .connective op =>
        have hpos := h.supplied u op v huv
        rw [← htracks.count] at hpos
        cases hf : s.formulas with
        | nil => simp [hf] at hpos
        | cons f formulas => simp [step, hf]
      | .not => simp [step]
      | .openGroup => simp [step]
      | .closeGroup =>
        intro hnone
        obtain ⟨bs, hbs⟩ := htracks.nested.head
        have hdepth := htracks.nested.depth
        rcases step_closeGroup_eq_none_iff.mp hnone with hlevel | hlast | ⟨hlast, hnil⟩
        · have hneg := h.balanced.depth_nonneg (u := u ++ [.closeGroup]) (v := v) (by simpa using huv)
          rw [hlevel] at hdepth
          simp [Symbol.rise] at hneg hdepth
          omega
        · rw [hbs] at hlast
          obtain ⟨u', y, rfl, hy⟩ := exists_of_endsInOperator (Option.some.inj hlast)
          rw [h.closed u' y v (by simpa using huv)] at hy
          cases hy
        · have hnested := htracks.nested
          generalize slots s.frames = levels at hnested hlast
          cases hnested with
          | outer _ => cases hlast
          | @inner u' g levels hu hg =>
            obtain ⟨bs', rfl⟩ := hu.head
            obtain ⟨u'', y, rfl, hy⟩ := exists_of_endsInOperator (Option.some.inj hlast)
            have hpos := h.grouped u'' y g v (by simpa using huv) hy hg
            have hzero := htracks.count
            rw [hnil, List.append_assoc, List.singleton_append] at hzero
            simp only [List.length_nil] at hzero
            omega
    obtain ⟨s', hs'⟩ := Option.ne_none_iff_exists'.mp hstep
    exact ⟨s', by rw [run_append, hs]; simp [hs']⟩

end Reading

/-- The two stacks read exactly the acceptable lists of symbols. -/
theorem Formula.read_isSome_iff (w : List Symbol) : (Formula.read w).isSome ↔ Acceptable w := by
  constructor
  · intro h
    cases hs : Reading.run ⟨[], []⟩ w with
    | none => simp [Formula.read, hs] at h
    | some s => exact Reading.acceptable_of_run hs (by simpa [Formula.read, hs] using h)
  · intro h
    obtain ⟨s, hs⟩ := Reading.exists_run_of_acceptable h (List.append_nil w).symm
    have htracks : Reading.Tracks w s := by simpa using Reading.Tracks.start.run hs
    simpa [Formula.read, hs] using htracks.close_isSome_iff.mpr ⟨h.balanced, h.remaining⟩

/-- What the grammar derives is acceptable. -/
theorem Derivable.acceptable {w : List Symbol} (h : Derivable w) : Acceptable w := by
  obtain ⟨e, rfl⟩ := h
  rw [← Formula.read_isSome_iff, Formula.read_symbols]
  rfl

end SoftLogic
