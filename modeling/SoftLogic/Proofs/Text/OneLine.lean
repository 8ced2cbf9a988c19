import Mathlib.Tactic.IntervalCases
import Mathlib.Tactic.SplitIfs
import SoftLogic.Decimal.Places
import SoftLogic.Decimal.Shortest
import SoftLogic.Proofs.Text.Number
import SoftLogic.Text.Quoted

/-!
# Texts on one line

A text is on one line if none of its characters ends a line.  Numbers are written on one line, and so is any text
between quotes, as what ends a line cannot be printed and so is escaped.
-/

namespace SoftLogic

namespace Text

/-- No character of the text ends a line. -/
def OneLine (s : String) : Prop := ∀ c ∈ s.toList, isBoundary c = false

theorem oneLine_iff_any {s : String} : OneLine s ↔ s.toList.any isBoundary = false := by
  unfold OneLine
  simp

instance (s : String) : Decidable (OneLine s) := decidable_of_iff _ oneLine_iff_any.symm

@[simp] theorem oneLine_append {s t : String} : OneLine (s ++ t) ↔ OneLine s ∧ OneLine t := by
  simp [OneLine, or_imp, forall_and]

/-- A text is its own text. -/
@[simp] theorem oneLine_toString {s : String} : OneLine (toString s) ↔ OneLine s := .rfl

@[simp] theorem oneLine_ofList {cs : List Char} : OneLine (.ofList cs) ↔ ∀ c ∈ cs, isBoundary c = false := by
  rw [OneLine, String.toList_ofList]

/-- A text that stands in a definition, as its characters. -/
theorem oneLine_literal {cs : List Char} (h : cs.any isBoundary = false) : OneLine (.ofList cs) :=
  oneLine_ofList.mpr fun _ => eq_false_of_any h

@[simp] theorem oneLine_char {c : Char} : OneLine (toString c) ↔ isBoundary c = false := by
  show (∀ d ∈ (String.singleton c).toList, isBoundary d = false) ↔ _
  simp

/-! ### Numbers -/

theorem isBoundary_digitChar (d : Nat) : isBoundary (Nat.digitChar d) = false := by
  by_cases hd : d < 16
  · interval_cases d <;> decide
  · rw [Nat.digitChar_eq_star.mpr (Nat.le_of_not_lt hd)]
    decide

/-- Digits in any base do not end a line. -/
theorem isBoundary_of_mem_toDigits {b : Nat} (hb : 1 < b) (n : Nat) :
    ∀ c ∈ Nat.toDigits b n, isBoundary c = false := by
  induction n using Nat.strong_induction_on with
  | _ n ih =>
    intro c hc
    rw [Nat.toDigits_eq_if hb] at hc
    split at hc
    · rw [List.mem_singleton.mp hc]
      exact isBoundary_digitChar n
    · next hn =>
      rcases List.mem_append.mp hc with hc | hc
      · exact ih (n / b) (Nat.div_lt_self (by omega) hb) c hc
      · rw [List.mem_singleton.mp hc]
        exact isBoundary_digitChar (n % b)

theorem isBoundary_of_mem_padded {width : Nat} {digits : List Char} (h : ∀ c ∈ digits, isBoundary c = false) :
    ∀ c ∈ padded width digits, isBoundary c = false := by
  intro c hc
  rcases List.mem_append.mp hc with hc | hc
  · rw [List.eq_of_mem_replicate hc]
    decide
  · exact h c hc

@[simp] theorem oneLine_int (l : Int) : OneLine (toString l) := fun _ hc =>
  isBoundary_of_not_isBlank (isBlank_of_mem_decimal hc)

@[simp] theorem oneLine_nat (n : Nat) : OneLine (toString n) := oneLine_int n

theorem oneLine_writeError (e : WriteError) : OneLine e.message := by
  cases e
  unfold WriteError.message
  simp only [oneLine_append, oneLine_toString, oneLine_nat, and_true]
  and_intros <;> exact oneLine_literal rfl

/-! ### Decimal numbers -/

theorem isBoundary_of_mem_digitsOf {width n : Nat} : ∀ c ∈ Decimal.digitsOf width n, isBoundary c = false :=
  isBoundary_of_mem_padded (isBoundary_of_mem_toDigits (by decide) n)

theorem isBoundary_of_mem_mark {negative : Bool} : ∀ c ∈ Decimal.mark negative, isBoundary c = false := by
  cases negative <;> exact fun c => eq_false_of_any (by decide)

theorem isBoundary_of_mem_pointed {places : Nat} {digits : List Char} (h : ∀ c ∈ digits, isBoundary c = false) :
    ∀ c ∈ Decimal.pointed places digits, isBoundary c = false := by
  have hwhole : ∀ n, ∀ c ∈ digits.take n, isBoundary c = false := fun n c hc => h c (List.mem_of_mem_take hc)
  unfold Decimal.pointed
  split
  · exact hwhole _
  · exact List.forall_mem_append.mpr ⟨hwhole _, List.forall_mem_cons.mpr
      ⟨by decide, fun c hc => h c (List.mem_of_mem_drop hc)⟩⟩

theorem isBoundary_of_mem_exponentText {e : Int} : ∀ c ∈ Decimal.exponentText e, isBoundary c = false := by
  unfold Decimal.exponentText
  refine List.forall_mem_cons.mpr ⟨by decide, List.forall_mem_cons.mpr ⟨?_, isBoundary_of_mem_digitsOf⟩⟩
  split <;> decide

theorem isBoundary_of_mem_layout {digits : List Char} {e : Int} (h : ∀ c ∈ digits, isBoundary c = false) :
    ∀ c ∈ Decimal.layout digits e, isBoundary c = false := by
  have hzeros : ∀ n, ∀ c ∈ List.replicate n '0', isBoundary c = false := fun n c hc => by
    rw [List.eq_of_mem_replicate hc]
    decide
  unfold Decimal.layout
  split
  · refine List.forall_mem_append.mpr ⟨?_, isBoundary_of_mem_exponentText⟩
    split
    · exact h
    · exact isBoundary_of_mem_pointed h
  · split
    · exact List.forall_mem_append.mpr ⟨List.forall_mem_cons.mpr
        ⟨by decide, List.forall_mem_cons.mpr ⟨by decide, hzeros _⟩⟩, h⟩
    · dsimp only
      split
      · exact List.forall_mem_append.mpr
          ⟨List.forall_mem_append.mpr ⟨h, hzeros _⟩, fun c => eq_false_of_any (by decide)⟩
      · exact isBoundary_of_mem_pointed h

theorem oneLine_render {x : Float} {finite : Decimal.Binary → List Char}
    (h : ∀ b, ∀ c ∈ finite b, isBoundary c = false) : OneLine (Decimal.render x finite) := by
  unfold Decimal.render
  split
  · decide
  · exact oneLine_ofList.mpr (List.forall_mem_append.mpr ⟨isBoundary_of_mem_mark, fun c => eq_false_of_any (by decide)⟩)
  · exact oneLine_ofList.mpr (h _)

@[simp] theorem oneLine_fixed (places : Nat) (x : Float) : OneLine (Decimal.fixed places x) :=
  oneLine_render fun _ => List.forall_mem_append.mpr
    ⟨isBoundary_of_mem_mark, isBoundary_of_mem_pointed isBoundary_of_mem_digitsOf⟩

@[simp] theorem oneLine_shortest (x : Float) : OneLine (Decimal.shortest x) := by
  refine oneLine_render fun b => List.forall_mem_append.mpr ⟨isBoundary_of_mem_mark, ?_⟩
  split
  · exact fun c => eq_false_of_any (by decide)
  · refine isBoundary_of_mem_layout fun c hc => ?_
    have hmem := (List.dropWhile_sublist _).subset (List.mem_reverse.mp hc)
    exact isBoundary_of_mem_toDigits (by decide) _ c (List.mem_reverse.mp hmem)

/-! ### Quoted texts -/

/-- What ends a line cannot be printed. -/
theorem isPrintable_of_isBoundary {c : Char} (h : isBoundary c = true) : isPrintable c = false := by
  have hany : ∀ i (hi : i < unprintableRanges.size),
      unprintableRanges[i].1 ≤ c.toNat ∧ c.toNat ≤ unprintableRanges[i].2 → isPrintable c = false := by
    intro i hi hc
    unfold isPrintable
    rw [Bool.not_eq_false', Array.any_eq_true]
    exact ⟨i, hi, by simpa using hc⟩
  have hcases : (0x0a ≤ c.toNat ∧ c.toNat ≤ 0x1e) ∨ c.toNat = 0x85 ∨ (0x2028 ≤ c.toNat ∧ c.toNat ≤ 0x2029) := by
    simp only [isBoundary, Bool.or_eq_true, Bool.and_eq_true, decide_eq_true_eq, beq_iff_eq] at h
    omega
  rcases hcases with hc | hc | hc
  · exact hany 0 (by decide +kernel) ⟨by show 0 ≤ _; omega, by show _ ≤ 0x1f; omega⟩
  · exact hany 1 (by decide +kernel) ⟨by show 0x7f ≤ _; omega, by show _ ≤ 0xa0; omega⟩
  · exact hany 246 (by decide +kernel) ⟨by show 0x2028 ≤ _; omega, by show _ ≤ 0x202f; omega⟩

theorem isBoundary_of_mem_escape {quote c d : Char} (hquote : isBoundary quote = false) (hd : d ∈ escape quote c) :
    isBoundary d = false := by
  have hcons : ∀ {a : Char} {l : List Char}, isBoundary a = false → (∀ b ∈ l, isBoundary b = false) →
      ∀ b ∈ a :: l, isBoundary b = false := fun ha hl => List.forall_mem_cons.mpr ⟨ha, hl⟩
  have hnil : ∀ b ∈ ([] : List Char), isBoundary b = false := nofun
  have hhex : ∀ width, ∀ d ∈ hex width c.toNat, isBoundary d = false := fun width =>
    isBoundary_of_mem_padded (isBoundary_of_mem_toDigits (by decide) _)
  have hslash : isBoundary '\\' = false := by decide
  unfold escape at hd
  split_ifs at hd with hself hfeed hreturn htab hprintable
  · exact hcons hslash (hcons (hself.elim (fun h => h ▸ hquote) fun h => h ▸ hslash) hnil) d hd
  · exact hcons hslash (hcons (by decide) hnil) d hd
  · exact hcons hslash (hcons (by decide) hnil) d hd
  · exact hcons hslash (hcons (by decide) hnil) d hd
  · rw [List.mem_singleton.mp hd]
    by_contra hboundary
    rw [isPrintable_of_isBoundary (Bool.not_eq_false _ ▸ hboundary)] at hprintable
    cases hprintable
  · exact hcons hslash (hcons (by decide) (hhex 2)) d hd
  · exact hcons hslash (hcons (by decide) (hhex 4)) d hd
  · exact hcons hslash (hcons (by decide) (hhex 8)) d hd

theorem isBoundary_quoteFor (cs : List Char) : isBoundary (quoteFor cs) = false := by
  unfold quoteFor
  split <;> decide

@[simp] theorem oneLine_quoted (s : String) : OneLine (quoted s) := by
  have hquote := isBoundary_quoteFor s.toList
  show OneLine (.ofList _)
  rw [oneLine_ofList]
  intro c hc
  rcases List.mem_append.mp hc with hc | hc
  · rcases List.mem_cons.mp hc with rfl | hc
    · exact hquote
    · obtain ⟨d, -, hc⟩ := List.mem_flatMap.mp hc
      exact isBoundary_of_mem_escape hquote hc
  · rw [List.mem_singleton.mp hc]
    exact hquote

end Text

end SoftLogic
