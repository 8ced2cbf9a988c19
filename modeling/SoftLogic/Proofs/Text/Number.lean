import SoftLogic.Proofs.Text.Pieces
import SoftLogic.Text.Integer

/-!
# The digits of a number

A number is written with the digits of `Nat.toDigits 10`, and reading these gives it back.  A number that was
read, with zeros in front, underscores or digits of other scripts, is written with no more digits than it was read
from, so what was short enough to be read is short enough to be written and read again (`width_of_readInt`).  An
integer in decimal notation is read back, unless it has more digits than are allowed (`readInt_decimal`), and then it
is not written at all (`writeInt_of_long`).
-/

namespace SoftLogic.Text

theorem ofDigits_toDigits (n : Nat) : ofDigits (Nat.toDigits 10 n) = n := Nat.ofDigitChars_ten_toDigits

/-- Zero may be written with any number of digits. -/
theorem ofDigits_zeros (count : Nat) : ofDigits (List.replicate count '0') = 0 := by
  induction count with
  | zero => rfl
  | succ count ih => exact ih

theorem isDigit_of_mem_toDigits {n : Nat} : ∀ c ∈ Nat.toDigits 10 n, c.isDigit = true :=
  fun _ hc => Nat.isDigit_of_mem_toDigits (by decide) (by decide) hc

theorem width_of_lt_ten {d : Nat} (h : d < 10) : width d = 1 := by
  rw [width, Nat.toDigits_of_lt_base h]
  rfl

theorem width_pos (n : Nat) : 0 < width n := Nat.length_toDigits_pos

theorem width_mono {m n : Nat} (h : m ≤ n) : width m ≤ width n := by
  have hn := (Nat.length_toDigits_le_iff (b := 10) (by decide) (width_pos n)).mp (Nat.le_refl (width n))
  exact (Nat.length_toDigits_le_iff (by decide) (width_pos n)).mpr (Nat.lt_of_le_of_lt h hn)

/-- A power of ten has one digit more than its exponent says. -/
theorem lt_width_pow (k : Nat) : k < width (Nat.pow 10 k) := by
  refine Nat.lt_of_not_le fun hle => ?_
  have hk : 0 < k := Nat.lt_of_lt_of_le (width_pos _) hle
  exact Nat.lt_irrefl _ ((Nat.length_toDigits_le_iff (by decide) hk).mp hle)

/-- One more digit is written with at most one more digit. -/
theorem width_push (n : Nat) {d : Nat} (hd : d < 10) : width (10 * n + d) ≤ width n + 1 := by
  by_cases hn : 0 < n
  · have happend := congrArg List.length (Nat.toDigits_append_toDigits (b := 10) (by decide) hn hd)
    rw [List.length_append, Nat.toDigits_of_lt_base hd] at happend
    exact Nat.le_of_eq happend.symm
  · obtain rfl : n = 0 := by omega
    rw [Nat.mul_zero, Nat.zero_add, width_of_lt_ten hd]
    omega

/-! ### Numbers that were read -/

/-- How many characters of a number count as digits. -/
def digitCount (cs : List Char) : Nat := (cs.filter (· ≠ '_')).length

theorem digitCount_underscore (cs : List Char) : digitCount ('_' :: cs) = digitCount cs := by
  simp [digitCount]

theorem digitCount_digit {c : Char} {d : Nat} (h : digit? c = some d) (cs : List Char) :
    digitCount (c :: cs) = digitCount cs + 1 := by
  have hc : c ≠ '_' := by
    rintro rfl
    rw [show digit? '_' = none by decide] at h
    cases h
  simp [digitCount, hc]

theorem width_of_readDigits {n m : Nat} {cs : List Char} (h : readDigits n cs = some m) :
    width m ≤ width n + digitCount cs := by
  induction n, cs using readDigits.induct with
  | case1 n =>
    cases h
    exact Nat.le_refl _
  | case2 n c rest ih =>
    rw [readDigits] at h
    obtain ⟨d, hd, h⟩ := Option.bind_eq_some_iff.mp h
    have hpush := width_push n (digit?_lt hd)
    have hrest := ih d h
    rw [digitCount_underscore, digitCount_digit hd]
    omega
  | case3 n c rest hunderscore ih =>
    rw [readDigits] at h
    · obtain ⟨d, hd, h⟩ := Option.bind_eq_some_iff.mp h
      have hpush := width_push n (digit?_lt hd)
      have hrest := ih d h
      rw [digitCount_digit hd]
      omega
    · exact hunderscore

theorem width_of_readNat {cs : List Char} {n : Nat} (h : readNat cs = some n) : width n ≤ maxDigits := by
  match cs with
  | [] => cases h
  | c :: rest =>
    rw [readNat] at h
    split at h
    · cases h
    · next hlong =>
      obtain ⟨d, hd, h⟩ := Option.bind_eq_some_iff.mp h
      have hcount : digitCount (c :: rest) ≤ maxDigits := by simpa [isTooLong, digitCount] using hlong
      have hwidth := width_of_readDigits h
      rw [digitCount_digit hd] at hcount
      rw [width_of_lt_ten (digit?_lt hd)] at hwidth
      omega

/-- An integer that was read is written with no more digits than are allowed. -/
theorem width_of_readInt {cs : List Char} {l : Int} (h : readInt cs = some l) : width l.natAbs ≤ maxDigits := by
  have hread : ∀ {cs : List Char} {n : Int}, (do return ((← readNat cs : Nat) : Int)) = some n →
      width n.natAbs ≤ maxDigits := by
    intro cs n hn
    obtain ⟨m, hm, hpure⟩ := Option.bind_eq_some_iff.mp hn
    cases hpure
    exact width_of_readNat hm
  unfold readInt at h
  split at h <;> obtain ⟨n, hn, rfl⟩ := Option.map_eq_some_iff.mp h
  · rw [Int.natAbs_neg]
    exact hread hn
  · exact hread hn
  · exact hread hn

/-! ### Numbers that were written -/

/-- An integer in decimal notation. -/
def decimal (l : Int) : List Char := (toString l).toList

theorem writeInt_of_short {l : Int} (h : width l.natAbs ≤ maxDigits) : writeInt l = .ok (toString l) :=
  if_neg (Nat.not_lt_of_le h)

theorem writeInt_of_long {l : Int} (h : maxDigits < width l.natAbs) : writeInt l = .error .tooLong := if_pos h

section RefusalNaming

variable {ε : Type} {l : Int}

/-- An integer that can be written is named. -/
theorem refusalNaming_of_short (h : width l.natAbs ≤ maxDigits) (refusal : ε) (unwritten : WriteError → ε) :
    refusalNaming l refusal unwritten = refusal := by
  rw [refusalNaming, writeInt_of_short h]

theorem refusalNaming_of_long (h : maxDigits < width l.natAbs) (refusal : ε) (unwritten : WriteError → ε) :
    refusalNaming l refusal unwritten = unwritten .tooLong := by
  rw [refusalNaming, writeInt_of_long h]

/-- What holds of both refusals holds of the one that is made. -/
theorem refusalNaming_all {P : ε → Prop} {refusal : ε} {unwritten : WriteError → ε} (h : P refusal)
    (hunwritten : ∀ e, P (unwritten e)) : P (refusalNaming l refusal unwritten) := by
  unfold refusalNaming
  split
  · exact h
  · exact hunwritten _

end RefusalNaming

theorem decimal_eq (l : Int) : decimal l = (if l < 0 then ['-'] else []) ++ Nat.toDigits 10 l.natAbs := by
  unfold decimal
  rw [Int.toString_eq_repr, Int.repr_eq_if]
  by_cases h : 0 ≤ l
  · rw [if_pos h, if_neg (Int.not_lt.mpr h), Nat.toList_repr, List.nil_append]
    congr 1
    omega
  · rw [if_neg h, if_pos (Int.not_le.mp h), String.toList_append, Nat.toList_repr]
    congr 2
    omega

theorem digit?_of_isDigit {c : Char} (h : c.isDigit = true) : digit? c = some (c.toNat - '0'.toNat) := by
  have hrange : 0x30 ≤ c.toNat ∧ c.toNat < 0x30 + 10 := by
    simpa [Char.isDigit, UInt32.le_iff_toNat_le, Nat.lt_succ_iff] using h
  unfold digit? digitStarts
  rw [List.findSome?_cons, if_pos hrange]
  rfl

theorem readDigits_of_isDigit {cs : List Char} (h : ∀ c ∈ cs, c.isDigit = true) (n : Nat) :
    readDigits n cs = some (cs.foldl (fun n c => 10 * n + (c.toNat - '0'.toNat)) n) := by
  induction cs generalizing n with
  | nil => rfl
  | cons c cs ih =>
    have hc := h c List.mem_cons_self
    have hunderscore : c ≠ '_' := by
      rintro rfl
      cases hc
    rw [readDigits, digit?_of_isDigit hc]
    · exact ih (fun d hd => h d (List.mem_cons_of_mem c hd)) _
    · rintro _ _ rfl
      exact absurd rfl hunderscore

theorem readNat_of_isDigit {cs : List Char} (hdigits : ∀ c ∈ cs, c.isDigit = true) (hnil : cs ≠ []) :
    readNat cs = if maxDigits < cs.length then none else some (ofDigits cs) := by
  have hlong : isTooLong cs = decide (maxDigits < cs.length) := by
    have hfilter : cs.filter (· ≠ '_') = cs := by
      refine List.filter_eq_self.mpr fun c hc => ?_
      have := hdigits c hc
      simp
      rintro rfl
      cases this
    rw [isTooLong, hfilter]
  cases cs with
  | nil => exact absurd rfl hnil
  | cons c cs =>
    rw [readNat, hlong]
    by_cases h : maxDigits < (c :: cs).length
    · simp only [h, decide_true, if_true]
    · simp only [h, decide_false, if_false, Bool.false_eq_true]
      rw [digit?_of_isDigit (hdigits c List.mem_cons_self)]
      show readDigits _ cs = _
      rw [readDigits_of_isDigit fun d hd => hdigits d (List.mem_cons_of_mem c hd)]
      rw [ofDigits, List.foldl_cons, Nat.mul_zero, Nat.zero_add]

theorem readNat_toDigits (k : Nat) : readNat (Nat.toDigits 10 k) = if maxDigits < width k then none else some k := by
  rw [readNat_of_isDigit isDigit_of_mem_toDigits Nat.toDigits_ne_nil, ofDigits_toDigits]
  rfl

/-- What no more digits than are allowed denote is short, whatever zeros are in front. -/
theorem width_ofDigits {digits : List Char} (hdigits : ∀ d ∈ digits, d.isDigit = true) (hnil : digits ≠ [])
    (hshort : digits.length ≤ maxDigits) : width (ofDigits digits) ≤ maxDigits := by
  have hread : readNat digits = some (ofDigits digits) := by
    rw [readNat_of_isDigit hdigits hnil, if_neg (Nat.not_lt_of_le hshort)]
  exact width_of_readNat hread

/-- A character of a number is a digit or a minus sign. -/
theorem mem_decimal {l : Int} {c : Char} (h : c ∈ decimal l) : c = '-' ∨ c.isDigit = true := by
  rw [decimal_eq] at h
  rcases List.mem_append.mp h with h | h
  · split at h
    · exact .inl (List.mem_singleton.mp h)
    · cases h
  · exact .inr (isDigit_of_mem_toDigits c h)

theorem isBlank_of_mem_decimal {l : Int} {c : Char} (h : c ∈ decimal l) : isBlank c = false := by
  rcases mem_decimal h with rfl | hc
  · decide
  · have hrange : 0x30 ≤ c.toNat ∧ c.toNat ≤ 0x39 := by simpa [Char.isDigit, UInt32.le_iff_toNat_le] using hc
    simp [isBlank]
    omega

theorem decimal_ne_nil (l : Int) : decimal l ≠ [] := by
  rw [decimal_eq]
  exact fun h => Nat.toDigits_ne_nil (List.append_eq_nil_iff.mp h).2

theorem readInt_minus (cs : List Char) (h : trim isPadding ('-' :: cs) = '-' :: cs) :
    readInt ('-' :: cs) = (readNat cs).map fun n : Nat => -(n : Int) := by
  simp only [readInt, h]
  cases readNat cs <;> rfl

theorem readInt_of_isDigit {cs : List Char} (hdigits : ∀ c ∈ cs, c.isDigit = true) (h : trim isPadding cs = cs) :
    readInt cs = (readNat cs).map fun n : Nat => (n : Int) := by
  have hsign : ∀ c rest, c.isDigit = false → cs ≠ c :: rest := by
    rintro c rest hc rfl
    rw [hdigits c List.mem_cons_self] at hc
    cases hc
  rw [readInt, h]
  split
  · next rest => exact absurd rfl (hsign '-' rest rfl)
  · next rest => exact absurd rfl (hsign '+' rest rfl)
  · cases readNat cs <;> rfl

/-- A number that was written is read, unless it has too many digits. -/
theorem readInt_decimal (l : Int) : readInt (decimal l) = if maxDigits < width l.natAbs then none else some l := by
  have hpadding : ∀ c ∈ decimal l, isPadding c = false := fun c hc => by
    simp [isPadding, isBlank_of_mem_decimal hc]
  have htrim : trim isPadding (decimal l) = decimal l :=
    trim_eq_self (fun c hc => hpadding c (List.mem_of_mem_head? hc)) fun c hc => hpadding c (List.mem_of_getLast? hc)
  rw [decimal_eq] at htrim ⊢
  by_cases hneg : l < 0
  · rw [if_pos hneg] at htrim ⊢
    rw [List.singleton_append] at htrim ⊢
    rw [readInt_minus _ htrim, readNat_toDigits]
    split
    · rfl
    · rw [Option.map_some]
      congr 1
      omega
  · rw [if_neg hneg, List.nil_append] at htrim ⊢
    rw [readInt_of_isDigit isDigit_of_mem_toDigits htrim, readNat_toDigits]
    split
    · rfl
    · rw [Option.map_some]
      congr 1
      omega

end SoftLogic.Text
