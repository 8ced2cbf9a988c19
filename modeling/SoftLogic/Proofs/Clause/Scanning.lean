import SoftLogic.Clause.Token
import SoftLogic.Proofs.Text.Number

/-!
# Scanning what was written

`Token.Scans` says which symbols some characters stand for, wherever they stand in a clause.  It is put together
character by character from the right; a variable needs a look at what follows, since its digits go on as long as
there are any.
-/

namespace SoftLogic.Token

open Text

variable {declared : Int} {clause : String} {column : Nat} {chars ds : List Char} {tokens : List Token}
  {w : List Symbol} {c : Char} {s : Symbol}

/-! ### What one character can do -/

theorem scanFrom_separator (hdollar : c ≠ '$') (hc : sign? c = none) :
    scanFrom clause declared column (c :: chars) = scanFrom clause declared (column + 1) chars := by
  rw [scanFrom, if_neg hdollar, hc]

theorem scanFrom_sign_ok_iff (hc : sign? c = some s) : scanFrom clause declared column (c :: chars) = .ok tokens ↔
    ∃ rest, scanFrom clause declared (column + 1) chars = .ok rest ∧ tokens = ⟨s, column⟩ :: rest := by
  have hdollar : c ≠ '$' := by
    rintro rfl
    cases hc
  rw [scanFrom, if_neg hdollar, hc]
  cases scanFrom clause declared (column + 1) chars with
  | error e => simp [bind, Except.bind]
  | ok rest => simp [bind, Except.bind, pure, Except.pure, eq_comm (a := tokens)]

/-- A variable sign needs digits of a declared index, which are looked at again as separators. -/
theorem scanFrom_variable_ok_iff : scanFrom clause declared column ('$' :: chars) = .ok tokens ↔
    chars.takeWhile Char.isDigit ≠ [] ∧ (chars.takeWhile Char.isDigit).length ≤ maxDigits ∧
      (ofDigits (chars.takeWhile Char.isDigit) : Int) < declared ∧
      ∃ rest, scanFrom clause declared (column + 1) chars = .ok rest ∧
        tokens = ⟨.variable (ofDigits (chars.takeWhile Char.isDigit)), column⟩ :: rest := by
  rw [scanFrom, if_pos rfl]
  by_cases hnil : chars.takeWhile Char.isDigit = []
  · simp [hnil]
  by_cases hlong : maxDigits < (chars.takeWhile Char.isDigit).length
  · simp [hnil, hlong, Nat.not_le_of_lt hlong]
  by_cases hrange : declared ≤ ofDigits (chars.takeWhile Char.isDigit)
  · simp [hnil, hlong, hrange, Int.not_lt.mpr hrange]
  simp only [if_neg hnil, if_neg hlong, if_neg hrange]
  cases scanFrom clause declared (column + 1) chars with
  | error e => simp [bind, Except.bind]
  | ok rest =>
    simp [bind, Except.bind, pure, Except.pure, hnil, Nat.le_of_not_lt hlong, Int.not_le.mp hrange,
      eq_comm (a := tokens)]

/-! ### The symbols of some characters -/

/-- Wherever the characters stand in a clause, they are scanned as the symbols. -/
def Scans (declared : Int) (chars : List Char) (w : List Symbol) : Prop :=
  ∀ (clause : String) (column : Nat), ∃ tokens, scanFrom clause declared column chars = .ok tokens ∧
    tokens.map Token.symbol = w

theorem scans_nil : Scans declared [] [] := fun _ _ => ⟨[], rfl, rfl⟩

theorem Scans.sign (hc : sign? c = some s) (h : Scans declared chars w) : Scans declared (c :: chars) (s :: w) := by
  intro clause column
  obtain ⟨tokens, hscan, hsymbols⟩ := h clause (column + 1)
  exact ⟨⟨s, column⟩ :: tokens, (scanFrom_sign_ok_iff hc).mpr ⟨tokens, hscan, rfl⟩, by rw [List.map_cons, hsymbols]⟩

theorem Scans.separator (hdollar : c ≠ '$') (hc : sign? c = none) (h : Scans declared chars w) :
    Scans declared (c :: chars) w := by
  intro clause column
  rw [scanFrom_separator hdollar hc]
  exact h clause (column + 1)

theorem sign?_of_isDigit (hc : c.isDigit = true) : sign? c = none := by
  unfold sign?
  split <;> first | rfl | exact absurd hc (by decide)

/-- Digits that follow no variable sign are passed over. -/
theorem Scans.digits (hds : ∀ c ∈ ds, c.isDigit = true) (h : Scans declared chars w) :
    Scans declared (ds ++ chars) w := by
  induction ds with
  | nil => exact h
  | cons d ds ih =>
    have hd := hds d List.mem_cons_self
    have hdollar : d ≠ '$' := by
      rintro rfl
      exact absurd hd (by decide)
    exact (ih fun c hc => hds c (List.mem_cons_of_mem d hc)).separator hdollar (sign?_of_isDigit hd)

/-- The digits of a number end where no digit follows. -/
theorem takeWhile_digits (hds : ∀ c ∈ ds, c.isDigit = true) (hnext : ∀ c ∈ chars.head?, c.isDigit = false) :
    (ds ++ chars).takeWhile Char.isDigit = ds := by
  have hchars : chars.takeWhile Char.isDigit = [] := by
    cases chars with
    | nil => rfl
    | cons c chars => rw [List.takeWhile_cons, hnext c rfl, if_neg Bool.false_ne_true]
  rw [List.takeWhile_append_of_pos hds, hchars, List.append_nil]

/-- A variable is scanned from the digits of its index. -/
theorem Scans.variable {k : Nat} (hk : (k : Int) < declared) (hwidth : width k ≤ maxDigits)
    (hnext : ∀ c ∈ chars.head?, c.isDigit = false) (h : Scans declared chars w) :
    Scans declared ('$' :: (Nat.toDigits 10 k ++ chars)) (.variable k :: w) := by
  intro clause column
  obtain ⟨tokens, hscan, hsymbols⟩ := h.digits (isDigit_of_mem_toDigits (n := k)) clause (column + 1)
  refine ⟨⟨.variable k, column⟩ :: tokens, ?_, by rw [List.map_cons, hsymbols]⟩
  rw [scanFrom_variable_ok_iff, takeWhile_digits isDigit_of_mem_toDigits hnext, ofDigits_toDigits]
  exact ⟨Nat.toDigits_ne_nil, hwidth, hk, tokens, hscan, rfl⟩

/-- The index of a variable may have too many digits. -/
theorem scan_of_maxDigits_lt (hds : ∀ d ∈ ds, d.isDigit = true)
    (hlong : maxDigits < ds.length) (n : Int) :
    scan (.ofList ('$' :: ds)) n = .error (.longIndex ds.length) := by
  have hdigits : ds.takeWhile Char.isDigit = ds := by
    have hwhole := @takeWhile_digits [] ds hds nofun
    rwa [List.append_nil] at hwhole
  have hne : ds ≠ [] := by
    rintro rfl
    exact absurd hlong (Nat.not_lt_zero _)
  unfold scan
  rw [String.toList_ofList, scanFrom, if_pos rfl]
  simp only [hdigits]
  rw [if_neg hne, if_pos hlong]

/-- What is scanned at one place is scanned as the same symbols at any other one. -/
theorem scans_of_scanFrom (h : scanFrom clause declared column chars = .ok tokens) :
    Scans declared chars (tokens.map symbol) := by
  induction chars generalizing column tokens with
  | nil =>
    cases h
    exact scans_nil
  | cons c chars ih =>
    by_cases hc : c = '$'
    · subst hc
      obtain ⟨hne, hshort, hrange, rest, hrest, rfl⟩ := scanFrom_variable_ok_iff.mp h
      intro clause' column'
      obtain ⟨rest', hrest', hsymbols⟩ := ih hrest clause' (column' + 1)
      exact ⟨_, scanFrom_variable_ok_iff.mpr ⟨hne, hshort, hrange, rest', hrest', rfl⟩, by simp [hsymbols]⟩
    · cases hsign : sign? c with
      | none =>
        rw [scanFrom_separator hc hsign] at h
        exact (ih h).separator hc hsign
      | some s =>
        obtain ⟨rest, hrest, rfl⟩ := (scanFrom_sign_ok_iff hsign).mp h
        exact (ih hrest).sign hsign

end SoftLogic.Token
