import SoftLogic.Proofs.Clause.Scanning

/-!
# Which tokens stand where

A scan is told place by place.  `symbolAt?` says what the character at a place stands for, without regard to what a
scan has passed over: six characters have a meaning, and digits have one only as far as they go on behind a variable
sign.  A clause is scanned just if every variable sign names a declared variable, and then its tokens are those places
in order; otherwise the first sign that does not is to blame (`scan_by_places`).

From the other side, symbols may be spelled with any separators between them (`Piece`), and are scanned as what they
are.
-/

namespace SoftLogic.Token

open Text

/-- The digits behind a place, as far as they go on. -/
def digitsAt (chars : List Char) (i : Nat) : List Char := (chars.drop (i + 1)).takeWhile Char.isDigit

/-- What the character at a place stands for, if it has a meaning. -/
def symbolAt? (chars : List Char) (i : Nat) : Option Symbol :=
  chars[i]?.bind fun c => if c = '$' then some (.variable (ofDigits (digitsAt chars i))) else sign? c

/-- The digits name a declared variable. -/
structure Names (declared : Int) (digits : List Char) : Prop where
  nonempty : digits ≠ []
  short : digits.length ≤ maxDigits
  declared : (ofDigits digits : Int) < declared

/-- The error for a variable sign at a column, with digits behind it that name no declared variable. -/
inductive Offends (clause : String) (declared : Int) (column : Nat) (digits : List Char) : ClauseError → Prop
  | bare : digits = [] → Offends clause declared column digits (.malformed .bareSign (some column) clause)
  | long : maxDigits < digits.length → Offends clause declared column digits (.longIndex digits.length)
  | undeclared : digits ≠ [] → digits.length ≤ maxDigits → declared ≤ ofDigits digits →
    Offends clause declared column digits
      (refusalNaming declared (.undeclared (ofDigits digits) declared) .unwritten)

/-- The tokens are those of the characters, from a column on: in order, one for each place with a meaning. -/
structure Lists (column : Nat) (chars : List Char) (tokens : List Token) : Prop where
  ordered : tokens.Pairwise fun t u => t.column < u.column
  mem_iff : ∀ t, t ∈ tokens ↔ ∃ i, t.column = column + i ∧ symbolAt? chars i = some t.symbol

/-- The variable sign at place `i` is the first one that names no declared variable, and is to blame with `e`. -/
structure FirstOffence (clause : String) (declared : Int) (column : Nat) (chars : List Char) (i : Nat)
    (e : ClauseError) : Prop where
  sign : chars[i]? = some '$'
  offends : Offends clause declared (column + i) (digitsAt chars i) e
  first : ∀ j < i, chars[j]? = some '$' → Names declared (digitsAt chars j)

variable {clause : String} {declared : Int} {column i j : Nat} {c : Char} {chars digits : List Char}
  {e e' : ClauseError} {tokens : List Token} {w : List Symbol}

/-! ### Digits that offend -/

/-- Digits name a declared variable, or there is an error for them. -/
theorem names_or_offends (clause : String) (declared : Int) (column : Nat) (digits : List Char) :
    Names declared digits ∨ ∃ e, Offends clause declared column digits e := by
  by_cases hnil : digits = []
  · exact .inr ⟨_, .bare hnil⟩
  by_cases hlong : maxDigits < digits.length
  · exact .inr ⟨_, .long hlong⟩
  by_cases hrange : declared ≤ ofDigits digits
  · exact .inr ⟨_, .undeclared hnil (by omega) hrange⟩
  · exact .inl ⟨hnil, by omega, by omega⟩

theorem Offends.not_names (h : Offends clause declared column digits e) : ¬Names declared digits := by
  rintro ⟨hnil, hshort, hrange⟩
  cases h with
  | bare h => exact hnil h
  | long h => omega
  | undeclared _ _ h => omega

theorem Offends.unique (h : Offends clause declared column digits e) (h' : Offends clause declared column digits e') :
    e = e' := by
  cases h with
  | bare h =>
    cases h' with
    | bare _ => rfl
    | long h' => simp [h] at h'
    | undeclared h' _ _ => exact absurd h h'
  | long h =>
    cases h' with
    | bare h' => simp [h'] at h
    | long _ => rfl
    | undeclared _ h' _ => omega
  | undeclared hnil hshort _ =>
    cases h' with
    | bare h' => exact absurd h' hnil
    | long h' => omega
    | undeclared _ _ _ => rfl

theorem FirstOffence.unique (h : FirstOffence clause declared column chars i e)
    (h' : FirstOffence clause declared column chars j e') : e = e' := by
  obtain hij | rfl | hji := Nat.lt_trichotomy i j
  · exact absurd (h'.first i hij h.sign) h.offends.not_names
  · exact h.offends.unique h'.offends
  · exact absurd (h.first j hji h'.sign) h'.offends.not_names

/-! ### Scanning place by place -/

@[simp] theorem digitsAt_succ : digitsAt (c :: chars) (i + 1) = digitsAt chars i := rfl

@[simp] theorem symbolAt?_succ : symbolAt? (c :: chars) (i + 1) = symbolAt? chars i := by
  simp [symbolAt?]

theorem scanFrom_of_offends (h : Offends clause declared column (chars.takeWhile Char.isDigit) e) :
    scanFrom clause declared column ('$' :: chars) = .error e := by
  rw [scanFrom, if_pos rfl]
  cases h with
  | bare hnil => simp [hnil]
  | long hlong =>
    have hnil : chars.takeWhile Char.isDigit ≠ [] := by
      intro hnil
      simp [hnil] at hlong
    simp [hnil, hlong]
  | undeclared hnil hshort hrange => simp [hnil, Nat.not_lt.mpr hshort, hrange]

/-- A character that does not offend adds its token, if it has one. -/
theorem scanFrom_cons (h : c = '$' → Names declared (chars.takeWhile Char.isDigit)) :
    scanFrom clause declared column (c :: chars) = (scanFrom clause declared (column + 1) chars).map fun tokens =>
      ((symbolAt? (c :: chars) 0).map fun s => ⟨s, column⟩).toList ++ tokens := by
  by_cases hc : c = '$'
  · obtain ⟨hnil, hshort, hrange⟩ := h hc
    rw [scanFrom, if_pos hc]
    simp only [if_neg hnil, if_neg (Nat.not_lt.mpr hshort), if_neg (Int.not_le.mpr hrange), symbolAt?, hc]
    cases scanFrom clause declared (column + 1) chars <;> rfl
  · have hsymbol : symbolAt? (c :: chars) 0 = sign? c := by simp [symbolAt?, hc]
    rw [scanFrom, if_neg hc, hsymbol]
    cases sign? c with
    | none => cases scanFrom clause declared (column + 1) chars <;> rfl
    | some s => cases scanFrom clause declared (column + 1) chars <;> rfl

theorem lists_nil : Lists column [] [] := by
  refine ⟨.nil, fun t => ?_⟩
  simp [symbolAt?]

/-- In front of tokens the one of a further character, if it has one, is listed. -/
theorem Lists.cons (h : Lists (column + 1) chars tokens) :
    Lists column (c :: chars) (((symbolAt? (c :: chars) 0).map fun s => ⟨s, column⟩).toList ++ tokens) := by
  have hbehind : ∀ t ∈ tokens, column < t.column := by
    intro t ht
    obtain ⟨i, hi, -⟩ := (h.mem_iff t).mp ht
    omega
  constructor
  · refine List.pairwise_append.mpr ⟨?_, h.ordered, ?_⟩
    · cases symbolAt? (c :: chars) 0 <;> simp
    · intro t ht u hu
      obtain ⟨s, -, rfl⟩ := Option.map_eq_some_iff.mp (Option.mem_toList.mp ht)
      exact hbehind u hu
  · intro t
    rw [List.mem_append, h.mem_iff, Option.mem_toList, Option.map_eq_some_iff]
    constructor
    · rintro (⟨s, hs, rfl⟩ | ⟨i, hi, ht⟩)
      · exact ⟨0, rfl, hs⟩
      · exact ⟨i + 1, by omega, by rwa [symbolAt?_succ]⟩
    · rintro ⟨i, hi, ht⟩
      cases i with
      | zero => exact .inl ⟨t.symbol, ht, by rw [← Nat.add_zero column, ← hi]⟩
      | succ i => exact .inr ⟨i, by omega, by rwa [symbolAt?_succ] at ht⟩

/-- A scan gives the tokens of its characters, or the error of the first sign that offends. -/
theorem scanFrom_cases (clause : String) (declared : Int) (column : Nat) (chars : List Char) :
    (∃ tokens, scanFrom clause declared column chars = .ok tokens ∧ Lists column chars tokens ∧
      ∀ i, chars[i]? = some '$' → Names declared (digitsAt chars i)) ∨
    ∃ e i, scanFrom clause declared column chars = .error e ∧ FirstOffence clause declared column chars i e := by
  induction chars generalizing column with
  | nil => exact .inl ⟨[], rfl, lists_nil, by simp⟩
  | cons c chars ih =>
    by_cases hfine : c = '$' → Names declared (chars.takeWhile Char.isDigit)
    · -- the sign in front, if it is one, is no reason to stop
      have hfront : ∀ {P : Nat → Prop}, (∀ i, P (i + 1) → chars[i]? = some '$' → Names declared (digitsAt chars i)) →
          ∀ i, P i → (c :: chars)[i]? = some '$' → Names declared (digitsAt (c :: chars) i) := by
        intro P hchars i hi hsign
        cases i with
        | zero => exact hfine (Option.some.inj hsign)
        | succ i => exact hchars i hi hsign
      rw [scanFrom_cons hfine]
      rcases ih (column + 1) with ⟨tokens, hok, hlists, hnames⟩ | ⟨e, i, herror, hoffence⟩
      · refine .inl ⟨_, by rw [hok]; rfl, hlists.cons, fun i => ?_⟩
        exact hfront (P := fun _ => True) (fun i _ => hnames i) i trivial
      · refine .inr ⟨e, i + 1, by rw [herror]; rfl, hoffence.sign, ?_, ?_⟩
        · have hoffends := hoffence.offends
          rwa [Nat.add_assoc, Nat.add_comm 1 i] at hoffends
        · exact hfront (P := (· < i + 1)) fun j hj => hoffence.first j (by omega)
    · obtain ⟨rfl, hnames⟩ := Classical.not_imp.mp hfine
      obtain ⟨e, he⟩ := (names_or_offends clause declared column (chars.takeWhile Char.isDigit)).resolve_left hnames
      exact .inr ⟨e, 0, scanFrom_of_offends he, rfl, he, fun j hj => absurd hj (Nat.not_lt_zero j)⟩

/-! ### Spelling symbols -/

/-- The characters spell the symbol; a variable may have zeros in front of its index. -/
inductive Spells : Symbol → List Char → Prop
  | variable {digits : List Char} : digits ≠ [] → (∀ d ∈ digits, d.isDigit = true) →
    Spells (.variable (ofDigits digits)) ('$' :: digits)
  | sign {c : Char} {s : Symbol} : sign? c = some s → Spells s [c]

/-- None of the characters has a meaning. -/
def Separates (gap : List Char) : Prop := ∀ c ∈ gap, c ≠ '$' ∧ sign? c = none

/-- A symbol as it stands in a clause, with the separators behind it.  These do not begin with a digit where it would
go on with the index of a variable. -/
structure Piece where
  symbol : Symbol
  spelling : List Char
  gap : List Char
  spells : Spells symbol spelling
  separates : Separates gap
  ends : ∀ k, symbol = .variable k → ∀ c ∈ gap.head?, c.isDigit = false

/-- The characters of a symbol and of the separators behind it. -/
def Piece.text (p : Piece) : List Char := p.spelling ++ p.gap

/-- If the symbol is a variable, it is declared and has no more digits than are allowed behind its sign. -/
def Piece.Declared (p : Piece) (declared : Int) : Prop :=
  ∀ k, p.symbol = .variable k → (k : Int) < declared ∧ p.spelling.length ≤ maxDigits + 1

theorem Scans.gap {gap : List Char} (hgap : Separates gap) (h : Scans declared chars w) :
    Scans declared (gap ++ chars) w := by
  induction gap with
  | nil => exact h
  | cons c gap ih =>
    obtain ⟨hdollar, hsign⟩ := hgap c List.mem_cons_self
    exact (ih fun c hc => hgap c (List.mem_cons_of_mem _ hc)).separator hdollar hsign

/-- No symbol is spelled with a digit in front. -/
theorem Spells.isDigit_head? {s : Symbol} {spelling : List Char} (h : Spells s spelling) :
    ∃ c rest, spelling = c :: rest ∧ c.isDigit = false := by
  cases h with
  | «variable» _ _ => exact ⟨'$', _, rfl, by decide⟩
  | @sign c s hs =>
    refine ⟨c, [], rfl, Bool.eq_false_iff.mpr fun hdigit => ?_⟩
    rw [sign?_of_isDigit hdigit] at hs
    cases hs

theorem Scans.piece {p : Piece} (hp : p.Declared declared) (hnext : ∀ c ∈ chars.head?, c.isDigit = false)
    (h : Scans declared chars w) : Scans declared (p.text ++ chars) (p.symbol :: w) := by
  obtain ⟨symbol, spelling, gap, hspells, hgap, hends⟩ := p
  have hrest : Scans declared (gap ++ chars) w := h.gap hgap
  rw [Piece.text, List.append_assoc]
  cases hspells with
  | sign hs => exact hrest.sign hs
  | @«variable» digits hnil hdigits =>
    obtain ⟨hrange, hlength⟩ := hp _ rfl
    have hbehind : ∀ c ∈ (gap ++ chars).head?, c.isDigit = false := by
      cases gap with
      | nil => exact hnext
      | cons c gap => exact hends _ rfl
    intro clause column
    obtain ⟨tokens, hscan, hsymbols⟩ := hrest.digits hdigits clause (column + 1)
    refine ⟨⟨.variable (ofDigits digits), column⟩ :: tokens, ?_, by rw [List.map_cons, hsymbols]⟩
    rw [List.cons_append, scanFrom_variable_ok_iff, takeWhile_digits hdigits hbehind]
    exact ⟨hnil, Nat.le_of_succ_le_succ hlength, hrange, tokens, hscan, rfl⟩

/-- Symbols that are spelled one after the other are scanned as what they are. -/
theorem scans_pieces {pieces : List Piece} (hpieces : ∀ p ∈ pieces, p.Declared declared) :
    Scans declared (pieces.flatMap Piece.text) (pieces.map Piece.symbol) := by
  induction pieces with
  | nil => exact scans_nil
  | cons p pieces ih =>
    have hrest := ih fun q hq => hpieces q (List.mem_cons_of_mem _ hq)
    refine Scans.piece (hpieces p List.mem_cons_self) ?_ hrest
    cases pieces with
    | nil => simp
    | cons q pieces =>
      obtain ⟨c, rest, hspelling, hc⟩ := q.spells.isDigit_head?
      simp [Piece.text, hspelling, hc]

/-! ### Scanning a clause -/

/-- A clause is scanned if every variable sign in it is followed by the digits of a declared variable.  The result is in
order and has one token for each character with a meaning, at its column.  Otherwise the error is that of the first sign
that is not.  Symbols that are spelled with separators around them are scanned as what they are. -/
theorem scan_by_places (clause : String) (declared : Int) :
    ((∃ tokens, scan clause declared = .ok tokens) ↔
      ∀ i, clause.toList[i]? = some '$' → Names declared (digitsAt clause.toList i)) ∧
    (∀ tokens, scan clause declared = .ok tokens → Lists 0 clause.toList tokens) ∧
    (∀ e, scan clause declared = .error e ↔ ∃ i, FirstOffence clause declared 0 clause.toList i e) ∧
    ∀ (gap : List Char) (pieces : List Piece), Separates gap → (∀ p ∈ pieces, p.Declared declared) →
      clause.toList = gap ++ pieces.flatMap Piece.text →
      ∃ tokens, scan clause declared = .ok tokens ∧ tokens.map symbol = pieces.map Piece.symbol := by
  have hspelled : ∀ (gap : List Char) (pieces : List Piece), Separates gap → (∀ p ∈ pieces, p.Declared declared) →
      clause.toList = gap ++ pieces.flatMap Piece.text →
      ∃ tokens, scan clause declared = .ok tokens ∧ tokens.map symbol = pieces.map Piece.symbol := by
    intro gap pieces hgap hpieces hclause
    unfold scan
    rw [hclause]
    exact (scans_pieces hpieces).gap hgap clause 0
  rcases scanFrom_cases clause declared 0 clause.toList with ⟨tokens, hok, hlists, hnames⟩ | ⟨e, i, herror, hoffence⟩
  · have hok : scan clause declared = .ok tokens := hok
    refine ⟨⟨fun _ => hnames, fun _ => ⟨tokens, hok⟩⟩, ?_, ?_, hspelled⟩
    · intro tokens' hok'
      cases hok.symm.trans hok'
      exact hlists
    · intro e
      constructor
      · intro herror
        cases hok.symm.trans herror
      · rintro ⟨i, hi⟩
        exact absurd (hnames i hi.sign) hi.offends.not_names
  · have herror : scan clause declared = .error e := herror
    refine ⟨⟨?_, ?_⟩, ?_, ?_, hspelled⟩
    · rintro ⟨tokens, hok⟩
      cases hok.symm.trans herror
    · intro hnames
      exact absurd (hnames i hoffence.sign) hoffence.offends.not_names
    · intro tokens hok
      cases hok.symm.trans herror
    · intro e'
      constructor
      · intro herror'
        cases herror.symm.trans herror'
        exact ⟨i, hoffence⟩
      · rintro ⟨j, hj⟩
        rw [herror, hoffence.unique hj]

/-- Zero in front of an index and digits that follow no variable sign do not matter. -/
theorem scan_by_places_spelled : ∃ tokens, scan "7 $01v9~$0" 2 = .ok tokens ∧ Lists 0 "7 $01v9~$0".toList tokens ∧
    tokens.map symbol = [.variable 1, .connective .or, .not, .variable 0] := by
  obtain ⟨-, hlists, -, hspelled⟩ := scan_by_places "7 $01v9~$0" 2
  have hone : Spells (.variable 1) ['$', '0', '1'] := by
    have hspells := @Spells.variable ['0', '1'] (by decide) (by simp)
    rwa [show ofDigits ['0', '1'] = 1 by decide] at hspells
  have hzero : Spells (.variable 0) ['$', '0'] := by
    have hspells := @Spells.variable ['0'] (by decide) (by simp)
    rwa [show ofDigits ['0'] = 0 by decide] at hspells
  let pieces : List Piece := [
    ⟨.variable 1, ['$', '0', '1'], [], hone, nofun, fun _ _ => nofun⟩,
    ⟨.connective .or, ['v'], ['9'], .sign rfl, by simp [Separates, sign?], fun _ => nofun⟩,
    ⟨.not, ['~'], [], .sign rfl, nofun, fun _ => nofun⟩,
    ⟨.variable 0, ['$', '0'], [], hzero, nofun, fun _ _ => nofun⟩]
  have hdeclared : ∀ p ∈ pieces, p.Declared 2 := by
    simp [pieces, Piece.Declared, maxDigits]
  obtain ⟨tokens, hok, hsymbols⟩ := hspelled ['7', ' '] pieces (by simp [Separates, sign?]) hdeclared rfl
  exact ⟨tokens, hok, hlists tokens hok, hsymbols⟩

/-- A variable sign with 4301 zeros behind it names variable zero, which is declared, and still it is not scanned. -/
theorem scan_of_long_zero : (∀ d ∈ List.replicate 4301 '0', d.isDigit = true) ∧
    ofDigits (List.replicate 4301 '0') < 1 ∧
    scan (.ofList ('$' :: List.replicate 4301 '0')) 1 = .error (.longIndex 4301) := by
  have hlength : (List.replicate 4301 '0').length = 4301 := List.length_replicate
  have hdigits : ∀ d ∈ List.replicate 4301 '0', d.isDigit = true := fun d hd => by
    rw [List.eq_of_mem_replicate hd]
    rfl
  have hscan := scan_of_maxDigits_lt hdigits (by rw [hlength]; decide) 1
  rw [hlength] at hscan
  exact ⟨hdigits, by rw [ofDigits_zeros]; decide, hscan⟩

end SoftLogic.Token
