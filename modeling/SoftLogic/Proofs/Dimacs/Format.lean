import Mathlib.Data.List.Chain
import SoftLogic.Proofs.Dimacs
import SoftLogic.Proofs.Text.Pieces

/-!
# Which documents are read

The reader looks at the rows of a document only: its lines, stripped, without blank lines and comments, up to the
first one that starts with `%`.  A document is read exactly when its rows are a header and then rows of numbers that
are cut into clauses by zeros (`Dimacs.parse_ok_iff_formatted`).  Of the first word of the header only the first
character matters.
-/

namespace SoftLogic.Dimacs

variable {p p' : Progress} {n : Nat} {row : List Char} {body ls : List (List Char)} {h : Header}

/-- The row is neither blank nor a comment. -/
abbrev Counts (row : List Char) : Prop := row ≠ [] ∧ row.head? ≠ some 'c'

/-- The lines that the reader looks at, stripped. -/
def rows (lines : List (List Char)) : List (List Char) :=
  ((lines.map Text.strip).filter Counts).takeWhile (·.head? ≠ some '%')

theorem rows_nil : rows [] = [] := rfl

theorem rows_of_not_counts {line : List Char} (hline : ¬Counts (Text.strip line)) (lines : List (List Char)) :
    rows (line :: lines) = rows lines := by
  rw [rows, List.map_cons, List.filter_cons_of_neg (by simpa using hline), rows]

theorem rows_of_percent {line : List Char} (hline : (Text.strip line).head? = some '%') (lines : List (List Char)) :
    rows (line :: lines) = [] := by
  have hcounts : Counts (Text.strip line) := by
    refine ⟨fun hnil => ?_, by simp [hline]⟩
    rw [hnil] at hline
    cases hline
  rw [rows, List.map_cons, List.filter_cons_of_pos (by simpa using hcounts), List.takeWhile_cons,
    if_neg (by simp [hline])]

theorem rows_of_counts {line : List Char} (hline : Counts (Text.strip line))
    (hpercent : (Text.strip line).head? ≠ some '%') (lines : List (List Char)) :
    rows (line :: lines) = Text.strip line :: rows lines := by
  rw [rows, List.map_cons, List.filter_cons_of_pos (by simpa using hline), List.takeWhile_cons,
    if_pos (by simp [hpercent]), rows]

theorem counts_of_mem_rows {lines : List (List Char)} (hrow : row ∈ rows lines) : Counts row := by
  have hmem := (List.takeWhile_sublist _).subset hrow
  simpa using (List.mem_filter.mp hmem).2

/-- A row starts with the first character of its first word. -/
theorem head?_of_mem_rows {lines : List (List Char)} (hrow : row ∈ rows lines) :
    row.head? = (Text.words row).head?.bind List.head? := by
  have hmem := (List.takeWhile_sublist _).subset hrow
  obtain ⟨line, -, rfl⟩ := List.mem_map.mp (List.mem_filter.mp hmem).1
  rw [Text.head?_strip, Text.head?_dropWhile_isBlank, Text.words_strip]

/-! ### Taking rows -/

theorem takeLine_of_not_counts (hrow : ¬Counts row) (p : Progress) : takeLine p row = .ok p := by
  cases row with
  | nil => rfl
  | cons c rest =>
    obtain rfl : c = 'c' := by simpa [Counts] using hrow
    rfl

theorem takeLine_header (hp : p.header = none) (rest : List Char) :
    takeLine p ('p' :: rest) = (readHeader ('p' :: rest)).map fun h => { p with header := some h } := by
  simp only [takeLine, hp]
  cases readHeader ('p' :: rest) <;> rfl

theorem takeLine_second_header (hp : p.header = some h) (rest : List Char) :
    takeLine p ('p' :: rest) = .error .duplicateHeader := by
  simp only [takeLine, hp]

theorem takeLine_before_header (hp : p.header = none) (hcounts : Counts row) (hrow : row.head? ≠ some 'p') :
    takeLine p row = .error .clauseBeforeHeader := by
  unfold takeLine
  split <;> simp_all [Counts]

theorem takeLine_literals (hp : p.header = some h) (hcounts : Counts row) (hrow : row.head? ≠ some 'p') :
    takeLine p row = (Text.words row).foldlM (takeLiteral h.numVars) p := by
  unfold takeLine
  split <;> simp_all [Counts]

/-- Rows behind a header are taken as one sequence of words, as long as none is another header. -/
theorem foldlM_takeLine_ok_iff (hp : p.header = some h) (hbody : ∀ row ∈ body, Counts row) :
    body.foldlM takeLine p = .ok p' ↔ (∀ row ∈ body, row.head? ≠ some 'p') ∧
      (body.flatMap Text.words).foldlM (takeLiteral h.numVars) p = .ok p' := by
  induction body generalizing p with
  | nil => simp
  | cons row body ih =>
    have hcounts := hbody row List.mem_cons_self
    have hbody := fun row hrow => hbody row (List.mem_cons_of_mem _ hrow)
    rw [List.foldlM_cons, List.flatMap_cons, List.foldlM_append]
    by_cases hrow : row.head? = some 'p'
    · obtain ⟨rest, rfl⟩ := List.head?_eq_some_iff.mp hrow
      rw [takeLine_second_header hp]
      constructor
      · exact nofun
      · exact fun hnone => absurd hrow (hnone.1 _ List.mem_cons_self)
    · rw [takeLine_literals hp hcounts hrow]
      cases hwords : (Text.words row).foldlM (takeLiteral h.numVars) p with
      | error flaw =>
        constructor
        · exact nofun
        · exact fun hok => nomatch hok.2
      | ok p₁ =>
        refine (ih ((header_takeLiterals hwords).trans hp) hbody).trans ?_
        simp [hrow, bind, Except.bind]

/-- Going through lines is taking their rows, wherever it starts. -/
theorem takeLines_ok_iff {lines : List (List Char)} (count : Nat) :
    (∃ count', takeLines p count lines = .ok (p', count')) ↔ (rows lines).foldlM takeLine p = .ok p' := by
  induction lines generalizing p count with
  | nil =>
    rw [rows_nil]
    simp [takeLines, pure, Except.pure]
  | cons line lines ih =>
    by_cases hpercent : (Text.strip line).head? = some '%'
    · rw [rows_of_percent hpercent]
      simp [takeLines, hpercent, pure, Except.pure]
    · rw [takeLines]
      simp only [hpercent, if_false]
      by_cases hcounts : Counts (Text.strip line)
      · rw [rows_of_counts hcounts hpercent, List.foldlM_cons]
        cases takeLine p (Text.strip line) with
        | error flaw => simp [bind, Except.bind]
        | ok p₁ => exact ih _
      · rw [rows_of_not_counts hcounts, takeLine_of_not_counts hcounts]
        exact ih _

/-- Rows are taken from the start if the first of them is a header and the others are taken behind it. -/
theorem foldlM_start_ok_iff (hrow : row.head? = some 'p') : (row :: body).foldlM takeLine .start = .ok p ↔
    ∃ h, readHeader row = .ok h ∧ body.foldlM takeLine { Progress.start with header := some h } = .ok p := by
  obtain ⟨rest, rfl⟩ := List.head?_eq_some_iff.mp hrow
  rw [List.foldlM_cons, takeLine_header rfl]
  cases readHeader ('p' :: rest) with
  | error flaw => simp [Except.map, bind, Except.bind]
  | ok h => simp [Except.map, bind, Except.bind]

/-- A document is read if its rows are taken and end in a state with a header and without an open clause. -/
theorem parse_ok_iff_foldlM {text : String} {cnf : Cnf} : parse text = .ok cnf ↔
    ∃ p h, (rows (Text.lines text.toList)).foldlM takeLine .start = .ok p ∧ p.header = some h ∧ p.literals = [] ∧
      cnf = ⟨h.numVars, h.clauses, p.clauses.reverse⟩ := by
  unfold parse
  constructor
  · intro hparse
    cases hlines : takeLines .start 0 (Text.lines text.toList) with
    | error e =>
      rw [hlines] at hparse
      cases hparse
    | ok result =>
      obtain ⟨p, count⟩ := result
      rw [hlines] at hparse
      simp only [bind, Except.bind] at hparse
      cases hheader : p.header with
      | none =>
        rw [hheader] at hparse
        cases hparse
      | some h =>
        rw [hheader] at hparse
        by_cases hpending : p.literals = []
        · simp only [hpending, List.isEmpty_nil, if_true] at hparse
          cases hparse
          exact ⟨p, h, (takeLines_ok_iff 0).mp ⟨count, hlines⟩, hheader, hpending, rfl⟩
        · simp [hpending] at hparse
  · rintro ⟨p, h, hrows, hheader, hpending, rfl⟩
    obtain ⟨count, hlines⟩ := (takeLines_ok_iff 0).mpr hrows
    rw [hlines]
    simp [bind, Except.bind, hheader, hpending]

/-- What a document that is read consists of: a header, and rows whose words are taken as whole clauses. -/
theorem parse_ok_iff {text : String} {cnf : Cnf} : parse text = .ok cnf ↔
    ∃ header body h p, rows (Text.lines text.toList) = header :: body ∧ header.head? = some 'p' ∧
      readHeader header = .ok h ∧ (∀ row ∈ body, row.head? ≠ some 'p') ∧
      (body.flatMap Text.words).foldlM (takeLiteral h.numVars) { Progress.start with header := some h } = .ok p ∧
      p.literals = [] ∧ cnf = ⟨h.numVars, h.clauses, p.clauses.reverse⟩ := by
  have hcounts : ∀ row ∈ rows (Text.lines text.toList), Counts row := fun _ => counts_of_mem_rows
  rw [parse_ok_iff_foldlM]
  cases hrows : rows (Text.lines text.toList) with
  | nil =>
    constructor
    · rintro ⟨p, h, hok, hheader, -⟩
      cases hok
      cases hheader
    · rintro ⟨header, body, h, p, hcons, -⟩
      cases hcons
  | cons header body =>
    rw [hrows] at hcounts
    have hheader := hcounts header List.mem_cons_self
    have hbody := fun row hrow => hcounts row (List.mem_cons_of_mem header hrow)
    constructor
    · rintro ⟨p, h, hok, hh, hpending, rfl⟩
      have hp : header.head? = some 'p' := by
        by_contra hother
        rw [List.foldlM_cons, takeLine_before_header rfl hheader hother] at hok
        cases hok
      obtain ⟨h', hread, hok⟩ := (foldlM_start_ok_iff hp).mp hok
      obtain ⟨hnone, hwords⟩ := (foldlM_takeLine_ok_iff rfl hbody).mp hok
      obtain rfl : h' = h := Option.some.inj ((header_takeLiterals hwords).symm.trans hh)
      exact ⟨header, body, h', p, rfl, hp, hread, hnone, hwords, hpending, rfl⟩
    · rintro ⟨_, _, h, p, hcons, hp, hread, hnone, hwords, hpending, rfl⟩
      obtain ⟨rfl, rfl⟩ := List.cons.inj hcons
      refine ⟨p, h, (foldlM_start_ok_iff hp).mpr ⟨h, hread, ?_⟩, header_takeLiterals hwords, hpending, rfl⟩
      exact (foldlM_takeLine_ok_iff rfl hbody).mpr ⟨hnone, hwords⟩

/-! ### Numbers cut by zeros -/

/-- No zero opens the numbers or directly follows another zero, and the last number is a zero. -/
structure Terminated (xs : List Int) : Prop where
  opening : xs.head? ≠ some 0
  separate : xs.IsChain fun a b => ¬(a = 0 ∧ b = 0)
  closing : xs = [] ∨ xs.getLast? = some 0

/-- The words are integers, which are those of the list. -/
abbrev Reads (ws : List (List Char)) (xs : List Int) : Prop :=
  List.Forall₂ (fun w x => Text.readInt w = some x) ws xs

/-- As if there were a zero in front of the numbers. -/
theorem terminated_iff {xs : List Int} : Terminated xs ↔
    (0 :: xs).IsChain (fun a b => ¬(a = 0 ∧ b = 0)) ∧ (0 :: xs).getLast? = some 0 := by
  constructor
  · rintro ⟨hopening, hseparate, hclosing⟩
    refine ⟨List.isChain_cons.mpr ⟨?_, hseparate⟩, ?_⟩
    · rintro x hx ⟨-, rfl⟩
      exact hopening hx
    · rcases hclosing with rfl | hlast
      · rfl
      · rw [List.getLast?_cons, hlast]
        rfl
  · rintro ⟨hchain, hlast⟩
    obtain ⟨hopening, hseparate⟩ := List.isChain_cons.mp hchain
    refine ⟨fun hhead => hopening 0 hhead ⟨rfl, rfl⟩, hseparate, ?_⟩
    cases xs with
    | nil => exact .inl rfl
    | cons x xs => exact .inr (by simpa using hlast)

/-- Words are taken, and leave no clause open, if they are numbers of declared variables and zeros that each end a
clause; `prev` is the number in front of them, and zero where no clause is under way. -/
theorem takeLiterals_ok_iff {ws : List (List Char)} (prev : Int) (hprev : p.literals = [] ↔ prev = 0) :
    (∃ p', ws.foldlM (takeLiteral n) p = .ok p' ∧ p'.literals = []) ↔
      ∃ xs, Reads ws xs ∧ (∀ x ∈ xs, x.natAbs ≤ n) ∧
        (prev :: xs).IsChain (fun a b => ¬(a = 0 ∧ b = 0)) ∧ (prev :: xs).getLast? = some 0 := by
  induction ws generalizing p prev with
  | nil => simp [hprev, pure, Except.pure]
  | cons w ws ih =>
    constructor
    · rintro ⟨p', hok, hpending⟩
      rw [List.foldlM_cons] at hok
      cases hw : takeLiteral n p w with
      | error flaw =>
        rw [hw] at hok
        cases hok
      | ok p₁ =>
        rw [hw] at hok
        rcases takeLiteral_ok_iff.mp hw with ⟨hread, hopen, rfl⟩ | ⟨l, hread, hzero, hdeclared, rfl⟩
        · obtain ⟨xs, hreads, hbound, hchain, hlast⟩ := (ih 0 (by simp)).mp ⟨p', hok, hpending⟩
          refine ⟨0 :: xs, .cons hread hreads, ?_, ?_, by rwa [List.getLast?_cons_cons]⟩
          · simpa using hbound
          · exact List.isChain_cons_cons.mpr ⟨fun hboth => hopen (hprev.mpr hboth.1), hchain⟩
        · obtain ⟨xs, hreads, hbound, hchain, hlast⟩ := (ih l (by simpa using hzero)).mp ⟨p', hok, hpending⟩
          refine ⟨l :: xs, .cons hread hreads, ?_, ?_, by rwa [List.getLast?_cons_cons]⟩
          · simpa using ⟨hdeclared, hbound⟩
          · exact List.isChain_cons_cons.mpr ⟨fun hboth => hzero hboth.2, hchain⟩
    · rintro ⟨xs, hreads, hbound, hchain, hlast⟩
      cases hreads with
      | @cons _ x _ xs hread hreads =>
        obtain ⟨hseparate, hchain⟩ := List.isChain_cons_cons.mp hchain
        rw [List.getLast?_cons_cons] at hlast
        have hrest := fun x' hx' => hbound x' (List.mem_cons_of_mem x hx')
        rw [List.foldlM_cons]
        by_cases hzero : x = 0
        · subst hzero
          have hopen : p.literals ≠ [] := fun hnil => hseparate ⟨hprev.mp hnil, rfl⟩
          rw [takeLiteral_ok_iff.mpr (.inl ⟨hread, hopen, rfl⟩)]
          exact (ih 0 (by simp)).mpr ⟨xs, hreads, hrest, hchain, hlast⟩
        · rw [takeLiteral_ok_iff.mpr (.inr ⟨x, hread, hzero, hbound x List.mem_cons_self, rfl⟩)]
          exact (ih x (by simpa using hzero)).mpr ⟨xs, hreads, hrest, hchain, hlast⟩

/-! ### The format -/

/-- The row is a header with the given counts whose first word is `word`. -/
def HeaderRow (word : List Char) (h : Header) (row : List Char) : Prop :=
  ∃ vars clauses, Text.words row = [word, ['c', 'n', 'f'], vars, clauses] ∧
    Text.readInt vars = some (h.numVars : Int) ∧ Text.readInt clauses = some (h.clauses : Int)

/-- The rows hold integers of at most `n` variables and no header, and the zeros cut the integers into clauses. -/
def LiteralRows (n : Nat) (body : List (List Char)) : Prop :=
  (∀ row ∈ body, row.head? ≠ some 'p') ∧
    ∃ xs, Reads (body.flatMap Text.words) xs ∧ (∀ x ∈ xs, x.natAbs ≤ n) ∧ Terminated xs

/-- The rows are a header whose first word is `word` and rows of literals of the variables that it declares. -/
def Formatted (word : List Char) (rows : List (List Char)) : Prop :=
  ∃ header body h, rows = header :: body ∧ HeaderRow word h header ∧ LiteralRows h.numVars body

theorem readHeader_ok_iff : readHeader row = .ok h ↔ ∃ word, HeaderRow word h row := by
  constructor
  · intro hok
    unfold readHeader at hok
    split at hok
    · next word vars clauses hwords =>
      cases hvars : Text.readInt vars with
      | none =>
        rw [hvars] at hok
        cases hok
      | some v =>
        cases hclauses : Text.readInt clauses with
        | none =>
          rw [hvars, hclauses] at hok
          cases hok
        | some c =>
          rw [hvars, hclauses] at hok
          simp only at hok
          split at hok
          · cases hok
          · cases hok
            refine ⟨word, vars, clauses, hwords, ?_, ?_⟩
            · rw [hvars, Int.toNat_of_nonneg (by omega)]
            · rw [hclauses, Int.toNat_of_nonneg (by omega)]
    · cases hok
  · rintro ⟨word, vars, clauses, hwords, hvars, hclauses⟩
    have hnonneg : ¬((h.numVars : Int) < 0 ∨ (h.clauses : Int) < 0) := by omega
    simp [readHeader, hwords, hvars, hclauses, hnonneg]

/-- A document is read exactly if its rows are of this format, where any word that starts with `p` may open the
header. -/
theorem parse_ok_iff_formatted (text : String) : (∃ cnf, parse text = .ok cnf) ↔
    ∃ word, word.head? = some 'p' ∧ Formatted word (rows (Text.lines text.toList)) := by
  have hword : ∀ {header body word h}, rows (Text.lines text.toList) = header :: body → HeaderRow word h header →
      header.head? = word.head? := by
    rintro header body word h hrows ⟨_, _, hwords, -⟩
    rw [head?_of_mem_rows (hrows ▸ List.mem_cons_self), hwords]
    rfl
  constructor
  · rintro ⟨cnf, hparse⟩
    obtain ⟨header, body, h, p, hrows, hp, hread, hnone, hwords, hpending, -⟩ := parse_ok_iff.mp hparse
    obtain ⟨word, hheader⟩ := readHeader_ok_iff.mp hread
    obtain ⟨xs, hreads, hbound, hcut⟩ := (takeLiterals_ok_iff 0 (by simp [Progress.start])).mp ⟨p, hwords, hpending⟩
    exact ⟨word, (hword hrows hheader).symm.trans hp, header, body, h, hrows, hheader, hnone, xs, hreads, hbound,
      terminated_iff.mpr hcut⟩
  · rintro ⟨word, hp, header, body, h, hrows, hheader, hnone, xs, hreads, hbound, hcut⟩
    obtain ⟨p, hwords, hpending⟩ := (takeLiterals_ok_iff (p := { Progress.start with header := some h }) 0
      (by simp [Progress.start])).mpr ⟨xs, hreads, hbound, terminated_iff.mp hcut⟩
    exact ⟨_, parse_ok_iff.mpr ⟨header, body, h, p, hrows, (hword hrows hheader).trans hp,
      readHeader_ok_iff.mpr ⟨word, hheader⟩, hnone, hwords, hpending, rfl⟩⟩

/-- This is read, though the first word of its header is not `p`. -/
theorem parse_of_longer_header_word : parse "pp cnf 1 1\n1 0\n" = .ok ⟨1, 1, [[1]]⟩ ∧
    ¬Formatted ['p'] (rows (Text.lines "pp cnf 1 1\n1 0\n".toList)) := by
  refine ⟨by decide, ?_⟩
  have hrows : rows (Text.lines "pp cnf 1 1\n1 0\n".toList) = ["pp cnf 1 1".toList, "1 0".toList] := by decide
  rintro ⟨header, body, h, hcons, ⟨vars, clauses, hwords, -⟩, -⟩
  obtain ⟨rfl, -⟩ := List.cons.inj (hrows.symm.trans hcons)
  exact absurd hwords (by simp [Text.words, Text.isBlank])

end SoftLogic.Dimacs
