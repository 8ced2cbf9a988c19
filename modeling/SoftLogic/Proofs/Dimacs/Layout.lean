import Mathlib.Data.List.TakeWhile
import SoftLogic.Proofs.Cnf
import SoftLogic.Proofs.Dimacs.Format

/-!
# Documents in every layout

A document may have comments and blank lines between any two lines, break its clauses into lines anywhere between two
numbers, put any blanks there, and go on behind a line that starts with `%`.  However clauses are laid out, they are
read back from the document as they are (`Dimacs.parse_layout`).
-/

namespace SoftLogic.Dimacs

open Text (pieces isBlank decimal width maxDigits)

variable {n m : Nat} {l : Int} {clause : List Int} {clauses : List (List Int)} {p : Progress}
  {line header : List Char} {before body rest ls : List (List Char)}

/-- The first character of a line that is not blank. -/
def leading (line : List Char) : Option Char := line.find? (!isBlank ·)

/-- The tokens of clauses: the numbers of each one in decimal notation, and a zero behind them. -/
def clauseTokens (clauses : List (List Int)) : List (List Char) :=
  clauses.flatMap fun clause => clause.map decimal ++ [['0']]

/-- Lines that render clauses over `n` variables, of which `m` are announced: the header between comments and blank
lines, then the tokens of the clauses on any number of lines between comments and blank lines.  If a line starts with
`%`, then any lines may come after it. -/
def Layout (n m : Nat) (clauses : List (List Int)) (lines : List (List Char)) : Prop :=
  ∃ before header body rest, lines = before ++ header :: (body ++ rest) ∧
    (∀ line ∈ before, leading line = none ∨ leading line = some 'c') ∧
    pieces isBlank header = [['p'], ['c', 'n', 'f'], decimal n, decimal m] ∧
    (body.filter (leading · ≠ some 'c')).flatMap (pieces isBlank) = clauseTokens clauses ∧
    ∀ line ∈ rest.head?, leading line = some '%'

/-! ### Rows of a layout -/

theorem leading_eq_head? (line : List Char) : leading line = (line.dropWhile isBlank).head? :=
  List.find?_not_eq_head?_dropWhile _ _

theorem head?_strip_eq_leading (line : List Char) : (Text.strip line).head? = leading line := by
  rw [Text.head?_strip, leading_eq_head?]

theorem leading_eq_bind (line : List Char) : leading line = (pieces isBlank line).head?.bind List.head? := by
  rw [leading_eq_head?, Text.head?_dropWhile_isBlank, Text.words_eq_pieces]

theorem counts_strip_iff : Counts (Text.strip line) ↔ leading line ≠ none ∧ leading line ≠ some 'c' := by
  rw [← head?_strip_eq_leading]
  simp [Counts]

theorem rows_header (hp : leading header = some 'p') (ls : List (List Char)) :
    rows (header :: ls) = Text.strip header :: rows ls :=
  rows_of_counts (counts_strip_iff.mpr (by simp [hp])) (by simp [head?_strip_eq_leading, hp]) ls

/-- Empty lines are never looked at. -/
theorem rows_filter_ne_nil (ls : List (List Char)) : rows (ls.filter (· ≠ [])) = rows ls := by
  have hne : ∀ line, Counts (Text.strip line) → line ≠ [] := by
    rintro _ ⟨hstrip, -⟩ rfl
    exact hstrip rfl
  unfold rows
  rw [List.filter_map, List.filter_map, List.filter_filter]
  congr 2
  refine List.filter_congr fun line _ => ?_
  simpa using hne line

/-- The lines of a text and the stretches between its boundaries have the same rows. -/
theorem rows_lines (cs : List Char) : rows (Text.lines cs) = rows (cs.splitOnP Text.isBoundary) := by
  rw [← rows_filter_ne_nil, Text.lines_eq_pieces, pieces, rows_filter_ne_nil]

theorem rows_append_of_ignored (h : ∀ line ∈ before, leading line = none ∨ leading line = some 'c')
    (ls : List (List Char)) : rows (before ++ ls) = rows ls := by
  induction before with
  | nil => rfl
  | cons line before ih =>
    have hline : ¬Counts (Text.strip line) := by
      rw [counts_strip_iff]
      rcases h line List.mem_cons_self with hline | hline <;> simp [hline]
    rw [List.cons_append, rows_of_not_counts hline, ih fun line' hline' => h line' (List.mem_cons_of_mem line hline')]

/-- Where no line starts with `%`, all lines up to one that does are looked at. -/
theorem rows_append_of_percent (hbody : ∀ line ∈ body, leading line ≠ some '%')
    (hrest : ∀ line ∈ rest.head?, leading line = some '%') :
    rows (body ++ rest) = (body.map Text.strip).filter Counts := by
  induction body with
  | nil =>
    cases rest with
    | nil => rfl
    | cons line rest => exact rows_of_percent ((head?_strip_eq_leading line).trans (hrest line rfl)) rest
  | cons line body ih =>
    have ih := ih fun line' hline' => hbody line' (List.mem_cons_of_mem line hline')
    have hpercent : (Text.strip line).head? ≠ some '%' := by
      rw [head?_strip_eq_leading]
      exact hbody line List.mem_cons_self
    rw [List.cons_append, List.map_cons]
    by_cases hcounts : Counts (Text.strip line)
    · rw [rows_of_counts hcounts hpercent, List.filter_cons_of_pos (by simpa using hcounts), ih]
    · rw [rows_of_not_counts hcounts, List.filter_cons_of_neg (by simpa using hcounts), ih]

/-- Rows have the tokens of the lines that are no comments. -/
theorem flatMap_words_filter_counts (body : List (List Char)) :
    ((body.map Text.strip).filter Counts).flatMap Text.words =
      (body.filter (leading · ≠ some 'c')).flatMap (pieces isBlank) := by
  induction body with
  | nil => rfl
  | cons line body ih =>
    rw [List.map_cons]
    by_cases hcounts : Counts (Text.strip line)
    · have hcomment := (counts_strip_iff.mp hcounts).2
      rw [List.filter_cons_of_pos (by simpa using hcounts), List.filter_cons_of_pos (by simpa using hcomment),
        List.flatMap_cons, List.flatMap_cons, ih, Text.words_strip, Text.words_eq_pieces]
    · rw [List.filter_cons_of_neg (by simpa using hcounts), ih]
      by_cases hcomment : leading line = some 'c'
      · rw [List.filter_cons_of_neg (by simpa using hcomment)]
      · -- the line is blank, so it has no token
        have hblank : leading line = none := by
          by_contra hsome
          exact hcounts (counts_strip_iff.mpr ⟨hsome, hcomment⟩)
        rw [List.filter_cons_of_pos (by simpa using hcomment), List.flatMap_cons]
        have hnone : pieces isBlank line = [] := Text.pieces_of_forall (by simpa [leading] using hblank)
        rw [hnone, List.nil_append]

/-! ### Tokens of clauses -/

/-- Tokens of clauses start with a digit or a minus sign. -/
theorem head?_of_mem_clauseTokens {w : List Char} (hw : w ∈ clauseTokens clauses) :
    ∃ c, w.head? = some c ∧ (c = '-' ∨ c.isDigit = true) := by
  obtain ⟨clause, -, hw⟩ := List.mem_flatMap.mp hw
  rcases List.mem_append.mp hw with hw | hw
  · obtain ⟨l, -, rfl⟩ := List.mem_map.mp hw
    obtain ⟨c, cs, hl⟩ := List.exists_cons_of_ne_nil (Text.decimal_ne_nil l)
    exact ⟨c, by rw [hl]; rfl, Text.mem_decimal (hl ▸ List.mem_cons_self)⟩
  · obtain rfl := List.mem_singleton.mp hw
    exact ⟨'0', rfl, .inr rfl⟩

/-- So no line that holds them is a header or ends the document. -/
theorem leading_of_mem_body
    (htokens : (body.filter (leading · ≠ some 'c')).flatMap (pieces isBlank) = clauseTokens clauses)
    (hline : line ∈ body) : leading line ≠ some 'p' ∧ leading line ≠ some '%' := by
  by_cases hcomment : leading line = some 'c'
  · simp [hcomment]
  · cases hwords : pieces isBlank line with
    | nil => simp [leading_eq_bind, hwords]
    | cons w ws =>
      have hw : w ∈ clauseTokens clauses := by
        rw [← htokens]
        refine List.mem_flatMap.mpr ⟨line, List.mem_filter.mpr ⟨hline, by simpa using hcomment⟩, ?_⟩
        rw [hwords]
        exact List.mem_cons_self
      obtain ⟨c, hc, hsign⟩ := head?_of_mem_clauseTokens hw
      have hleading : leading line = some c := by simp [leading_eq_bind, hwords, hc]
      rw [hleading]
      constructor
      · rintro ⟨⟩
        simp at hsign
      · rintro ⟨⟩
        simp at hsign

theorem takeLiteral_decimal (hl : Cnf.Literal n l) :
    takeLiteral n p (decimal l) = .ok { p with literals := l :: p.literals } := by
  refine takeLiteral_ok_iff.mpr (.inr ⟨l, ?_, hl.ne_zero, hl.declared, rfl⟩)
  rw [Text.readInt_decimal, if_neg (Nat.not_lt_of_le hl.short)]

theorem takeLiterals_decimal (h : ∀ l ∈ clause, Cnf.Literal n l) :
    (clause.map decimal).foldlM (takeLiteral n) p = .ok { p with literals := clause.reverse ++ p.literals } := by
  induction clause generalizing p with
  | nil => rfl
  | cons l clause ih =>
    rw [List.map_cons, List.foldlM_cons, takeLiteral_decimal (h l List.mem_cons_self)]
    refine (ih fun l' hl' => h l' (List.mem_cons_of_mem l hl')).trans ?_
    simp

/-- The tokens of clauses are taken as those clauses, where none is under way. -/
theorem takeLiterals_clauseTokens (hpending : p.literals = [])
    (h : ∀ clause ∈ clauses, clause ≠ [] ∧ ∀ l ∈ clause, Cnf.Literal n l) :
    (clauseTokens clauses).foldlM (takeLiteral n) p = .ok { p with clauses := clauses.reverse ++ p.clauses } := by
  induction clauses generalizing p with
  | nil => rfl
  | cons clause clauses ih =>
    obtain ⟨hne, hliterals⟩ := h clause List.mem_cons_self
    have hzero : takeLiteral n { p with literals := clause.reverse ++ p.literals } ['0'] =
        .ok { p with clauses := clause :: p.clauses } := by
      refine takeLiteral_ok_iff.mpr (.inl ⟨by decide, by simpa [hpending] using hne, ?_⟩)
      simp [hpending]
    unfold clauseTokens at ih ⊢
    rw [List.flatMap_cons, List.foldlM_append, List.foldlM_append, takeLiterals_decimal hliterals]
    simp only [bind, Except.bind, List.foldlM_cons, List.foldlM_nil, hzero, pure, Except.pure]
    refine (ih (p := { p with clauses := clause :: p.clauses }) hpending
      fun clause' hclause' => h clause' (List.mem_cons_of_mem clause hclause')).trans ?_
    simp

/-! ### Reading a layout -/

/-- A document that renders clauses is read as those clauses. -/
theorem parse_of_layout {text : String} (hn : width n ≤ maxDigits) (hm : width m ≤ maxDigits)
    (hclauses : ∀ clause ∈ clauses, clause ≠ [] ∧ ∀ l ∈ clause, Cnf.Literal n l)
    (hlayout : Layout n m clauses (text.toList.splitOnP Text.isBoundary)) : parse text = .ok ⟨n, m, clauses⟩ := by
  obtain ⟨before, header, body, rest, hlines, hbefore, hheader, htokens, hrest⟩ := hlayout
  have hp : leading header = some 'p' := by simp [leading_eq_bind, hheader]
  have hbody : ∀ line ∈ body, leading line ≠ some 'p' ∧ leading line ≠ some '%' :=
    fun _ => leading_of_mem_body htokens
  have hrows : rows (Text.lines text.toList) = Text.strip header :: (body.map Text.strip).filter Counts := by
    rw [rows_lines, hlines, rows_append_of_ignored hbefore, rows_header hp,
      rows_append_of_percent (fun line hline => (hbody line hline).2) hrest]
  have hread : readHeader (Text.strip header) = .ok ⟨n, m⟩ := by
    refine readHeader_ok_iff.mpr ⟨['p'], decimal n, decimal m, ?_, ?_, ?_⟩
    · rw [Text.words_strip, Text.words_eq_pieces, hheader]
    · rw [Text.readInt_decimal, Int.natAbs_natCast, if_neg (Nat.not_lt_of_le hn)]
    · rw [Text.readInt_decimal, Int.natAbs_natCast, if_neg (Nat.not_lt_of_le hm)]
  refine parse_ok_iff.mpr ⟨_, _, ⟨n, m⟩, ⟨some ⟨n, m⟩, clauses.reverse ++ [], []⟩, hrows,
    (head?_strip_eq_leading header).trans hp, hread, ?_, ?_, rfl, by simp⟩
  · intro row hrow
    obtain ⟨line, hline, rfl⟩ := List.mem_map.mp (List.mem_filter.mp hrow).1
    rw [head?_strip_eq_leading]
    exact (hbody line hline).1
  · rw [flatMap_words_filter_counts, htokens]
    exact takeLiterals_clauseTokens rfl hclauses

/-- Whatever layout a document gives to clauses that are not empty, of literals of `n` variables, it is read as
them, in order: the expression of a clause is scanned as its disjunction, which spells its literals, and there is a
warning if and only if another number of clauses was announced. -/
theorem parse_layout {text : String} (hn : width n ≤ maxDigits) (hm : width m ≤ maxDigits)
    (hclauses : ∀ clause ∈ clauses, clause ≠ [] ∧ ∀ l ∈ clause, l ≠ 0 ∧ l.natAbs ≤ n)
    (hlayout : Layout n m clauses (text.toList.splitOnP Text.isBoundary)) :
    ∃ cnf, parse text = .ok cnf ∧ cnf.numVars = n ∧
      List.Forall₂ (fun clause line => ∃ tokens, Token.scan line n = .ok tokens ∧
        tokens.map Token.symbol = (Cnf.expression clause).symbols ∧ Cnf.spelled (tokens.map Token.symbol) = clause)
        clauses cnf.toProgram.clauses ∧
      (cnf.warnings ≠ [] ↔ m ≠ clauses.length) := by
  have hliteral : ∀ clause ∈ clauses, clause ≠ [] ∧ ∀ l ∈ clause, Cnf.Literal n l := by
    refine fun clause hclause => ⟨(hclauses clause hclause).1, fun l hl => ?_⟩
    obtain ⟨hzero, hdeclared⟩ := (hclauses clause hclause).2 l hl
    exact ⟨hzero, hdeclared, (Text.width_mono hdeclared).trans hn⟩
  refine ⟨_, parse_of_layout hn hm hliteral hlayout, rfl, ?_, ?_⟩
  · rw [Cnf.toProgram, List.forall₂_map_right_iff, List.forall₂_same]
    intro clause hclause
    obtain ⟨hne, hliterals⟩ := hliteral clause hclause
    obtain ⟨tokens, hscan, hsymbols⟩ := Cnf.derives_clauseText hne hliterals
    refine ⟨tokens, hscan, hsymbols, ?_⟩
    rw [hsymbols]
    exact Cnf.spelled_expression hne fun l hl => (hliterals l hl).ne_zero
  · simp [Cnf.warnings, eq_comm]

/-- Clauses between comments, on lines of their own and together with others, one more than was announced. -/
theorem parse_layout_broken_lines : ∃ cnf,
    parse "c two clauses\n\n p  cnf 3 1 \n1\t-3\r\nc inside\n 0 2\n3 -1 0\n% end\n$" = .ok cnf ∧ cnf.numVars = 3 ∧
      List.Forall₂ (fun clause line => ∃ tokens, Token.scan line 3 = .ok tokens ∧
        tokens.map Token.symbol = (Cnf.expression clause).symbols ∧ Cnf.spelled (tokens.map Token.symbol) = clause)
        [[1, -3], [2, 3, -1]] cnf.toProgram.clauses ∧
      cnf.warnings ≠ [] := by
  have hlayout : Layout 3 1 [[1, -3], [2, 3, -1]]
      ("c two clauses\n\n p  cnf 3 1 \n1\t-3\r\nc inside\n 0 2\n3 -1 0\n% end\n$".toList.splitOnP Text.isBoundary) :=
    ⟨["c two clauses".toList, []], " p  cnf 3 1 ".toList,
      ["1\t-3".toList, [], "c inside".toList, " 0 2".toList, "3 -1 0".toList], ["% end".toList, ['$']],
      by decide, by decide, by decide, by decide, by decide⟩
  obtain ⟨cnf, hparse, hnumVars, hclauses, hwarnings⟩ :=
    parse_layout (by decide) (by decide) (by decide) hlayout
  exact ⟨cnf, hparse, hnumVars, hclauses, hwarnings.mpr (by decide)⟩

/-! ### Counts with too many digits -/

/-- A document without clauses that announces `m` of them. -/
def announcing (m : Nat) : String := .ofList ("p cnf 0 ".toList ++ decimal m)

theorem isBoundary_of_mem_announcing {c : Char} (hc : c ∈ "p cnf 0 ".toList ++ decimal m) :
    Text.isBoundary c = false := by
  rcases List.mem_append.mp hc with hc | hc
  · exact Text.eq_false_of_any (by decide) hc
  · exact Text.isBoundary_of_not_isBlank (Text.isBlank_of_mem_decimal hc)

theorem splitOnP_announcing (m : Nat) :
    (announcing m).toList.splitOnP Text.isBoundary = ["p cnf 0 ".toList ++ decimal m] := by
  unfold announcing
  rw [String.toList_ofList]
  exact List.splitOnP_eq_singleton fun c => isBoundary_of_mem_announcing

theorem pieces_announcing (m : Nat) :
    pieces isBlank ("p cnf 0 ".toList ++ decimal m) = [['p'], ['c', 'n', 'f'], ['0'], decimal m] := by
  have hcut : pieces isBlank ("p cnf 0".toList ++ ' ' :: decimal m) =
      pieces isBlank "p cnf 0".toList ++ pieces isBlank (decimal m) := Text.pieces_append_cons rfl _ _
  have hfront : pieces isBlank "p cnf 0".toList = [['p'], ['c', 'n', 'f'], ['0']] := by decide
  refine hcut.trans ?_
  rw [Text.pieces_eq_singleton (Text.decimal_ne_nil m) fun c hc => Text.isBlank_of_mem_decimal hc, hfront]
  rfl

theorem layout_announcing (m : Nat) : Layout 0 m [] ((announcing m).toList.splitOnP Text.isBoundary) :=
  ⟨[], "p cnf 0 ".toList ++ decimal m, [], [], splitOnP_announcing m, nofun, pieces_announcing m, rfl, nofun⟩

/-- No document with a longer count is read. -/
theorem parse_announcing_ne_ok (hm : maxDigits < width m) (cnf : Cnf) : parse (announcing m) ≠ .ok cnf := by
  intro hparse
  obtain ⟨header, body, h, p, hrows, -, hread, -⟩ := parse_ok_iff.mp hparse
  obtain ⟨word, vars, count, hwords, -, hcount⟩ := readHeader_ok_iff.mp hread
  rw [rows_lines, splitOnP_announcing, rows_header rfl] at hrows
  obtain ⟨rfl, -⟩ := List.cons.inj hrows
  rw [Text.words_strip, Text.words_eq_pieces, pieces_announcing] at hwords
  obtain ⟨-, -, rfl⟩ : ['p'] = word ∧ ['0'] = vars ∧ decimal m = count := by simpa using hwords
  rw [Text.readInt_decimal, Int.natAbs_natCast, if_pos hm] at hcount
  cases hcount

/-- This layout of no clauses is not read. -/
theorem parse_of_long_count :
    Layout 0 (Nat.pow 10 maxDigits) [] ((announcing (Nat.pow 10 maxDigits)).toList.splitOnP Text.isBoundary) ∧
      ∀ cnf, parse (announcing (Nat.pow 10 maxDigits)) ≠ .ok cnf :=
  ⟨layout_announcing _, parse_announcing_ne_ok (Text.lt_width_pow maxDigits)⟩

end SoftLogic.Dimacs
