import SoftLogic.Text.Blank

/-!
# Pieces between separators

The words of a line are the pieces between its blanks (`words_eq_pieces`).  The lines of a text are the pieces
between its boundaries, but for empty ones: a carriage return with a line feed is one boundary, and nothing follows a
final boundary (`lines_eq_pieces`).  Stripping takes blanks from both ends of a text, so it leaves the words
(`words_strip`) and the first character that is not blank (`head?_strip`).
-/

namespace SoftLogic.Text

variable {p : Char → Bool} {c d : Char} {w cs bs : List Char} {ws : List (List Char)}

/-- What stands between the separators, where anything does. -/
def pieces (p : Char → Bool) (cs : List Char) : List (List Char) := (cs.splitOnP p).filter (· ≠ [])

@[simp] theorem pieces_nil : pieces p [] = [] := by
  simp [pieces, List.splitOnP_nil]

/-- Pieces end at a separator. -/
theorem pieces_append_cons (hc : p c = true) (xs ys : List Char) :
    pieces p (xs ++ c :: ys) = pieces p xs ++ pieces p ys := by
  unfold pieces
  rw [List.splitOnP_append_cons xs ys hc, List.filter_append]

theorem pieces_cons_of_pos (hc : p c = true) (cs : List Char) : pieces p (c :: cs) = pieces p cs := by
  simpa using pieces_append_cons hc [] cs

theorem pieces_of_forall (h : ∀ b ∈ bs, p b = true) : pieces p bs = [] := by
  induction bs with
  | nil => exact pieces_nil
  | cons b bs ih =>
    rw [pieces_cons_of_pos (h b List.mem_cons_self), ih fun d hd => h d (List.mem_cons_of_mem b hd)]

/-- Without separators everything is one piece. -/
theorem pieces_eq_singleton (hne : cs ≠ []) (h : ∀ c ∈ cs, p c = false) : pieces p cs = [cs] := by
  simp [pieces, List.splitOnP_eq_singleton h, hne]

/-- The first part of a split goes up to the first separator. -/
theorem splitOnP_eq_takeWhile_cons (p : Char → Bool) (cs : List Char) :
    ∃ rest, cs.splitOnP p = cs.takeWhile (!p ·) :: rest := by
  induction cs with
  | nil => exact ⟨[], List.splitOnP_nil⟩
  | cons c cs ih =>
    obtain ⟨rest, hrest⟩ := ih
    rw [List.splitOnP_cons_eq_if_modifyHead]
    by_cases hc : p c = true
    · exact ⟨cs.splitOnP p, by simp [hc]⟩
    · exact ⟨rest, by simp [hc, hrest]⟩

/-- In front of a separator a character is a piece of its own. -/
theorem pieces_cons_apart (hc : p c = false) (hd : ∀ d ∈ cs.head?, p d = true) :
    pieces p (c :: cs) = [c] :: pieces p cs := by
  obtain ⟨rest, hrest⟩ := splitOnP_eq_takeWhile_cons p cs
  have hnil : cs.takeWhile (!p ·) = [] := by
    cases cs with
    | nil => rfl
    | cons d cs => simp [hd d rfl]
  rw [hnil] at hrest
  simp [pieces, List.splitOnP_cons_eq_if_modifyHead, hc, hrest]

/-- In front of any other character it belongs to the same piece. -/
theorem pieces_cons_joined (hc : p c = false) (hd : p d = false) (cs : List Char) :
    ∃ w ws, w ≠ [] ∧ pieces p (d :: cs) = w :: ws ∧ pieces p (c :: d :: cs) = (c :: w) :: ws := by
  obtain ⟨rest, hrest⟩ := splitOnP_eq_takeWhile_cons p (d :: cs)
  rw [List.takeWhile_cons, if_pos (by simp [hd])] at hrest
  refine ⟨d :: cs.takeWhile (!p ·), rest.filter (· ≠ []), List.cons_ne_nil _ _, ?_, ?_⟩
  · simp [pieces, hrest]
  · simp [pieces, List.splitOnP_cons_eq_if_modifyHead (p := p) c, hc, hrest]

/-! ### Words -/

theorem words_eq_pieces (cs : List Char) : words cs = pieces isBlank cs := by
  induction cs with
  | nil => exact pieces_nil.symm
  | cons c cs ih =>
    by_cases hc : isBlank c = true
    · rw [words, if_pos hc, pieces_cons_of_pos hc, ih]
    · have hc : isBlank c = false := by simpa using hc
      cases cs with
      | nil =>
        rw [pieces_cons_apart hc (by simp)]
        simp [words, hc]
      | cons d cs =>
        by_cases hd : isBlank d = true
        · rw [pieces_cons_apart hc (by simp [hd]), ← ih, words]
          simp [hc, hd]
        · have hd : isBlank d = false := by simpa using hd
          obtain ⟨w, ws, -, hrest, hjoined⟩ := pieces_cons_joined hc hd cs
          rw [hjoined, words, ih, hrest]
          simp [hc, hd]

/-- The first word starts with the first character that is not blank. -/
theorem head?_dropWhile_isBlank (cs : List Char) :
    (cs.dropWhile isBlank).head? = (words cs).head?.bind List.head? := by
  induction cs with
  | nil => rfl
  | cons c cs ih =>
    by_cases hc : isBlank c = true
    · simp [words, hc, ih]
    · rw [words, List.dropWhile_cons_of_neg hc, if_neg hc]
      split <;> rfl

/-! ### Stripping -/

theorem dropWhile_eq_self (h : ∀ c ∈ cs.head?, p c = false) : cs.dropWhile p = cs := by
  cases cs with
  | nil => rfl
  | cons c cs => simp [h c rfl]

theorem eq_false_of_any {cs : List Char} (h : cs.any p = false) {c : Char} (hc : c ∈ cs) : p c = false :=
  Bool.eq_false_iff.mpr (List.any_eq_false.mp h c hc)

theorem eq_false_of_mem_head?_dropWhile (h : c ∈ (cs.dropWhile p).head?) : p c = false := by
  have hnot := List.head?_dropWhile_not p cs
  rwa [Option.mem_def.mp h] at hnot

theorem of_mem_takeWhile (h : c ∈ cs.takeWhile p) : p c = true :=
  List.all_eq_true.mp List.all_takeWhile c h

/-- What is trimmed off is of the class. -/
theorem exists_trim (p : Char → Bool) (cs : List Char) : ∃ as bs, (∀ a ∈ as, p a = true) ∧
    (∀ b ∈ bs, p b = true) ∧ cs = as ++ (trim p cs ++ bs) := by
  refine ⟨cs.takeWhile p, ((cs.dropWhile p).reverse.takeWhile p).reverse, fun a => of_mem_takeWhile,
    fun b hb => of_mem_takeWhile (List.mem_reverse.mp hb), ?_⟩
  rw [trim, ← List.reverse_append, List.takeWhile_append_dropWhile, List.reverse_reverse,
    List.takeWhile_append_dropWhile]

theorem mem_of_mem_trim (h : c ∈ trim p cs) : c ∈ cs := by
  obtain ⟨as, bs, -, -, hcs⟩ := exists_trim p cs
  rw [hcs]
  simp [h]

/-- A text that neither starts nor ends with a character of the class stays as it is. -/
theorem trim_eq_self (hhead : ∀ c ∈ cs.head?, p c = false) (hlast : ∀ c ∈ cs.getLast?, p c = false) :
    trim p cs = cs := by
  rw [trim, dropWhile_eq_self hhead, dropWhile_eq_self (by rwa [List.head?_reverse]), List.reverse_reverse]

/-- Trimming the end leaves the first character that stays. -/
theorem head?_trim (p : Char → Bool) (cs : List Char) : (trim p cs).head? = (cs.dropWhile p).head? := by
  have hsplit : cs.dropWhile p = trim p cs ++ ((cs.dropWhile p).reverse.takeWhile p).reverse := by
    rw [trim, ← List.reverse_append, List.takeWhile_append_dropWhile, List.reverse_reverse]
  cases htrim : trim p cs with
  | cons c rest =>
    rw [htrim] at hsplit
    rw [hsplit]
    rfl
  | nil =>
    -- then all that is left is of the class, and so nothing is left
    rw [htrim, List.nil_append] at hsplit
    cases hdrop : (cs.dropWhile p).head? with
    | none => rfl
    | some c =>
      have hc : c ∈ cs.dropWhile p := List.mem_of_mem_head? hdrop
      rw [hsplit] at hc
      have hpos := of_mem_takeWhile (List.mem_reverse.mp hc)
      rw [eq_false_of_mem_head?_dropWhile hdrop] at hpos
      cases hpos

theorem trim_trim (p : Char → Bool) (cs : List Char) : trim p (trim p cs) = trim p cs := by
  refine trim_eq_self (fun c hc => ?_) fun c hc => ?_
  · rw [head?_trim] at hc
    exact eq_false_of_mem_head?_dropWhile hc
  · rw [trim, List.getLast?_reverse] at hc
    exact eq_false_of_mem_head?_dropWhile hc

theorem head?_strip (cs : List Char) : (strip cs).head? = (cs.dropWhile isBlank).head? := head?_trim isBlank cs

theorem words_strip (cs : List Char) : words (strip cs) = words cs := by
  obtain ⟨as, bs, has, hbs, hcs⟩ := exists_trim isBlank cs
  have hback : pieces isBlank (strip cs ++ bs) = pieces isBlank (strip cs) := by
    cases bs with
    | nil => rw [List.append_nil]
    | cons b bs =>
      rw [pieces_append_cons (hbs b List.mem_cons_self), pieces_of_forall fun d hd => hbs d (List.mem_cons_of_mem b hd),
        List.append_nil]
  have hfront : pieces isBlank (as ++ (strip cs ++ bs)) = pieces isBlank (strip cs ++ bs) := by
    clear hcs
    induction as with
    | nil => rfl
    | cons a as ih =>
      rw [List.cons_append, pieces_cons_of_pos (has a List.mem_cons_self),
        ih fun d hd => has d (List.mem_cons_of_mem a hd)]
  rw [words_eq_pieces, words_eq_pieces, ← hback, ← hfront, strip, ← hcs]

/-! ### Lines -/

theorem isBoundary_of_not_isBlank (h : isBlank c = false) : isBoundary c = false := by
  cases hc : isBoundary c with
  | false => rfl
  | true => exact absurd (isBlank_of_isBoundary hc) (by simp [h])

/-- The first line goes up to the first boundary. -/
theorem lines_eq_takeWhile_cons (hcs : cs ≠ []) : ∃ rest, lines cs = cs.takeWhile (!isBoundary ·) :: rest := by
  induction cs using lines.induct with
  | case1 => exact absurd rfl hcs
  | case2 rest => exact ⟨lines rest, by simp [lines, isBoundary]⟩
  | case3 c cs hcrlf hc => exact ⟨lines cs, by rw [lines] <;> simp_all⟩
  | case4 c cs hcrlf hc hnil ih =>
    cases cs with
    | nil => exact ⟨[], by simp [lines, hc]⟩
    | cons d cs =>
      obtain ⟨rest, hrest⟩ := ih (List.cons_ne_nil d cs)
      rw [hrest] at hnil
      cases hnil
  | case5 c cs hcrlf hc l ls hls ih =>
    have hne : cs ≠ [] := by
      rintro rfl
      cases hls
    obtain ⟨rest, hrest⟩ := ih hne
    exact ⟨rest, by rw [lines] <;> simp_all⟩

/-- No line has a boundary in it. -/
theorem isBoundary_of_mem_lines {line : List Char} (h : line ∈ lines cs) (hc : c ∈ line) : isBoundary c = false := by
  induction cs using lines.induct generalizing line with
  | case1 => cases h
  | case2 rest ih =>
    rw [lines] at h
    rcases List.mem_cons.mp h with rfl | h
    · cases hc
    · exact ih h hc
  | case3 d rest hcrlf hd ih =>
    rw [lines, if_pos hd] at h
    · rcases List.mem_cons.mp h with rfl | h
      · cases hc
      · exact ih h hc
    · exact hcrlf
  | case4 d rest hcrlf hd hrest ih =>
    rw [lines, if_neg hd, hrest] at h
    · obtain rfl : line = [d] := by simpa using h
      obtain rfl : c = d := by simpa using hc
      simpa using hd
    · exact hcrlf
  | case5 d rest hcrlf hd l ls hrest ih =>
    rw [lines, if_neg hd, hrest] at h
    · rcases List.mem_cons.mp h with rfl | h
      · rcases List.mem_cons.mp hc with rfl | hc
        · simpa using hd
        · exact ih (hrest ▸ List.mem_cons_self) hc
      · exact ih (hrest ▸ List.mem_cons_of_mem l h) hc
    · exact hcrlf

/-- The lines that are not empty are the pieces between boundaries. -/
theorem lines_eq_pieces (cs : List Char) : (lines cs).filter (· ≠ []) = pieces isBoundary cs := by
  induction cs using lines.induct with
  | case1 => exact pieces_nil.symm
  | case2 rest ih =>
    rw [pieces_cons_of_pos (by decide), pieces_cons_of_pos (by decide), ← ih, lines]
    rfl
  | case3 c cs hcrlf hc ih =>
    rw [pieces_cons_of_pos hc, ← ih, lines, if_pos hc]
    · rfl
    · exact hcrlf
  | case4 c cs hcrlf hc hnil ih =>
    cases cs with
    | nil =>
      rw [pieces_cons_apart (by simpa using hc) (by simp)]
      simp [lines, hc]
    | cons d cs =>
      obtain ⟨rest, hrest⟩ := lines_eq_takeWhile_cons (List.cons_ne_nil d cs)
      rw [hrest] at hnil
      cases hnil
  | case5 c cs hcrlf hc l ls hls ih =>
    have hc' : isBoundary c = false := by simpa using hc
    have hlines : lines (c :: cs) = (c :: l) :: ls := by
      rw [lines, if_neg hc, hls]
      exact hcrlf
    cases cs with
    | nil => cases hls
    | cons d cs =>
      obtain ⟨rest, hrest⟩ := lines_eq_takeWhile_cons (List.cons_ne_nil d cs)
      obtain ⟨rfl, rfl⟩ := List.cons.inj (hls.symm.trans hrest)
      rw [hls] at ih
      by_cases hd : isBoundary d = true
      · rw [pieces_cons_apart hc' (by simp [hd]), ← ih, hlines]
        simp [hd]
      · have hd : isBoundary d = false := by simpa using hd
        obtain ⟨w, ws, -, hpieces, hjoined⟩ := pieces_cons_joined hc' hd cs
        rw [hpieces] at ih
        rw [hjoined, hlines]
        simp_all

end SoftLogic.Text
