/-!
# Blanks, words and lines

Which characters count as blank, and the three ways a text is cut by them: stripping its ends, splitting
it into words, and splitting it into lines.  A line ends at any of ten boundary characters, of which a
carriage return with a line feed counts as one, and nothing follows a final boundary.
-/

namespace SoftLogic.Text

/-- White space: the ASCII blanks and separators, the next-line character, and the space, line and
paragraph separators of Unicode. -/
def isBlank (c : Char) : Bool :=
  let n := c.toNat
  (0x09 ≤ n && n ≤ 0x0d) || (0x1c ≤ n && n ≤ 0x20) || n == 0x85 || n == 0xa0 || n == 0x1680
    || (0x2000 ≤ n && n ≤ 0x200a) || n == 0x2028 || n == 0x2029 || n == 0x202f || n == 0x205f
    || n == 0x3000

/-- A character that ends a line. -/
def isBoundary (c : Char) : Bool :=
  let n := c.toNat
  (0x0a ≤ n && n ≤ 0x0d) || (0x1c ≤ n && n ≤ 0x1e) || n == 0x85 || n == 0x2028 || n == 0x2029

/-- Drops the characters of a class at both ends. -/
def trim (p : Char → Bool) (cs : List Char) : List Char :=
  ((cs.dropWhile p).reverse.dropWhile p).reverse

/-- Drops the blanks at both ends. -/
def strip (cs : List Char) : List Char := trim isBlank cs

/-- The maximal runs of characters that are not blank. -/
def words : List Char → List (List Char)
  | [] => []
  | c :: rest =>
    if isBlank c then words rest
    else
      match rest.head?.any (!isBlank ·), words rest with
      | true, w :: ws => (c :: w) :: ws
      | _, ws => [c] :: ws

/-- The lines of a text, without their boundaries. -/
def lines : List Char → List (List Char)
  | [] => []
  | '\r' :: '\n' :: rest => [] :: lines rest
  | c :: rest =>
    if isBoundary c then [] :: lines rest
    else
      match lines rest with
      | [] => [[c]]
      | l :: ls => (c :: l) :: ls

/-- Every line boundary is blank. -/
theorem isBlank_of_isBoundary {c : Char} (h : isBoundary c = true) : isBlank c = true := by
  simp only [isBoundary, isBlank, Bool.or_eq_true, Bool.and_eq_true, decide_eq_true_eq, beq_iff_eq] at h ⊢
  omega

/-- A line feed ends the line before it. -/
theorem lines_append_newline {line : List Char} (h : ∀ c ∈ line, isBoundary c = false)
    (rest : List Char) : lines (line ++ '\n' :: rest) = line :: lines rest := by
  induction line with
  | nil => simp [lines, isBoundary]
  | cons c line ih =>
    have hc : isBoundary c = false := h c (List.mem_cons_self ..)
    have hr : c ≠ '\r' := by rintro rfl; simp [isBoundary] at hc
    have hl := ih fun d hd => h d (List.mem_cons_of_mem _ hd)
    rw [List.cons_append, lines]
    · simp [hc, hl]
    · rintro tail rfl
      exact absurd rfl hr

/-- The lines of a text whose lines all end in a line feed. -/
theorem lines_flatMap_newline {ls : List (List Char)} (h : ∀ l ∈ ls, ∀ c ∈ l, isBoundary c = false) :
    lines (ls.flatMap (· ++ ['\n'])) = ls := by
  induction ls with
  | nil => rfl
  | cons l ls ih =>
    simp only [List.flatMap_cons, List.append_assoc, List.singleton_append]
    rw [lines_append_newline (h l (List.mem_cons_self ..)), ih fun m hm => h m (List.mem_cons_of_mem _ hm)]

end SoftLogic.Text
