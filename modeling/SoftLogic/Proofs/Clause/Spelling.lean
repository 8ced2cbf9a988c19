import Mathlib.Data.List.Forall2
import SoftLogic.Clause.Assembly
import SoftLogic.Proofs.Clause.Scanning
import SoftLogic.Proofs.Effect

/-!
# Clauses with the same symbols

Only the symbols of a clause decide what it is assembled to; its text and the columns go into the refusals alone.  So
a clause that is accepted is accepted with any other spelling of its symbols, and places the same nodes under the
same ids (`Assembly.agrees_assemble`).  Blanks at the ends of a clause are such a difference of spelling
(`Token.Scans.strip`).
-/

namespace SoftLogic

namespace Effect

variable {ε σ α β : Type} {x y : EStateM ε σ α}

/-- Where the first computation returns, the second one returns the same. -/
def Agrees (x y : EStateM ε σ α) : Prop := ∀ s a s', x s = .ok a s' → y s = .ok a s'

theorem Agrees.refl (x : EStateM ε σ α) : Agrees x x := fun _ _ _ h => h

theorem agrees_throw (e : ε) (y : EStateM ε σ α) : Agrees (throw e) y := nofun

theorem Agrees.bind {f g : α → EStateM ε σ β} (hx : Agrees x y) (hf : ∀ a, Agrees (f a) (g a)) :
    Agrees (x >>= f) (y >>= g) := by
  intro s b s' h
  obtain ⟨a, s₁, ha, hb⟩ := of_bind_ok h
  rw [bind_of_ok (hx s a s₁ ha)]
  exact hf a s₁ b s' hb

/-- Loops agree if their rounds do. -/
theorem agrees_mapM {R : α → α → Prop} {f g : α → EStateM ε σ β} {l l' : List α}
    (hl : List.Forall₂ R l l') (h : ∀ a a', R a a' → Agrees (f a) (g a')) : Agrees (l.mapM f) (l'.mapM g) := by
  induction hl with
  | nil => exact .refl _
  | cons ha _ ih =>
    rw [List.mapM_cons, List.mapM_cons]
    exact (h _ _ ha).bind fun b => ih.bind fun bs => .refl _

theorem agrees_foldlM {R : α → α → Prop} {f g : β → α → EStateM ε σ β} {l l' : List α}
    (hl : List.Forall₂ R l l') (h : ∀ a a', R a a' → ∀ b, Agrees (f b a) (g b a')) (b : β) :
    Agrees (l.foldlM f b) (l'.foldlM g b) := by
  induction hl generalizing b with
  | nil => exact .refl _
  | cons ha _ ih =>
    rw [List.foldlM_cons, List.foldlM_cons]
    exact (h _ _ ha b).bind ih

end Effect

/-! ### Assembling the same symbols -/

namespace Assembly

open Effect

variable {clause clause' : String} {leaf : Nat → Ref} {n : Nat}

theorem agrees_collapse (column column' : Nat) (pending : List Pending) (operands : List Ref) :
    Agrees (collapse clause column pending operands) (collapse clause' column' pending operands) := by
  induction pending generalizing operands with
  | nil => exact .refl _
  | cons p pending ih =>
    cases p with
    | group => exact .refl _
    | gate r =>
      cases operands with
      | nil => exact nofun
      | cons a operands => exact (Agrees.refl (wire r a)).bind fun _ => ih (r :: operands)

/-- A step asks for the symbol of the token only. -/
theorem agrees_step {t t' : Token} (h : t.symbol = t'.symbol) (s : Stacks) :
    Agrees (step clause leaf s t) (step clause' leaf s t') := by
  obtain ⟨pending, operands⟩ := s
  obtain ⟨symbol, column⟩ := t
  obtain ⟨symbol', column'⟩ := t'
  obtain rfl : symbol = symbol' := h
  cases symbol with
  | «variable» k => exact agrees_collapse column column' pending (leaf k :: operands)
  | connective op =>
    cases operands with
    | nil => exact agrees_throw _ _
    | cons a operands => exact .refl _
  | not => exact .refl _
  | openGroup => exact .refl _
  | closeGroup =>
    match pending with
    | [] => exact agrees_throw _ _
    | .gate r :: pending => exact agrees_throw _ _
    | .group :: pending => exact agrees_collapse column column' pending operands

theorem agrees_close (s : Stacks) : Agrees (close clause s) (close clause' s) := by
  refine (agrees_collapse _ _ _ _).bind fun s => ?_
  split
  · exact .refl _
  · exact agrees_throw _ _
  · exact agrees_throw _ _
  · exact agrees_throw _ _

/-- A clause that is accepted is assembled to the same nodes as any other clause with its symbols. -/
theorem agrees_assemble (h : ∀ tokens, Token.scan clause n = .ok tokens → ∃ tokens',
    Token.scan clause' n = .ok tokens' ∧ tokens'.map Token.symbol = tokens.map Token.symbol) :
    Agrees (assemble n leaf clause) (assemble n leaf clause') := by
  unfold assemble
  cases hscan : Token.scan clause n with
  | error e => exact agrees_throw _ _
  | ok tokens =>
    obtain ⟨tokens', hscan', hsymbols⟩ := h tokens hscan
    have hsame : List.Forall₂ (fun t t' => t.symbol = t'.symbol) tokens tokens' := by
      rw [← List.forall₂_map_right_iff (R := fun (t : Token) s => t.symbol = s) (f := Token.symbol),
        ← List.forall₂_map_left_iff (R := Eq), hsymbols]
      exact List.forall₂_refl _
    rw [hscan']
    exact (agrees_foldlM hsame (fun _ _ => agrees_step) _).bind agrees_close

end Assembly

/-! ### Blanks around a clause -/

namespace Token

open Text

variable {declared : Int} {clause : String} {column : Nat} {chars bs : List Char} {w : List Symbol} {b : Char}

theorem sign?_of_isBlank (hb : isBlank b = true) : sign? b = none := by
  unfold sign?
  split <;> first | rfl | exact absurd hb (by decide)

theorem ne_dollar_of_isBlank (hb : isBlank b = true) : b ≠ '$' := by
  rintro rfl
  exact absurd hb (by decide)

theorem isDigit_of_isBlank (hb : isBlank b = true) : b.isDigit = false := by
  by_contra hdigit
  have hrange : 0x30 ≤ b.toNat ∧ b.toNat ≤ 0x39 := by simpa [Char.isDigit, UInt32.le_iff_toNat_le] using hdigit
  simp [isBlank] at hb
  omega

/-- Blanks at the end are not looked at. -/
theorem scanFrom_append_blanks (hbs : ∀ b ∈ bs, isBlank b = true) :
    scanFrom clause declared column (chars ++ bs) = scanFrom clause declared column chars := by
  induction chars generalizing column with
  | nil =>
    rw [List.nil_append]
    induction bs generalizing column with
    | nil => rfl
    | cons b bs ih =>
      have hb := hbs b List.mem_cons_self
      rw [scanFrom_separator (ne_dollar_of_isBlank hb) (sign?_of_isBlank hb)]
      exact ih fun b' hb' => hbs b' (List.mem_cons_of_mem b hb')
  | cons c chars ih =>
    have hnone : bs.takeWhile Char.isDigit = [] := by
      cases bs with
      | nil => rfl
      | cons b bs => simp [isDigit_of_isBlank (hbs b List.mem_cons_self)]
    have hdigits : (chars ++ bs).takeWhile Char.isDigit = chars.takeWhile Char.isDigit := by
      rw [List.takeWhile_append, hnone]
      split
      · next hall => rw [List.append_nil, (List.takeWhile_prefix _).eq_of_length hall]
      · rfl
    rw [List.cons_append, scanFrom, scanFrom, hdigits, ih]

theorem Scans.of_blanks (hbs : ∀ b ∈ bs, isBlank b = true) (h : Scans declared (bs ++ chars) w) :
    Scans declared chars w := by
  induction bs with
  | nil => exact h
  | cons b bs ih =>
    have hb := hbs b List.mem_cons_self
    obtain ⟨tokens, hscan, rfl⟩ := h "" 0
    rw [List.cons_append, scanFrom_separator (ne_dollar_of_isBlank hb) (sign?_of_isBlank hb)] at hscan
    exact ih (fun b' hb' => hbs b' (List.mem_cons_of_mem b hb')) (scans_of_scanFrom hscan)

/-- A clause has the same symbols without the blanks at its ends. -/
theorem Scans.strip (h : Scans declared chars w) : Scans declared (strip chars) w := by
  obtain ⟨as, bs, has, hbs, hchars⟩ := exists_trim isBlank chars
  rw [hchars] at h
  intro clause column
  obtain ⟨tokens, hscan, hsymbols⟩ := h.of_blanks has clause column
  rw [scanFrom_append_blanks hbs] at hscan
  exact ⟨tokens, hscan, hsymbols⟩

end Token

end SoftLogic
