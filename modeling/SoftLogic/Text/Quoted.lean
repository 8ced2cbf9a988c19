import SoftLogic.Text.Digit
import SoftLogic.Text.Printable

/-!
# Quoted text

A text as it is shown in a message: between single quotes, or between double quotes if it has single ones
and no double ones.  The quote in use, the backslash and whatever cannot be printed are escaped.
-/

namespace SoftLogic.Text

/-- The lowercase hexadecimal digits of a number, at least `width` of them. -/
def hex (width n : Nat) : List Char := padded width (Nat.toDigits 16 n)

/-- One character between quotes of the given kind. -/
def escape (quote c : Char) : List Char :=
  if c = quote ∨ c = '\\' then ['\\', c]
  else if c = '\n' then ['\\', 'n']
  else if c = '\r' then ['\\', 'r']
  else if c = '\t' then ['\\', 't']
  else if isPrintable c then [c]
  else if c.toNat < 0x100 then '\\' :: 'x' :: hex 2 c.toNat
  else if c.toNat < 0x10000 then '\\' :: 'u' :: hex 4 c.toNat
  else '\\' :: 'U' :: hex 8 c.toNat

/-- The quote that a text is put in. -/
def quoteFor (cs : List Char) : Char := if cs.contains '\'' && !cs.contains '"' then '"' else '\''

/-- A text between quotes. -/
def quoted (s : String) : String :=
  let quote := quoteFor s.toList
  .ofList (quote :: s.toList.flatMap (escape quote) ++ [quote])

end SoftLogic.Text
