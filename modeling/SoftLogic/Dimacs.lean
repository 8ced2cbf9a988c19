import SoftLogic.Cnf
import SoftLogic.Warning

/-!
# Documents in DIMACS format

A document is read line by line, blanks at the ends of a line aside:

* empty lines and lines that start with `c` are comments;
* a line that starts with `p` is the header `p cnf <variables> <clauses>`, which comes once and before any
  literal;
* a line that starts with `%` ends the document;
* any other line holds literals, and a literal `0` ends a clause.

Clauses may span lines.  The announced number of clauses need not be met; that is a warning.
-/

namespace SoftLogic

namespace Dimacs

/-- What is wrong with a document. -/
inductive Flaw
  | duplicateHeader
  | headerForm (line : String)
  | headerCounts (line : String)
  | negativeCounts (line : String)
  | clauseBeforeHeader
  | notInteger (word : String)
  | emptyClause
  | undeclared (literal : Int) (numVars : Nat)
  | missingHeader
  | unterminated
  deriving DecidableEq, Repr

/-- The wording of a flaw. -/
def Flaw.message : Flaw → String
  | .duplicateHeader => "duplicate 'p cnf' header"
  | .headerForm line => s!"expected 'p cnf <vars> <clauses>', got {Text.quoted line}"
  | .headerCounts line => s!"non-integer counts in header {Text.quoted line}"
  | .negativeCounts line => s!"negative counts in header {Text.quoted line}"
  | .clauseBeforeHeader => "clause found before the 'p cnf' header"
  | .notInteger word => s!"literal {Text.quoted word} is not an integer"
  | .emptyClause => "empty clause"
  | .undeclared literal numVars =>
    s!"literal {literal} exceeds the {numVars} declared variable(s)"
  | .missingHeader => "missing 'p cnf' header"
  | .unterminated => "last clause is not terminated by 0"

/-- Why a document was not read, and at which line, counted from one, if a line is to blame. -/
structure Error where
  flaw : Flaw
  line : Option Nat
  deriving DecidableEq, Repr

/-- The wording of a refusal. -/
def Error.message : Error → String
  | ⟨flaw, some line⟩ => s!"line {line}: {flaw.message}"
  | ⟨flaw, none⟩ => flaw.message

/-- The counts of a header. -/
structure Header where
  numVars : Nat
  clauses : Nat
  deriving DecidableEq, Repr

/-- What was read so far: the finished clauses and the literals of the one under way, last ones first. -/
structure Progress where
  header : Option Header
  clauses : List (List Int)
  literals : List Int
  deriving DecidableEq, Repr

/-- Nothing was read. -/
def Progress.start : Progress := ⟨none, [], []⟩

/-- Reads a header line. -/
def readHeader (line : List Char) : Except Flaw Header :=
  let text := String.ofList line
  match Text.words line with
  | [_, ['c', 'n', 'f'], vars, clauses] =>
    match Text.readInt vars, Text.readInt clauses with
    | some v, some c =>
      if v < 0 ∨ c < 0 then .error (.negativeCounts text) else .ok ⟨v.toNat, c.toNat⟩
    | _, _ => .error (.headerCounts text)
  | _ => .error (.headerForm text)

/-- Takes one literal under a header that declares `numVars`. -/
def takeLiteral (numVars : Nat) (p : Progress) (word : List Char) : Except Flaw Progress :=
  match Text.readInt word with
  | none => .error (.notInteger (.ofList word))
  | some l =>
    if l = 0 then
      if p.literals.isEmpty then .error .emptyClause
      else .ok { p with clauses := p.literals.reverse :: p.clauses, literals := [] }
    else if numVars < l.natAbs then .error (.undeclared l numVars)
    else .ok { p with literals := l :: p.literals }

/-- Takes one stripped line that does not end the document. -/
def takeLine (p : Progress) (line : List Char) : Except Flaw Progress :=
  match line with
  | [] | 'c' :: _ => .ok p
  | 'p' :: _ =>
    match p.header with
    | some _ => .error .duplicateHeader
    | none => do return { p with header := some (← readHeader line) }
  | _ =>
    match p.header with
    | none => .error .clauseBeforeHeader
    | some h => (Text.words line).foldlM (takeLiteral h.numVars) p

/-- Takes the lines up to the end of the document, the first of which comes after `count` others; returns
the number of lines seen as well. -/
def takeLines (p : Progress) (count : Nat) : List (List Char) → Except Error (Progress × Nat)
  | [] => .ok (p, count)
  | line :: rest =>
    let line := Text.strip line
    if line.head? = some '%' then .ok (p, count + 1)
    else
      match takeLine p line with
      | .error flaw => .error ⟨flaw, some (count + 1)⟩
      | .ok p => takeLines p (count + 1) rest

/-- Reads a document. -/
def parse (text : String) : Except Error Cnf := do
  let (p, count) ← takeLines .start 0 (Text.lines text.toList)
  match p.header with
  | none => .error ⟨.missingHeader, none⟩
  | some h =>
    if p.literals.isEmpty then .ok ⟨h.numVars, h.clauses, p.clauses.reverse⟩
    else .error ⟨.unterminated, some count⟩

end Dimacs

/-- The remark on a formula whose document announced another number of clauses. -/
def Cnf.warnings (cnf : Cnf) : List Warning :=
  if cnf.clauses.length = cnf.announced then []
  else [.clauseCount cnf.announced cnf.clauses.length]

end SoftLogic
