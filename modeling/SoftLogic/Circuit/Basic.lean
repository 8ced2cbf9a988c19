import SoftLogic.Clause.Assembly
import SoftLogic.Dimacs

/-!
# Circuits

A circuit over `n` variables is a registry that starts with `n` inputs and their `n` sigmoids and goes on
with the gates and the cost of every clause.  A clause reads the sigmoids only, so they are shared and
every gate of a clause feeds one node.

A circuit is made from clause lines, from a program text or from a DIMACS document; blank lines are
skipped.  Further clauses can be assembled in its registry without joining the circuit's own.
-/

namespace SoftLogic

/-- A registry of clauses over `numVars` inputs. -/
structure Circuit where
  numVars : Nat
  registry : Registry
  /-- The clauses, stripped. -/
  clauses : List String
  /-- The costs of the clauses. -/
  roots : List Ref
  deriving DecidableEq, Repr

/-- Why no circuit was made. -/
inductive CircuitError
  /-- The variable count is a value of another kind, which is named. -/
  | notInteger (kind : String)
  /-- The variable count is negative. -/
  | negative (declared : Int)
  /-- A clause was not assembled. -/
  | assembly (error : AssemblyError)
  /-- The program text was not read. -/
  | program (error : ProgramError)
  /-- The DIMACS document was not read. -/
  | dimacs (error : Dimacs.Error)
  /-- The variable count is too long to be written, in a program text or in a refusal. -/
  | unwritten (error : Text.WriteError)
  deriving DecidableEq, Repr

/-- The wording of a refusal. -/
def CircuitError.message : CircuitError → String
  | .notInteger kind => s!"n_vars must be an integer, got <class '{kind}'>"
  | .negative declared => s!"n_vars must be non-negative, got {declared}"
  | .assembly e => e.message
  | .program e => e.message
  | .dimacs e => e.message
  | .unwritten e => e.message

/-- A variable count as an untyped caller gives it. -/
inductive Count
  | integer (n : Int)
  /-- A value of another kind, which is named. -/
  | other (kind : String)
  deriving DecidableEq, Repr

namespace Circuit

/-- The inputs of `n` variables. -/
def inputsOf (n : Nat) : List Ref := List.range n

/-- The sigmoid of a variable among `n`. -/
def sigmoidOf (n index : Nat) : Ref := n + index

/-- Places the inputs and sigmoids of `n` variables. -/
def placeVariables (n : Nat) : AssemblyM Unit := do
  (inputsOf n).forM fun _ => discard (Assembly.place .input)
  (inputsOf n).forM fun leaf => discard (Assembly.place (.sigmoid leaf))

/-- Places the variables and the clauses of a circuit and returns the roots. -/
def placeAll (n : Nat) (clauses : List String) : AssemblyM (List Ref) := do
  placeVariables n
  clauses.mapM (Assembly.assemble n (sigmoidOf n))

/-- The lines that are not blank. -/
def significant (lines : List String) : List String :=
  lines.filter fun line => !Program.isBlankLine line.toList

/-- A line without the blanks at its ends. -/
def stripped (line : String) : String := .ofList (Text.strip line.toList)

/-- The circuit of a program. -/
def ofProgram (p : Program) : Except CircuitError Circuit :=
  if p.declared < 0 then .error (Text.refusalNaming p.declared (.negative p.declared) .unwritten)
  else
    let n := p.declared.toNat
    let lines := significant p.clauses
    match placeAll n lines .empty with
    | .ok roots registry => .ok ⟨n, registry, lines.map stripped, roots⟩
    | .error e _ => .error (.assembly e)

/-- The circuit of clause lines over a variable count that may be of any kind. -/
def ofClauses (clauses : List String) : Count → Except CircuitError Circuit
  | .integer n => ofProgram ⟨n, clauses⟩
  | .other kind => .error (.notInteger kind)

/-- The circuit of a program text. -/
def ofText (text : String) : Except CircuitError Circuit :=
  match Program.parse text with
  | .ok p => ofProgram p
  | .error e => .error (.program e)

/-- The circuit of a DIMACS document, with the remarks on the document. -/
def ofDimacs (text : String) : Except CircuitError Circuit × List Warning :=
  match Dimacs.parse text with
  | .ok cnf => (ofProgram cnf.toProgram, cnf.warnings)
  | .error e => (.error (.dimacs e), [])

/-- The inputs, in the order of the variables. -/
def inputs (c : Circuit) : List Ref := inputsOf c.numVars

/-- The nodes of the circuit. -/
def net (c : Circuit) : Netlist := c.registry.net

/-- Assembles a further clause in the registry and returns its root.  It does not join the circuit's own
clauses, and what a rejected clause had placed stays. -/
def assemble (c : Circuit) (clause : String) : Except AssemblyError Ref × Circuit :=
  match Assembly.assemble c.numVars (sigmoidOf c.numVars) clause c.registry with
  | .ok root registry => (.ok root, { c with registry := registry })
  | .error e registry => (.error e, { c with registry := registry })

/-- A circuit in brief. -/
def brief (c : Circuit) : String :=
  s!"ComputationGraph(n_vars={c.numVars}, n_clauses={c.roots.length}, nodes={c.registry.size})"

end Circuit

end SoftLogic
