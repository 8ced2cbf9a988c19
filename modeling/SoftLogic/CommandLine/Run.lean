import SoftLogic.Circuit.Summary
import SoftLogic.CommandLine.Arguments
import SoftLogic.CommandLine.Console

/-!
# Running a command

A command reads its input and prints, statement by statement, until it is through or fails.  Its warnings come out on
the error channel, and if it fails, a line about why comes after them.  A command line that asks for help or for nothing
sensible is answered with its exit code alone, and a command for which a setting was left blank breaks off.
-/

namespace SoftLogic

/-- How a command line is answered. -/
inductive Reply
  /-- It asks for nothing sensible. -/
  | usage
  /-- It asks for help. -/
  | help
  /-- It was carried out, with or without success. -/
  | done (exit : Nat) (stdout : String) (stderr : List Diagnostic)
  /-- It broke off over a setting that was left blank. -/
  | aborted (setting : Setting) (stderr : List Diagnostic)

/-- The exit code of a reply. -/
def Reply.exitCode : Reply → Nat
  | .usage => 2
  | .help => 0
  | .done exit .. => exit
  | .aborted .. => 1

/-- The reply to a command line that is no request. -/
def Arguments.Declined.reply : Arguments.Declined → Reply
  | .help => .help
  | .usage => .usage

namespace Request

/-- The circuit of a text in either format, with the warnings on the way. -/
def parse (dimacs : Bool) (text : String) : Except CircuitError Circuit × List Warning :=
  if dimacs then Circuit.ofDimacs text else (Circuit.ofText text, [])

/-- The circuit of the input in either format. -/
def load (dimacs : Bool) (input : Except FileError String) : ConsoleM Circuit := do
  let parsed := parse dimacs (← Console.accept .file input)
  parsed.2.forM Console.warn
  let c ← Console.accept .circuit parsed.1
  modify fun s => { s with signals := c.signals }
  return c

/-- What `solve` prints about the variables. -/
def truthLines (truths : List Float) : List String :=
  truths.zipIdx.map fun (t, i) => s!"${i} = {Decimal.fixed 6 t}"

/-- Minimises the cost of the circuit and prints the truth values. -/
def solveInput (world : Surroundings) (input : Except FileError String) (dimacs : Bool) (settings : Settings Float) :
    ConsoleM Unit := do
  let c ← load dimacs input
  let config ← Console.accept .settings settings.check
  let truths ← Console.solve world c config
  (truthLines truths).forM Console.print

/-- Prints the program of a document. -/
def convertInput (input : Except FileError String) : ConsoleM Unit := do
  let text ← Console.accept .file input
  let cnf ← Console.accept (fun e => .circuit (.dimacs e)) (Dimacs.parse text)
  cnf.warnings.forM Console.warn
  let out ← Console.accept (fun e => .circuit (.unwritten e)) cnf.toProgram.render
  Console.write out

/-- Prints the summary of the circuit. -/
def summarizeInput (input : Except FileError String) (dimacs detailed : Bool) : ConsoleM Unit := do
  let c ← load dimacs input
  let summary ← Console.accept .fault (c.summary detailed)
  Console.print summary

/-- Carries out a request whose input was read or not. -/
def execute (world : Surroundings) (input : Except FileError String) : Request → ConsoleM Unit
  | .solve _ dimacs settings => solveInput world input dimacs settings
  | .convert _ => convertInput input
  | .stats _ dimacs detailed => summarizeInput input dimacs detailed

/-- Carries out a request and answers it. -/
def run (world : Surroundings) (input : Except FileError String) (request : Request) : Reply :=
  match request.execute world input .start with
  | .ok _ s => .done 0 s.printed s.diagnostics
  | .error (.settings (.blank setting)) s => .aborted setting s.diagnostics
  | .error e s => .done 1 s.printed (s.diagnostics ++ [.failure e.message])

/-- The input of a request: a minus sign stands for the standard input. -/
def readInput (files : Files) (stdin : String) (request : Request) : Except FileError String :=
  if request.input = "-" then .ok stdin else files.read request.input

end Request

/-- Answers a command line in a directory that holds the given files. -/
def Reply.ofCommandLine (world : Surroundings) (files : Files) (stdin : String) (args : List String) : Reply :=
  match Request.ofArguments args with
  | .error declined => declined.reply
  | .ok request => request.run world (request.readInput files stdin)

end SoftLogic
