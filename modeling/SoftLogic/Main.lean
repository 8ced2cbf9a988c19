import SoftLogic.CommandLine.Run
import SoftLogic.Solver.QuasiNewton

/-!
# The program

Reads the command line and the input it names, and prints the reply.
-/

namespace SoftLogic

/-- Reads the input of a request from the standard input or from a file. -/
def readSystemInput (request : Request) : IO (Except FileError String) := do
  if request.input = "-" then
    return .ok (← (← IO.getStdin).readToEnd)
  else
    let name := Files.clean request.input
    try
      return .ok (← IO.FS.readFile name)
    catch
      | .noFileOrDirectory .. => return .error (.missing name)
      | e => return .error (.other e.toString)

/-- A search is a quasi-Newton search, and the arithmetic of `Float` warns of nothing. -/
def surroundings (entropy : Nat) : Surroundings := ⟨entropy, QuasiNewton.search, fun _ => []⟩

/-- The commands in one line. -/
def usageLine : String := "usage: solve INPUT | convert INPUT | stats INPUT"

/-- Prints on the error channel. -/
def printDiagnostics (diagnostics : List Diagnostic) : IO Unit :=
  diagnostics.forM fun d => IO.eprint d.text

/-- Prints a reply and gives its exit code. -/
def printReply (reply : Reply) : IO UInt32 := do
  match reply with
  | .usage => IO.eprintln usageLine
  | .help => IO.println usageLine
  | .done _ out err =>
    IO.print out
    printDiagnostics err
  | .aborted setting err =>
    printDiagnostics err
    IO.eprintln (SettingsError.blank setting).message
  return reply.exitCode.toUInt32

end SoftLogic

open SoftLogic in
/-- Answers the command line. -/
def main (args : List String) : IO UInt32 := do
  match Request.ofArguments args with
  | .error declined => printReply declined.reply
  | .ok request =>
    let entropy ← IO.monoNanosNow
    printReply (request.run (surroundings entropy) (← readSystemInput request))
