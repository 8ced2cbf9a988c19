import SoftLogic.Decimal.Real
import SoftLogic.Solver.Config

/-!
# Command-line arguments

There are three commands, each with one input and with options of its own:

* `solve INPUT [--dimacs] [--optimizer X] [--iterations N] [--learning-rate F] [--seed N] [--verbose]`;
* `convert INPUT`;
* `stats INPUT [--dimacs] [--detailed]`.

Options and the input come in any order, and `-h` or `--help` may also come before the command.  A value
follows its option as the next argument or after an equals sign.  The name of an option may be cut short as
long as no other option starts like it.  An argument is an operand, and not an option, if it does not start
with a minus sign, is a minus sign alone, looks like a negative number, has a space in it, or comes after
`--`.  A later option wins over an earlier one.

The arguments of a command are cut into pieces, and the pieces are read from left to right.  The first one
that asks for help, or that cannot be read, ends the matter.  An argument that nobody has a use for is
reported only at the end.
-/

namespace SoftLogic

/-- What a command line asks for. -/
inductive Request
  /-- Minimise the cost of a clause file and print the truth values. -/
  | solve (input : String) (dimacs : Bool) (settings : Settings Float)
  /-- Turn a DIMACS document into a program text. -/
  | convert (input : String)
  /-- Print the statistics of a clause file. -/
  | stats (input : String) (dimacs detailed : Bool)
  deriving Repr

/-- The file name that a request reads. -/
def Request.input : Request → String
  | .solve input .. | .convert input | .stats input .. => input

namespace Arguments

/-- Why a command line is no request. -/
inductive Declined
  /-- It asks for help. -/
  | help
  /-- It makes no sense. -/
  | usage
  deriving DecidableEq, Repr

/-- The options without a value. -/
inductive Flag
  | help
  | dimacs
  | verbose
  | detailed
  deriving DecidableEq, Repr

/-- The options with a value. -/
inductive Parameter
  | optimizer
  | iterations
  | learningRate
  | seed
  deriving DecidableEq, Repr

/-- An option. -/
inductive Switch
  | flag (flag : Flag)
  | parameter (parameter : Parameter)
  deriving DecidableEq, Repr

/-- The options of a command by name. -/
abbrev Options := List (String × Switch)

/-- The options that every command has, and that are there before the command. -/
def commonOptions : Options := [("-h", .flag .help), ("--help", .flag .help)]

/-! ### Single arguments -/

/-- What one argument is. -/
inductive Kind
  | operand
  /-- An option, with a value if the argument holds one. -/
  | option (switch : Switch) (inline : Option String)
  /-- It has the form of an option, and there is none of that name. -/
  | unknown
  /-- It has the form of an option, and there are several of that name. -/
  | ambiguous
  deriving DecidableEq, Repr

/-- A decimal digit of any script. -/
def isDigit (c : Char) : Bool := (Text.digit? c).isSome

/-- A minus sign with digits, or with a point and digits after it; a line feed may end it. -/
def isNegativeNumber : List Char → Bool
  | '-' :: rest =>
    let body := if rest.getLast? = some '\n' then rest.dropLast else rest
    match body.dropWhile isDigit with
    | [] => !body.isEmpty
    | '.' :: places => !places.isEmpty && places.all isDigit
    | _ => false
  | _ => false

/-- An argument before its first equals sign, and after it if there is one. -/
def splitAssignment (cs : List Char) : String × Option String :=
  let name := String.ofList (cs.takeWhile (· ≠ '='))
  match cs.dropWhile (· ≠ '=') with
  | [] => (name, none)
  | _ :: value => (name, some (.ofList value))

/-- What an argument with a minus sign in front is if it names no option. -/
def unnamed (cs : List Char) : Kind :=
  if isNegativeNumber cs || cs.contains ' ' then .operand else .unknown

/-- The short option for help with text behind it, which may only repeat the letter. -/
def shortHelp (text : List Char) : Kind :=
  if text ≠ [] ∧ text.all (· = 'h') then .option (.flag .help) none
  else .option (.flag .help) (some (.ofList text))

/-- What an argument is that starts with two minus signs and is no full name of an option. -/
def shortened (options : Options) (cs : List Char) : Kind :=
  let (name, inline) := splitAssignment cs
  match options.filter fun option => name.toList.isPrefixOf option.1.toList with
  | [] => unnamed cs
  | [(_, switch)] => .option switch inline
  | _ => .ambiguous

/-- What an argument is to a command with these options. -/
def kind (options : Options) (arg : String) : Kind :=
  match arg.toList with
  | '-' :: c :: rest =>
    match options.lookup arg, splitAssignment ('-' :: c :: rest) with
    | some switch, _ => .option switch none
    | none, ("-h", some text) => shortHelp text.toList
    | none, (name, inline) =>
      match inline.bind fun _ => options.lookup name with
      | some switch => .option switch inline
      | none =>
        if c = '-' then shortened options ('-' :: c :: rest)
        else if c = 'h' then shortHelp rest
        else unnamed ('-' :: c :: rest)
  | _ => .operand

/-! ### Pieces -/

/-- A piece of a command line, which may be more than one argument. -/
inductive Piece
  | input (name : String)
  | flag (flag : Flag)
  /-- An option with its value, none if that was left blank. -/
  | parameter (parameter : Parameter) (value : Option String)
  /-- An option with a value it does not take, or without the one it does. -/
  | misuse
  /-- An argument that nobody has a use for. -/
  | leftover
  deriving DecidableEq, Repr

/-- A value in the argument of its option.  A `--` there stands for a blank. -/
def inlineValue (text : String) : Option String := if text = "--" then none else some text

/-- Arguments after the input and `--`. -/
def leftovers (args : List String) : List Piece := args.map fun _ => .leftover

/-- Cuts the arguments of a command into pieces, up to the first misuse.  One `--` in front of the input or
right behind it is dropped. -/
def pieces (options : Options) (hasInput : Bool) : List String → List Piece
  | [] => []
  | "--" :: rest =>
    match hasInput, rest with
    | true, _ => .leftover :: leftovers rest
    | false, [] => []
    | false, arg :: rest => .input arg :: leftovers rest
  | arg :: rest =>
    match kind options arg with
    | .operand =>
      if hasInput then .leftover :: pieces options true rest
      else
        match rest with
        | "--" :: rest => .input arg :: leftovers rest
        | rest => .input arg :: pieces options true rest
    | .option (.flag flag) none => .flag flag :: pieces options hasInput rest
    | .option (.flag _) (some _) => [.misuse]
    | .option (.parameter p) (some text) =>
      .parameter p (inlineValue text) :: pieces options hasInput rest
    | .option (.parameter p) none =>
      match rest with
      | [] => [.misuse]
      | value :: rest =>
        if value ≠ "--" ∧ kind options value = .operand then
          .parameter p (some value) :: pieces options hasInput rest
        else [.misuse]
    | .unknown => .leftover :: pieces options hasInput rest
    | .ambiguous => [.misuse]

/-! ### Reading -/

/-- What the pieces so far ask for. -/
structure Draft where
  input : Option String
  dimacs : Bool
  detailed : Bool
  settings : Settings Float
  hasLeftover : Bool

/-- Before the first piece. -/
def Draft.start : Draft := ⟨none, false, false, .default, false⟩

/-- Reads a value, unless it was left blank. -/
def readValue {α : Type} (read : List Char → Option α) : Option String → Except Declined (Option α)
  | none => .ok none
  | some text =>
    match read text.toList with
    | some value => .ok (some value)
    | none => .error .usage

/-- Raises a flag. -/
def Draft.raise (d : Draft) : Flag → Except Declined Draft
  | .help => .error .help
  | .dimacs => .ok { d with dimacs := true }
  | .verbose => .ok { d with settings.verbose := true }
  | .detailed => .ok { d with detailed := true }

/-- Assigns a value.  A blank seed is zero. -/
def Draft.assign (d : Draft) (value : Option String) : Parameter → Except Declined Draft
  | .optimizer => .ok { d with settings.optimizer := value }
  | .iterations => do
    let iterations ← readValue Text.readInt value
    return { d with settings.iterations := iterations }
  | .learningRate => do
    let rate ← readValue Decimal.readReal value
    return { d with settings.learningRate := rate }
  | .seed => do
    let seed ← readValue Text.readInt value
    return { d with settings.seed := some (seed.getD 0) }

/-- Reads one piece. -/
def Draft.add (d : Draft) : Piece → Except Declined Draft
  | .input name => .ok { d with input := some name }
  | .flag flag => d.raise flag
  | .parameter p value => d.assign value p
  | .misuse => .error .usage
  | .leftover => .ok { d with hasLeftover := true }

/-- Reads the arguments of a command.  An ambiguous one spoils them all. -/
def read (options : Options) (args : List String) : Except Declined (String × Draft) := do
  if (args.takeWhile (· ≠ "--")).any fun arg => kind options arg = .ambiguous then throw .usage
  let draft ← (pieces options false args).foldlM Draft.add .start
  match draft.input, draft.hasLeftover with
  | some input, false => return (input, draft)
  | _, _ => throw .usage

/-- Reads the arguments of `solve`. -/
def solve (args : List String) : Except Declined Request := do
  let (input, draft) ← read (commonOptions ++ [
    ("--dimacs", .flag .dimacs), ("--optimizer", .parameter .optimizer),
    ("--iterations", .parameter .iterations), ("--learning-rate", .parameter .learningRate),
    ("--seed", .parameter .seed), ("--verbose", .flag .verbose)]) args
  return .solve input draft.dimacs draft.settings

/-- Reads the arguments of `convert`. -/
def convert (args : List String) : Except Declined Request := do
  let (input, _) ← read commonOptions args
  return .convert input

/-- Reads the arguments of `stats`. -/
def stats (args : List String) : Except Declined Request := do
  let (input, draft) ← read (commonOptions ++ [
    ("--dimacs", .flag .dimacs), ("--detailed", .flag .detailed)]) args
  return .stats input draft.dimacs draft.detailed

end Arguments

open Arguments in
/-- Reads a command line.  Before the command there can only be options, of which only the one for help is
known; any other one spoils the command line unless it asks for help later on. -/
def Request.ofArguments : List String → Except Declined Request
  | [] | "--" :: _ => .error .usage
  | "solve" :: args => Arguments.solve args
  | "convert" :: args => Arguments.convert args
  | "stats" :: args => Arguments.stats args
  | arg :: args =>
    match kind commonOptions arg with
    | .option _ none => .error .help
    | .unknown =>
      match ofArguments args with
      | .error .help => .error .help
      | _ => .error .usage
    | _ => .error .usage

end SoftLogic
