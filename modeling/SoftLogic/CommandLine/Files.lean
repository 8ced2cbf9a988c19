import SoftLogic.Text.Quoted

/-!
# Files by name

The files of one directory as a list of names and contents, and why a name could not be read.  A name is
cleaned before use: repeated slashes, a slash at the end and parts that are a single point go away.

A name is followed part by part, and the first part that leads nowhere is the one that is reported.  What
lies outside of the directory is not known, apart from there being a directory above.
-/

namespace SoftLogic

/-- Why a file was not read; the name is the cleaned one. -/
inductive FileError
  | missing (name : String)
  | directory (name : String)
  /-- A part before the last one is a file. -/
  | notDirectory (name : String)
  /-- The name, or a part of it, has too many bytes. -/
  | tooLong (name : String)
  /-- The name has a character that no file name has. -/
  | nullByte
  /-- Any other reason, in the words of the system. -/
  | other (reason : String)
  deriving DecidableEq, Repr

/-- The wording of a refusal. -/
def FileError.message : FileError → String
  | .missing name => s!"[Errno 2] No such file or directory: {Text.quoted name}"
  | .directory name => s!"[Errno 21] Is a directory: {Text.quoted name}"
  | .notDirectory name => s!"[Errno 20] Not a directory: {Text.quoted name}"
  | .tooLong name => s!"[Errno 36] File name too long: {Text.quoted name}"
  | .nullByte => "embedded null byte"
  | .other reason => reason

/-- Names with contents. -/
abbrev Files := List (String × String)

namespace Files

/-- The most bytes of a name. -/
def maxNameBytes : Nat := 4095

/-- The most bytes of one part of a name. -/
def maxPartBytes : Nat := 255

/-- The parts of a name. -/
def parts (name : String) : List String :=
  (name.splitOn "/").filter fun part => part ≠ "" ∧ part ≠ "."

/-- The slashes that a name from the root starts with; two stay two, and more are as good as one. -/
def root (name : String) : String :=
  match name.toList.takeWhile (· = '/') with
  | [] => ""
  | ['/', '/'] => "//"
  | _ => "/"

/-- The cleaned name. -/
def clean (name : String) : String :=
  match root name ++ String.intercalate "/" (parts name) with
  | "" => "."
  | cleaned => cleaned

/-- Where the parts of a name have led to. -/
inductive Place
  /-- A directory at or below the one that holds the files, with the parts that lead there. -/
  | inside (parts : List String)
  /-- A directory elsewhere. -/
  | outside
  /-- A file with its content. -/
  | file (content : String)
  deriving DecidableEq, Repr

/-- Looks a part up in a directory at or below the one that holds the files. -/
def lookUp (files : Files) (name : String) (here : List String) (part : String) : Except FileError Place :=
  let there := here ++ [part]
  if maxPartBytes < part.utf8ByteSize then .error (.tooLong name)
  else
    match files.find? fun file => parts file.1 = there with
    | some file => .ok (.file file.2)
    | none =>
      if files.any fun file => there.isPrefixOf (parts file.1) then .ok (.inside there)
      else .error (.missing name)

/-- Follows one part of a name. -/
def follow (files : Files) (name : String) : Place → String → Except FileError Place
  | .file _, _ => .error (.notDirectory name)
  | .outside, ".." | .inside [], ".." => .ok .outside
  | .outside, part => if maxPartBytes < part.utf8ByteSize then .error (.tooLong name) else .error (.missing name)
  | .inside here, ".." => .ok (.inside here.dropLast)
  | .inside here, part => lookUp files name here part

/-- Reads a file by name. -/
def read (files : Files) (name : String) : Except FileError String :=
  let cleaned := clean name
  let start : Place := if root name = "" then .inside [] else .outside
  if name.contains '\x00' then .error .nullByte
  else if maxNameBytes < cleaned.utf8ByteSize then .error (.tooLong cleaned)
  else
    match (parts name).foldlM (follow files cleaned) start with
    | .error e => .error e
    | .ok (.file content) => .ok content
    | .ok _ => .error (.directory cleaned)

end Files

end SoftLogic
