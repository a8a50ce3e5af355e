import SmithyIdl.ParsedModel

/-!
# The command line

Three commands: `check` prints a diagnostic for every error of a file, `tree` prints its syntax tree, and `at`
prints the narrowest node at a position. This module decides what is printed; it reads and prints nothing
itself.
-/

namespace SmithyIdl.CommandLine

/-- What to do with a file. -/
inductive Command where
  | check (path : String)
  | tree (path : String)
  | locate (path : String) (line column : Nat)
deriving DecidableEq

/-- What the command line asks for. -/
structure Options where
  command : Command
  maxDepth : Nat
deriving DecidableEq

/-- What became of reading a file. -/
inductive FileContents where
  | bytes (bytes : ByteArray)
  /-- The file could not be read, for the given reason. -/
  | unreadable (reason : String)

/-- What a run prints, and its exit status. -/
structure Report where
  status : Nat
  stdout : String
  stderr : String
deriving DecidableEq

/-- The number that an argument spells. -/
def number? (s : String) : Option Nat :=
  let digits := match s.toList with
    | '+' :: cs => cs
    | cs => cs
  if digits ≠ [] ∧ digits.all Char.isDigit then some (digitsValue digits) else none

/-- Takes the depth limit out of the arguments; `none` if it is no number. -/
def splitDepth : List String → Option (Option Nat × List String)
  | [] => some (none, [])
  | "--max-depth" :: n :: args => do
    let (_, rest) ← splitDepth args
    return (some (← number? n), rest)
  | arg :: args =>
    match "--max-depth=".isPrefixOf arg with
    | true => do
      let (_, rest) ← splitDepth args
      return (some (← number? (arg.drop "--max-depth=".length).toString), rest)
    | false => do
      let (depth, rest) ← splitDepth args
      return (depth, arg :: rest)

/-- The command that some arguments spell. -/
def command? : List String → Option Command
  | ["check", path] => some (.check path)
  | ["tree", path] => some (.tree path)
  | ["at", path, line, column] => do return .locate path (← number? line) (← number? column)
  | _ => none

/-- The options that some arguments spell. -/
def options? (args : List String) : Option Options := do
  let (depth, rest) ← splitDepth args
  return ⟨← command? rest, depth.getD defaultMaxDepth⟩

def Command.path : Command → String
  | check path | tree path | locate path _ _ => path

/-- What is printed about a file that cannot be used. -/
def failedToRead (path reason : String) : Report :=
  ⟨1, "", "Error: failed to read `" ++ path ++ "`\n\nCaused by:\n    " ++ reason ++ "\n"⟩

/-- The text of a file. -/
def textOf : FileContents → Except String String
  | .bytes bytes =>
    match String.fromUTF8? bytes with
    | some text => .ok text
    | none => .error "stream did not contain valid UTF-8"
  | .unreadable reason => .error reason

/-- Every diagnostic, on the error output. -/
def check (m : ParsedModel) (text : String) : Except Fault Report := do
  let diagnostics ← m.diagnostics
  let lines := diagnostics.map fun d => d.render .terminal m.filename text ++ "\n"
  return ⟨if diagnostics.isEmpty then 0 else 1, "", String.join lines⟩

/-- The dump of the tree. -/
def tree (m : ParsedModel) : Except Fault Report := do
  return ⟨if ← m.hasErrors then 1 else 0, ← m.dump, ""⟩

/-- The node at a position: where it was looked for, what it is and where it stands, its text, and the kinds
    of the nodes around it. -/
def nodeAt (line column : Nat) (filename : String) : Reading String := do
  let info ← Reading.info (← Reading.findAt line column SyntaxTree.root)
  let name := match info.token with
    | some token => token.describe
    | none => info.brief.kind.name
  let lines :=
    [filename ++ ":" ++ toString line ++ ":" ++ toString column,
      name ++ " " ++ info.start.describe ++ " - " ++ info.stop.describe,
      Escape.quoted info.text] ++
    info.ancestors.map fun b => "  in " ++ b.kind.name
  return String.join (lines.map (· ++ "\n"))

/-- Carries out a command on the text of its file. -/
def perform (o : Options) (text : String) : Except Fault Report := do
  let m ← parse o.command.path text o.maxDepth
  match o.command with
  | .check _ => check m text
  | .tree _ => tree m
  | .locate _ line column => return ⟨0, ← m.read (nodeAt line column m.filename), ""⟩

/-- What is printed when the arguments are not understood. -/
def usage : Report :=
  ⟨2, "", "Usage: (check PATH | tree PATH | at PATH LINE COLUMN) [--max-depth N]\n"⟩

/-- Carries out the options with what was found in their file. -/
def report (o : Options) (contents : FileContents) : Report :=
  match textOf contents with
  | .error reason => failedToRead o.command.path reason
  | .ok text =>
    match perform o text with
    | .ok report => report
    | .error why => ⟨101, "", why.message ++ "\n"⟩

end SmithyIdl.CommandLine
