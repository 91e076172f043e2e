import DocGraph.Ninja.Statement
import DocGraph.Tree.Basic
import DocGraph.Yaml.Value

/-!
# DocGraph.Command.Basic

Commands turn inputs and outputs into build statements.

* `Surroundings`  — what a command can consult: the file tree, and the interpreter that describes
  scripts.
* `Generated`     — entries of the build file, and the paths that were consulted for them.
* `Command`       — rules and pools, and a way to read an argument. What it reads is an `Action`,
  which does the rest.
* `CommandError`  — why a command refuses its inputs, outputs or argument.
* `Registry`      — sets of commands that configuration files import by name.
-/

namespace DocGraph

/-- How the description of a script came out. -/
structure Inspection where
  output : String
  errors : String
  exitCode : Nat
deriving DecidableEq

/-- The interpreter, which is asked in a directory about the script with a given name. -/
abbrev Interpreter := (directory name : String) → Inspection

/-- What a command can consult. -/
structure Surroundings where
  tree : Tree
  interpreter : Option Interpreter

/-- What a command produces for one set of inputs and outputs. -/
structure Generated where
  entries : List Entry
  /-- Files that were read for the entries, or would have been if they were there. -/
  gendeps : List Path := []

/-- What a command produces that consists of one statement. -/
def Generated.ofStatement (s : Statement) : Generated := ⟨[.build s], []⟩

/-- Why a command refuses. -/
inductive CommandError where
  /-- The argument does not have the form that the command wants. -/
  | malformedArgument (command : String)
  /-- Any reason of a command of its own. -/
  | failed (message : String)
  | notSingle (what : String) (got : List Path)
  | unexpectedOutputs (got : List Path)
  | wrongEnding (what ending : String) (got : Path)
  | manyDestinations (got : List Path)
  | needsDirectory (got : List Path)
  | outputRequired
  | needsTwoSources
  | needsTemplate (got : List Path)
  | needsConstants (got : List Path)
  | nothingToArchive
  | nothingToMerge
  | needsNotesPage (got : List Path)
  | emptyGrid (rows columns : Nat)
  | notDocument (got : Path)
  | unreadable (path : Path)
  | missingKeyword
  | unknownKeyword (word : String)
  | noInterpreter (path : Path)
  | inspectionFailed (path : Path) (errors : String)
  | badDescription (path : Path)
  | badCaseName (path : Path) (name : String)
  /-- An error inside a file. -/
  | inFile (path : Path) (error : CommandError)
deriving DecidableEq

namespace CommandError

/-- Paths as they are named in errors. -/
def listed (got : List Path) : String := if got.isEmpty then "nothing" else Path.spaced got

/-- What starts a line with directions inside a shell script. -/
def directive : String := "#PAPERWEAVE"

/-- The reasons of an error, outermost first. -/
def causes : CommandError → List String
  | malformedArgument command => [s!"Malformed argument for command '{command}'"]
  | failed message => [message]
  | notSingle what got => [s!"Expecting one {what}, got: " ++ listed got]
  | unexpectedOutputs got => ["Expected no outputs, got: " ++ listed got]
  | wrongEnding what ending got => [s!"The {what} must end with {ending}, got {got.text}"]
  | manyDestinations got => ["Expecting at most one destination, got: " ++ listed got]
  | needsDirectory got => ["Need a directory output for multiple inputs, got: " ++ listed got]
  | outputRequired => ["Output required because the extension does not change"]
  | needsTwoSources => ["Command latex_diff requires two inputs, the new and the old source"]
  | needsTemplate got => ["At least two inputs are required, got: " ++ listed got]
  | needsConstants got =>
    ["At least two inputs are required (template and one or more constants JSON), got: " ++
      listed got]
  | nothingToArchive => ["Expecting at least one file to archive"]
  | nothingToMerge => ["Expecting at least one input PDF"]
  | needsNotesPage got =>
    ["Expecting two input PDFs, the document and the notes page, got: " ++ listed got]
  | emptyGrid rows columns =>
    [s!"The number of rows and columns must be positive, got {rows}x{columns}"]
  | notDocument got =>
    [s!"The inputs for check_hrefs must be Markdown or PDF files, got {got.text}"]
  | unreadable path => [s!"Couldn't read {path.text}"]
  | missingKeyword => ["Missing keyword after " ++ directive]
  | unknownKeyword word => ["Unsupported keyword: " ++ directive ++ " " ++ word]
  | noInterpreter path => [s!"Couldn't run python3 to inspect {path.text}"]
  | inspectionFailed path errors => [s!"Inspecting {path.text} failed:\n{errors}"]
  | badDescription path => [s!"Unexpected description of {path.text}"]
  | badCaseName path name =>
    [s!"Case names of {path.text} can't be empty or contain whitespace, got '{name}'"]
  | inFile path error => s!"In {path.text}" :: causes error

end CommandError

/-- What a command does with inputs and outputs once its argument has been read. -/
abbrev Action :=
  (around : Surroundings) → (inputs outputs : List Path) → Except CommandError Generated

structure Command where
  name : String
  rules : Table Rule
  pools : Table Pool := ∅
  /-- The action for an argument; an absent argument counts as null. -/
  action? : Yaml.Value → Option Action

def Command.prepare (c : Command) (arg : Option Yaml.Value) : Except CommandError Action :=
  match c.action? (arg.getD .null) with
  | some action => .ok action
  | none => .error (.malformedArgument c.name)

abbrev Registry := Table (List Command)

end DocGraph
