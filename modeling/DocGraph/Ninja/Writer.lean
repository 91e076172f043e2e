import DocGraph.Ninja.Statement

/-!
# DocGraph.Ninja.Writer

The text of Ninja files.

* `escapePath`    — a path in a `build` or `default` line. A dollar stands before every dollar,
  blank and colon.
* `Writer.build`  — a statement: one line with the paths, and one for every variable with a value.
* `Writer.rule`, `Writer.pool`, `Writer.comment`, `Writer.default` — the other declarations.
-/

namespace DocGraph
namespace Ninja

def escapeChar (c : Char) : List Char := if c = '$' || c = ' ' || c = ':' then ['$', c] else [c]

def escapePath (p : Path) : String := String.ofList (p.text.toList.flatMap escapeChar)

namespace Writer

def newline : String := "\n"

def commentLine (line : String) : String := if line.isEmpty then "#\n" else "# " ++ line ++ "\n"

def comment (text : String) : String := String.join ((Text.lines text).map commentLine)

/-- A variable, unless its value is empty. -/
def variableAt (indent : Nat) (key value : String) : String :=
  if value.isEmpty then ""
  else String.ofList (List.replicate (2 * indent) ' ') ++ key ++ " = " ++ value ++ "\n"

/-- A variable below a declaration. -/
def binding (key value : String) : String := variableAt 1 key value

/-- A variable that may be absent. -/
def bindingOf (key : String) (value : Option String) : String :=
  match value with
  | some v => binding key v
  | none => ""

/-- A variable that is set or absent. -/
def flag (key : String) (value : Bool) : String := if value then binding key "1" else ""

def pool (name : String) (p : Pool) : String :=
  "pool " ++ name ++ "\n" ++ binding "depth" (toString p.depth)

def rule (name : String) (r : Rule) : String :=
  "rule " ++ name ++ "\n" ++ binding "command" r.command ++ bindingOf "description" r.description ++
    bindingOf "depfile" r.depfile ++ bindingOf "deps" r.deps ++ bindingOf "pool" r.pool ++
    flag "generator" r.generator ++ flag "restat" r.restat

/-- Paths, each behind a blank. -/
def paths (l : List Path) : String := String.join (l.map fun p => " " ++ escapePath p)

/-- Paths behind a mark, or nothing without paths. -/
def marked (mark : String) (l : List Path) : String := if l.isEmpty then "" else mark ++ paths l

def buildLine (s : Statement) : String :=
  "build" ++ paths s.outputs ++ marked " |" s.implicitOutputs ++ ": " ++ s.rule ++
    paths s.inputs ++ marked " |" s.implicit ++ marked " ||" s.orderOnly ++ "\n"

/-- The lines behind the first line of a statement. -/
def bindings (s : Statement) : String :=
  bindingOf "pool" s.pool ++ bindingOf "depfile" s.depfile ++
    String.join (s.vars.toList.map fun e => binding e.1 e.2)

def build (s : Statement) : String := buildLine s ++ bindings s

/-- The line with the targets that are built when none are named. -/
def default (l : List Path) : String := "default" ++ paths l ++ "\n"

end Writer
end Ninja
end DocGraph
