import DocGraph.Ninja.Writer

/-!
# DocGraph.Graph.BuildFile

The complete build graph.

* `Settings`           — where the build file goes, and how it is written again.
* `BuildFile`          — everything that a build file declares.
* `BuildFile.producer?` — the statement that makes a path.
* `BuildFile.render`   — the text of the build file.
-/

namespace DocGraph

/-- Where the build file goes, and the shell command that writes it again. -/
structure Settings where
  buildFile : Path := ⟨"build.ninja"⟩
  regenerate : String := "paperweave generate"
deriving DecidableEq

structure BuildFile where
  pools : Table Pool
  rules : Table Rule
  entries : List Entry
  defaults : List Path
  /-- Files that shaped the graph. -/
  gendeps : List Path
  /-- The rule and the statement that bring the build file up to date. -/
  regenerate : Option (Rule × Statement)
deriving DecidableEq

namespace BuildFile

/-- The name of the rule that writes the build file again. -/
def regenerateName : String := "regenerate"

/-- All build statements, without the one for the build file itself. -/
def builds (f : BuildFile) : List Statement := f.entries.filterMap Entry.statement?

/-- The statement that makes a path. -/
def producer? (f : BuildFile) (p : Path) : Option Statement :=
  f.builds.find? fun s => s.allOutputs.any fun o => decide (o.Same p)

open Ninja

def renderEntry : Entry → String
  | .comment text => Writer.comment text
  | .build s => Writer.build s ++ Writer.newline

def header : String :=
  Writer.comment "Generated by paperweave. Do not edit, changes will be overwritten." ++
    Writer.variableAt 0 "ninja_required_version" "1.10" ++ Writer.newline

def render (f : BuildFile) : String :=
  header ++
  String.join (f.pools.toList.map fun e => Writer.pool e.1 e.2 ++ Writer.newline) ++
  String.join (f.rules.toList.map fun e => Writer.rule e.1 e.2 ++ Writer.newline) ++
  String.join (f.entries.map renderEntry) ++
  (if f.defaults.isEmpty then "" else Writer.default f.defaults ++ Writer.newline) ++
  (match f.regenerate with
    | some (rule, statement) => Writer.rule regenerateName rule ++ Writer.build statement
    | none => "")

end BuildFile
end DocGraph
