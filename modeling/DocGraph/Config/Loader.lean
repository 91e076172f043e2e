import DocGraph.Config.Declare
import DocGraph.Plan

/-!
# DocGraph.Config.Loader

Configuration files in a tree of directories.

* `Loaded`         — the steps and the kept files of a directory and the directories it names.
* `Declared`       — what an entry of a file stands for.
* `enterDirectory` — reads the file of a directory, and finds its scope.
* `loadDirectory`  — goes through the entries of a directory, and on with the directories in it.
* `Project.load`   — reads all files of a project.
* `Project.generate` — reads all files, and writes the build file and the kept files.

Nothing keeps directories from naming each other in a circle. Loading may go on for ever then, so
it is a partial function.
-/

namespace DocGraph

/-- What a directory and the directories it names declare, in order. -/
structure Loaded where
  steps : List Step := []
  kept : List KeptFile := []

instance : Append Loaded := ⟨fun a b => ⟨a.steps ++ b.steps, a.kept ++ b.kept⟩⟩

/-- The configuration file of a directory. -/
def configPath (here : Path) : Path := (here.join ⟨ConfigFile.name⟩).normalize

/-- The variables of a directory, kept for scripts. -/
def Scope.kept (s : Scope) : KeptFile where
  path := (s.here.join ⟨".paperweave/variables.json"⟩).normalize
  content := (Json.object (s.vars.toList.map fun e => (e.1, .text e.2))).indented

def ConfigFile.read (tree : Tree) (path : Path) : Except ConfigError ConfigFile :=
  match (tree.read? path).bind Text.decode? with
  | none => .error .unreadable
  | some text =>
    match ConfigFile.parse? text with
    | some file => .ok file
    | none => .error .malformed

/-- Name the file of an error, unless an error names a file already. -/
def ConfigError.within (path : Path) : ConfigError → ConfigError
  | inFile p e => inFile p e
  | e => inFile path e

/-- What an entry stands for: steps, or a directory to go on with. -/
inductive Declared where
  | steps (steps : List Step)
  | directory (here : Path)

/-- What an entry stands for in a scope. -/
def Scope.declareEntry (s : Scope) (v : Yaml.Value) : Except ConfigError Declared :=
  match ConfigEntry.read? v with
  | none => .error .malformed
  | some (.directory path) => (BuildEntry.resolve s.vars.lookup path).map fun d => .directory ⟨d⟩
  | some (.barrier name) =>
    if Text.isIdentifier name then .ok (.steps [.barrier name])
    else .error (.invalidName "barrier" name)
  | some (.build e) => (e.tasks s).map fun tasks => .steps (tasks.map .build)

/-- The scope of a directory below another one, and the entries of its file. -/
def enterDirectory (p : Project) (tree : Tree) (above : Scope) (here : Path) :
    Except ConfigError (Scope × List Yaml.Value) := do
  let file ← ConfigFile.read tree (configPath here)
  return (← Scope.enter p above here file, file.tasks)

/-- An outcome in a directory. An error names the file of the directory. -/
def inDirectory {α : Type} (here : Path) (x : Except ConfigError α) : ExceptT ConfigError Option α :=
  ExceptT.mk (some (x.mapError (.within (configPath here))))

/-- Loading of a directory below a scope, which may come to nothing. -/
abbrev Descend := Scope → Path → Option (Except ConfigError Loaded)

section

variable (p : Project) (tree : Tree)

/-- What a directory and the directories it names declare, if they come to an end. -/
def loadDirectory (above : Scope) (here : Path) : Option (Except ConfigError Loaded) :=
  let loading : ExceptT ConfigError Option Loaded := do
    let (scope, entries) ← inDirectory here (enterDirectory p tree above here)
    let parts ← entries.mapM fun v => do
      match ← inDirectory here (scope.declareEntry v) with
      | .steps steps => return { steps }
      -- a recursive call in a term is marked with its position in the file, and the mark stays in
      -- the fixpoint; a name that is applied by the tactic has none
      | .directory dir => (by apply loadDirectory : Descend) scope dir
    return parts.foldl (· ++ ·) { kept := [scope.kept] }
  loading
partial_fixpoint

end

namespace Project

/-- The scope above the working directory, in which nothing is defined. -/
def outside : Scope := ⟨⟨"."⟩, ∅, ∅⟩

/-- Everything that the files of a project declare. There is nothing if loading never ends. -/
def load? (p : Project) (tree : Tree) : Option (Except ConfigError Loaded) :=
  loadDirectory p tree outside ⟨"."⟩

/-- Everything that the files of a project declare. Loading that never ends is no value of a
program, so what stands here for it is never seen. -/
def load (p : Project) (tree : Tree) : Except ConfigError Loaded :=
  (p.load? tree).getD (.error .tooDeep)

def plan (p : Project) (tree : Tree) : Except ConfigError Plan :=
  (p.load tree).map fun l => { steps := l.steps, kept := l.kept }

/-- Read the files of a project, and write its build file and the kept files. -/
def generate (p : Project) (around : Surroundings) : Written × Except ProjectError BuildFile :=
  match p.plan around.tree with
  | .error e => ({ tree := around.tree }, .error (.config e))
  | .ok plan => plan.write around

end Project
end DocGraph
