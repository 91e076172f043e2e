import DocGraph.Config.Error
import DocGraph.Graph.Assembly
import DocGraph.Tree.Write

/-!
# DocGraph.Plan

The plan of a build, and the files that it writes.

* `Plan`         — steps, the files kept for scripts, and settings of the build file.
* `Plan.targets` — what is to be written: the build file first, and then the kept files.
* `writeAll`     — writes files in order, each only if its content changed, up to the first failure.
* `Plan.write`   — assembles the graph and writes the targets. Without a graph nothing is written.
-/

namespace DocGraph

/-- A file that is kept for scripts. -/
structure KeptFile where
  path : Path
  content : String
deriving DecidableEq

structure Plan where
  steps : List Step
  kept : List KeptFile := []
  settings : Settings := {}

/-- Why a project cannot be built. -/
inductive ProjectError where
  | config (error : ConfigError)
  | graph (error : GraphError)
  | unwritable (path : Path)
  /-- Ninja cannot be started. -/
  | noNinja
deriving DecidableEq

def ProjectError.message : ProjectError → String
  | config error => error.message
  | graph error => "Error while generating the build graph.\n" ++ error.message
  | unwritable path => s!"Couldn't write {path.text}."
  | noNinja => "Couldn't run ninja."

/-- What has been written. -/
structure Written where
  tree : Tree
  /-- The files that were replaced or created, in order. -/
  replaced : List Path := []
  /-- The file that could not be written, which ends the run. -/
  failed : Option Path := none

/-- Write one more file, unless one has failed already. -/
def Written.add (w : Written) (file : KeptFile) : Written :=
  if w.failed.isSome then w
  else match w.tree.writeIfChanged file.path file.content.toUTF8 with
    | (tree, .unchanged) => { w with tree }
    | (tree, .replaced) => { w with tree, replaced := w.replaced ++ [file.path] }
    | (tree, .failed) => { w with tree, failed := some file.path }

/-- Write files in order, up to the first failure. -/
def writeAll (tree : Tree) (files : List KeptFile) : Written := files.foldl Written.add { tree }

namespace Plan

/-- The build graph of the plan. -/
def assemble (around : Surroundings) (p : Plan) : Except GraphError BuildFile :=
  DocGraph.assemble around p.settings p.steps

/-- What is to be written for a build file. -/
def targets (p : Plan) (file : BuildFile) : List KeptFile :=
  ⟨p.settings.buildFile, file.render⟩ :: p.kept

/-- Assemble the graph and write the build file and the kept files. -/
def write (around : Surroundings) (p : Plan) : Written × Except ProjectError BuildFile :=
  match p.assemble around with
  | .error e => ({ tree := around.tree }, .error (.graph e))
  | .ok file =>
    let w := writeAll around.tree (p.targets file)
    match w.failed with
    | some path => (w, .error (.unwritable path))
    | none => (w, .ok file)

end Plan
end DocGraph
