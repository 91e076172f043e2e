import DocGraph.Graph.Error
import DocGraph.Path.Normal
import DocGraph.Task.Basic

/-!
# DocGraph.Task.PostProcess

From the statement of a command to one of the build graph.

* `overrideVariables` — configuration variables take the place of variables of the statement.
* `expandPath`, `expand` — placeholders are filled in, and absolute paths become relative.
* `missingInputs`     — inputs that may be missing, and are.
* `addDirectories`    — the rule also creates directories in which no input lives.
* `complete`          — the statement waits for the barriers of the task.
* `postProcess`       — all of this in order.
-/

namespace DocGraph

/-- What a task adds to the build file. -/
inductive Emitted where
  | comment (text : String)
  | build (statement : Statement) (isDefault : Bool)
deriving DecidableEq

namespace Task

/-- Variables of a statement, those of the configuration taking their place. -/
def overrideVariables (constants : Variables) (s : Statement) : Statement :=
  { s with vars := s.vars.mapValues fun key value => (constants.get? key).getD value }

/-- A path of a statement with its placeholders filled in, relative to the project. -/
def expandPath (constants : Variables) (p : Path) : Except Template.Error Path := do
  let expanded : Path := ⟨← Template.substitute p.text (Variables.lookup constants)⟩
  return match constants.get? "root" with
  | some root => if expanded.isAbsolute then expanded.relativeTo ⟨root⟩ else expanded.normalize
  | none => expanded.normalize

/-- A variable of a statement with its placeholders filled in. A path below the project becomes
relative. -/
def expandVariable (constants : Variables) (value : String) : String :=
  let expanded := Template.substituteSafe value (Variables.lookup constants)
  match constants.get? "root" with
  | some root =>
    if (Path.mk expanded).startsWith ⟨root⟩ then ((Path.mk expanded).relativeTo ⟨root⟩).text
    else expanded
  | none => expanded

/-- A statement with its placeholders filled in. -/
def expand (constants : Variables) (s : Statement) : Except Template.Error Statement := do
  let s ← s.mapPaths (expandPath constants)
  return { s with
    depfile := s.depfile.map fun d => Template.substituteSafe d (Variables.lookup constants)
    vars := s.vars.mapValues fun _ value => expandVariable constants value }

/-- Whether an input is there or will be built. -/
def isPresent (tree : Tree) (known : PathSet) (p : Path) : Bool :=
  known.contains p.components || tree.isFile p

/-- The inputs that may be missing, and are. -/
def missingInputs (t : Task) (tree : Tree) (known : PathSet) (s : Statement) : List Path :=
  (s.inputs ++ s.implicit).filter fun p =>
    !isPresent tree known p && t.ignoreMissing.any (·.isMatch p.text)

/-- The statement that stands in for one whose inputs are missing. -/
def placeholder (s : Statement) (missing : List Path) : Statement :=
  Statement.tidy {
    rule := Rule.errorMissing
    outputs := s.outputs
    implicitOutputs := s.implicitOutputs
    vars := Table.ofPairs [("missing", Path.spaced missing)] }

/-- The directories of paths. -/
def directories (paths : List Path) : TextSet := .ofList (paths.map fun p => p.parentDir.text)

/-- The directories of outputs in which no input lives. The project itself is there already. -/
def newDirectories (s : Statement) : List String :=
  ((directories s.allOutputs).diff ((directories (s.inputs ++ s.implicit)).insert ".")).toList

/-- The statement with a rule that creates the directories of its outputs, if any are needed. -/
def addDirectories (s : Statement) : Statement :=
  let dirs := newDirectories s
  if dirs.isEmpty then s
  else { s with
    rule := s.rule ++ Rule.mkdirSuffix
    vars := s.vars.set "dstdirs" (Text.spaced dirs) }

/-- The statement with directories for its outputs, in order, behind the barriers of the task. -/
def complete (t : Task) (s : Statement) : Statement :=
  let s := (if s.rule = Rule.phony then s else addDirectories s).tidy
  { s with orderOnly := s.orderOnly ++ t.after.map Path.mk }

/-- The statement of the build graph for one of the command. -/
def postProcess (t : Task) (tree : Tree) (known : PathSet) (s : Statement) :
    Except TaskFault Emitted := do
  if s.outputs.isEmpty then throw (.noOutputs s.rule)
  let s ← (expand t.constants (overrideVariables t.constants s)).mapError .template
  let missing := t.missingInputs tree known s
  if !missing.isEmpty then return .build (placeholder s missing) false
  let s := t.complete s
  return .build s (t.isDefault && s.rule != Rule.phony)

end Task
end DocGraph
