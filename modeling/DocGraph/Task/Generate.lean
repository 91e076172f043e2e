import DocGraph.Pattern.Correlate
import DocGraph.Task.PostProcess
import DocGraph.Tree.Listing

/-!
# DocGraph.Task.Generate

What a task adds to the build file.

* `candidates`    — for each input pattern, files on disk and everything that is built.
* `correlations`  — the assignments of named wildcards under which all patterns match.
* `generateMatch` — the entries for one assignment.
* `generate`      — the entries for all of them. Without any, an optional task leaves a comment.
-/

namespace DocGraph

/-- Entries for the build file, and the paths that were consulted for them. -/
structure TaskOutput where
  emitted : List Emitted := []
  gendeps : List Path := []
deriving DecidableEq

/-- The results of two runs together. -/
def TaskOutput.append (a b : TaskOutput) : TaskOutput :=
  ⟨a.emitted ++ b.emitted, a.gendeps ++ b.gendeps⟩

namespace Task

/-- The texts of known outputs. -/
def knownTexts (known : PathSet) : TextSet := .ofList (known.toList.map Path.text)

/-- What an input pattern can match. -/
def candidates (t : Task) (tree : Tree) (known : TextSet) (p : Pattern) :
    Except PatternError TextSet := do
  let files ← if t.builtInputsOnly then pure ∅ else tree.listing p
  return files.union known

/-- The assignments of named wildcards under which all input patterns match. -/
def matchInputs (t : Task) (tree : Tree) (known : PathSet) :
    Except PatternError (List Correlation) := do
  let texts := knownTexts known
  correlate t.inputs (← t.inputs.mapM (t.candidates tree texts))

/-- The output for an assignment. -/
def bindOutput (template : String) (b : Binding) : Except Template.Error Path := do
  let text ← Template.substitute template (Variables.lookup (Variables.ofWildcards b))
  return (Path.mk text).normalizeKeepingSlash

/-- The outputs for an assignment, of which there is at most one. -/
def bindOutputs (t : Task) (b : Binding) : Except Template.Error (List Path) :=
  t.output.toList.mapM fun template => bindOutput template b

/-- The comments in front of the statements for an assignment. -/
def comments (t : Task) (inputs outputs : List Path) : List Emitted :=
  ([some ("command: " ++ t.command.name), some ("inp: " ++ Path.spaced inputs),
    (listed outputs).map ("out: " ++ ·), t.argument.map ("arg: " ++ ·)].filterMap id).map .comment

/-- An entry of the command as one of the build file. -/
def emit (t : Task) (tree : Tree) (known : PathSet) : Entry → Except TaskFault Emitted
  | .comment text => .ok (.comment text)
  | .build s => t.postProcess tree known s

/-- What the command adds for matched inputs. -/
def generateMatch (t : Task) (around : Surroundings) (known : PathSet)
    (inputs outputs : List Path) : Except TaskFault TaskOutput := do
  let generated ← (t.action around inputs outputs).mapError .command
  let emitted ← generated.entries.mapM (t.emit around.tree known)
  return ⟨t.comments inputs outputs ++ emitted, generated.gendeps⟩

/-- What the task adds for one assignment. -/
def generateFor (t : Task) (around : Surroundings) (known : PathSet) (c : Correlation) :
    Except GraphError TaskOutput := do
  let inputs := c.paths.map Path.mk
  let outputs ← (t.bindOutputs c.binding).mapError fun e => .task t.describe (.template e)
  (t.generateMatch around known inputs outputs).mapError (.task (t.describeMatch inputs outputs))

/-- What the task adds for assignments, in order. -/
def generateAll (t : Task) (around : Surroundings) (known : PathSet) :
    List Correlation → Except GraphError TaskOutput
  | [] => .ok {}
  | c :: cs => do
    let first ← t.generateFor around known c
    return first.append (← generateAll t around known cs)

/-- What the task adds to the build file, where some outputs are known already. -/
def generate (t : Task) (around : Surroundings) (known : PathSet) :
    Except GraphError TaskOutput := do
  let found ← (t.matchInputs around.tree known).mapError fun e => .task t.describe (.pattern e)
  if found.isEmpty then
    if t.isOptional then return ⟨[.comment ("No matches for optional task " ++ t.describe)], []⟩
    else throw (.noMatch t.describe)
  else t.generateAll around known found

end Task
end DocGraph
