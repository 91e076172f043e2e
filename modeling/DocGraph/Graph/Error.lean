import DocGraph.Command.Basic
import DocGraph.Pattern.Basic
import DocGraph.Template

/-!
# DocGraph.Graph.Error

Why a build graph cannot be assembled.

* `TaskFault`  — why a task fails for its inputs.
* `GraphError` — why the graph as a whole fails.
-/

namespace DocGraph

/-- Why a task fails. -/
inductive TaskFault where
  | command (error : CommandError)
  | template (error : Template.Error)
  | pattern (error : PatternError)
  | noOutputs (rule : String)
deriving DecidableEq

/-- The reasons of a fault, outermost first. -/
def TaskFault.causes : TaskFault → List String
  | command error => error.causes
  | template error => [error.message]
  | pattern error => [error.message]
  | noOutputs rule => [s!"Build record for rule '{rule}' has no outputs"]

/-- Why a build graph cannot be assembled. -/
inductive GraphError where
  | task (description : String) (fault : TaskFault)
  | noMatch (description : String)
  /-- Some outputs of a statement are known and others are not. -/
  | ambiguous (new existing : List Path)
  | ruleConflict (name : String)
  | poolConflict (name : String)
  | unknownRule (name : String) (output : Path)
  | unknownBarrier (description barrier : String)
  | cycle (output : Path)
deriving DecidableEq

def GraphError.message : GraphError → String
  | task description fault => s!"Task {description}:\n" ++ fault.causes.head?.getD ""
  | noMatch description => s!"No files match the inputs of task {description}"
  | ambiguous new existing =>
    "A build statement partially overlaps with earlier build statements.\n  new: " ++
      Path.spaced new ++ "\n  existing: " ++ Path.spaced existing
  | ruleConflict name => s!"Rule '{name}' is defined twice with different parameters"
  | poolConflict name => s!"Pool '{name}' is defined twice with different parameters"
  | unknownRule name output => s!"Build statement for '{output.text}' uses unknown rule '{name}'"
  | unknownBarrier description barrier =>
    s!"Task {description} orders after barrier '{barrier}', which is not declared before it"
  | cycle output => s!"Dependency cycle involving '{output.text}'"

end DocGraph
