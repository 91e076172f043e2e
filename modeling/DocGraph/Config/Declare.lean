import DocGraph.Config.Scope
import DocGraph.Task.Basic

/-!
# DocGraph.Config.Declare

The tasks of an entry of a configuration file.

* `BuildEntry.constants` — the variables that hold for all tasks of the entry.
* `BuildEntry.task`      — the task of one round of its loops.
* `BuildEntry.tasks`     — the tasks of all rounds.
-/

namespace DocGraph
namespace BuildEntry

/-- The name of the command, and whether its results are built by default. -/
def commandName (e : BuildEntry) : String × Bool :=
  match Text.stripPrefix? "_" e.command with
  | some name => (name, false)
  | none => (e.command, true)

def findCommand (e : BuildEntry) (s : Scope) : Except ConfigError Command :=
  let name := e.commandName.1
  if !Text.isIdentifier name then .error (.invalidName "command" e.command)
  else match s.commands.get? name with
    | some c => .ok c
    | none => .error (.unknownCommand name)

/-- The variables that hold for all tasks of an entry. Overrides do not see each other. -/
def constants (e : BuildEntry) (s : Scope) : Except ConfigError Variables :=
  e.overrides.toList.foldlM (fun vars (name, value) => do
    if !Text.isIdentifier name then throw (.invalidName "variable" name)
    let value ← (Template.substitute value s.vars.lookup).mapError .template
    return vars.set name value) s.vars

/-- A path of an entry, relative to the root of the project. -/
def resolve (v : Lookup) (path : String) : Except ConfigError String :=
  (Template.resolvePath path v).mapError .template

def input (v : Lookup) (path : String) : Except ConfigError Pattern := do
  (Pattern.compile (← resolve v path)).mapError .pattern

/-- The task of one round of the loops. -/
def task (e : BuildEntry) (c : Command) (constants round : Variables) :
    Except ConfigError Task := do
  let v := Variables.layered round constants
  let t ← Task.declare c (← e.inputs.mapM (input v)) e.argument
  let t ← { t with
    isDefault := e.commandName.2
    isOptional := e.isOptional
    builtInputsOnly := e.builtInputsOnly
    after := e.barriers }.withConstants constants
  match e.outputs.head? with
  | some path => return { t with output := some (← resolve v path) }
  | none => return t

/-- The tasks of all rounds. -/
def tasks (e : BuildEntry) (s : Scope) : Except ConfigError (List Task) := do
  let c ← e.findCommand s
  let constants ← e.constants s
  if 1 < e.outputs.length then throw (.manyOutputs e.commandName.1 e.outputs)
  (← LoopTable.combinations e.loops).mapM (e.task c constants)

end BuildEntry
end DocGraph
