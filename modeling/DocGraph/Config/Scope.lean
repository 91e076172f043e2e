import DocGraph.Config.Entry
import DocGraph.Config.Error
import DocGraph.Config.File
import DocGraph.Yaml.Shown

/-!
# DocGraph.Config.Scope

What names mean in a directory.

* `Project`              — what all directories share.
* `Scope`                — a directory with its variables and its commands.
* `Scope.variablesIn`    — the variables of a directory. The first definition of a name counts:
  `here` and `root`, then the environment, then the file, then the directory above.
* `Scope.importCommands` — the commands of a directory. Imports take the place of what the
  directory above has under the same names.
* `LoopTable.combinations` — the variables of every round of loops.
-/

namespace DocGraph

/-- What all directories share. -/
structure Project where
  /-- The absolute path of the working directory. -/
  root : String
  registry : Registry
  /-- Variables that are set from outside. -/
  environment : Variables := ∅

/-- What names mean in a directory. -/
structure Scope where
  here : Path
  vars : Variables
  commands : Table Command

namespace Scope

/-- Define a variable unless it is defined. The value may refer to variables so far and to
inherited ones. -/
def define (inherited vars : Variables) (name value : String) : Except ConfigError Variables :=
  if vars.contains name then .ok vars
  else match Template.substitute value (Variables.layered vars inherited) with
    | .ok value => .ok (vars.set name value)
    | .error e => .error (.template e)

/-- Define a variable of the environment, whose name need not be an identifier. -/
def defineFromEnvironment (inherited vars : Variables) (e : String × String) :
    Except ConfigError Variables :=
  if Text.isIdentifier e.1 then define inherited vars e.1 e.2 else .ok vars

def declare (inherited vars : Variables) (e : Yaml.Value × Yaml.Value) :
    Except ConfigError Variables :=
  match e.1.text? with
  | none => .error (.invalidName "variable" e.1.shown)
  | some name =>
    if !Text.isIdentifier name then .error (.invalidName "variable" name)
    else match e.2.text? with
      | none => .error (.notText name)
      | some value => define inherited vars name value

def variablesIn (p : Project) (here : Path) (inherited : Variables)
    (declared : List (Yaml.Value × Yaml.Value)) : Except ConfigError Variables := do
  let vars : Variables := Table.ofPairs [("here", here.text), ("root", p.root)]
  let vars ← p.environment.toList.foldlM (defineFromEnvironment inherited) vars
  let vars ← declared.foldlM (declare inherited) vars
  return vars.union inherited

/-- Commands by their names, of which the last ones count. -/
def overlay (commands : Table Command) (set : List Command) : Table Command :=
  commands.putMany (set.map fun c => (c.name, c))

/-- The commands of a directory with the imports of its file. -/
def importCommands (registry : Registry) (inherited : Table Command) (imports : List String) :
    Except ConfigError (Table Command) :=
  imports.foldlM (fun commands name =>
    match registry.get? name with
    | some set => .ok (overlay commands set)
    | none => .error (.unknownImport name)) inherited

/-- The scope of a directory with a configuration file, below another one. -/
def enter (p : Project) (above : Scope) (here : Path) (file : ConfigFile) :
    Except ConfigError Scope := do
  let vars ← variablesIn p here above.vars file.vars
  let commands ← importCommands p.registry above.commands file.imports
  return ⟨here, vars, commands⟩

end Scope

namespace LoopTable

/-- Refuse keys that are no identifiers, and rows that do not match the keys. -/
def check (t : LoopTable) : Except ConfigError Unit :=
  match t.keys.find? fun k => !Text.isIdentifier k with
  | some key => .error (.invalidName "loop variable" key)
  | none =>
    match t.rows.find? fun row => row.length != t.keys.length with
    | some row => .error (.loopRow row t.keys)
    | none => .ok ()

/-- Variables with those of a row. -/
def assign (t : LoopTable) (vars : Variables) (row : List String) : Variables :=
  vars.putMany (t.keys.zip row)

/-- Go through all rows of a table in every round of the tables before it. -/
def extend (rounds : List Variables) (t : LoopTable) : Except ConfigError (List Variables) :=
  t.check.map fun _ => rounds.flatMap fun vars => t.rows.map (t.assign vars)

/-- The variables of every round of loops. The first table varies slowest. -/
def combinations (tables : List LoopTable) : Except ConfigError (List Variables) :=
  tables.foldlM extend [∅]

end LoopTable
end DocGraph
