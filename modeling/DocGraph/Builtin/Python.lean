import DocGraph.Builtin.Shape
import DocGraph.Json.Parser
import DocGraph.Path.Normal

/-!
# DocGraph.Builtin.Python

Python scripts that run in their own directory, once for every case they declare.

* `ScriptInfo` — the description of a script, which the interpreter prints as JSON.
* `ScriptInfo.statements` — one statement for every case.

A script that has yet to be built runs once, without declared paths.
-/

namespace DocGraph
namespace Builtin

/-- One way to run a script. -/
structure Case where
  name : String
  inputs : List String := []
  outputs : List String := []
deriving DecidableEq

/-- The description of a script. -/
structure ScriptInfo where
  /-- Whether the script wants to see the configuration variables. -/
  wantsVariables : Bool := false
  /-- The cases, if the script describes itself at all. -/
  cases : Option (List Case)
deriving DecidableEq

/-- The member with a given name, which may occur once. -/
def unique? (members : List (String × Json)) (name : String) : Option (Option Json) :=
  match members.filter (·.1 == name) with
  | [] => some none
  | [m] => some (some m.2)
  | _ => none

/-- The value of a member that may be absent. -/
def orElse? {α : Type} (read? : Json → Option α) (absent : α) : Option Json → Option α
  | some j => read? j
  | none => some absent

def textOf? : Json → Option String
  | .text s => some s
  | _ => none

def boolOf? : Json → Option Bool
  | .bool b => some b
  | _ => none

def listOf? {α : Type} (read? : Json → Option α) : Json → Option (List α)
  | .array items => items.mapM read?
  | _ => none

/-- Null, or something else. -/
def nullable? {α : Type} (read? : Json → Option α) : Json → Option (Option α)
  | .null => some none
  | j => (read? j).map some

/-- A case is an object, or an array of its members in order. -/
def Case.read? : Json → Option Case
  | .object members => do
    let name ← (← unique? members "argstr").bind textOf?
    let inputs ← orElse? (listOf? textOf?) [] (← unique? members "inputs")
    let outputs ← orElse? (listOf? textOf?) [] (← unique? members "outputs")
    return ⟨name, inputs, outputs⟩
  | .array (name :: rest) =>
    if 2 < rest.length then none
    else do
      return ⟨← textOf? name, ← orElse? (listOf? textOf?) [] rest[0]?,
        ← orElse? (listOf? textOf?) [] rest[1]?⟩
  | _ => none

/-- A description is an object, or an array of its members in order. -/
def ScriptInfo.read? : Json → Option ScriptInfo
  | .object members => do
    let wants ← orElse? boolOf? false (← unique? members "variables")
    let cases ← orElse? (nullable? (listOf? Case.read?)) none (← unique? members "cases")
    return ⟨wants, cases⟩
  | .array [wants, cases] => do
    return ⟨← boolOf? wants, ← nullable? (listOf? Case.read?) cases⟩
  | _ => none

/-- Ask the interpreter about a script in the directory `dir`. -/
def ScriptInfo.inspect (interpreter : Option Interpreter) (script dir : Path) :
    Except CommandError ScriptInfo :=
  match interpreter with
  | none => .error (.noInterpreter script)
  | some ask =>
    let answer := ask dir.text (script.fileName?.getD script.text)
    if answer.exitCode != 0 then .error (.inspectionFailed script (Text.trimEnd answer.errors))
    else match (Json.parse? answer.output).bind ScriptInfo.read? with
      | some info => .ok info
      | none => .error (.badDescription script)

/-- Where the configuration variables of the project are kept. -/
def variablesFile : Path := ⟨".paperweave/variables.json"⟩

def Case.statement (script dir : Path) (wants : Bool) (c : Case) :
    Except CommandError Statement :=
  if c.name.isEmpty || c.name.toList.any Text.isBlank then .error (.badCaseName script c.name)
  else
    let name := (dir.join ⟨c.name⟩).normalize.hide.text
    let fix (s : String) : Path := (dir.join ⟨s⟩).normalize
    .ok {
      rule := "python_script"
      inputs := [script]
      outputs := [⟨name ++ ".log"⟩]
      implicit := c.inputs.map fix ++ (if wants then [variablesFile] else [])
      implicitOutputs := c.outputs.map fix
      vars := Table.ofPairs [("argstr", c.name), ("out_prefix", name)] }

/-- The entries for a script, given its description. -/
def ScriptInfo.entries (script dir : Path) (info : ScriptInfo) :
    Except CommandError (List Entry) :=
  match info.cases with
  | none => .ok [.comment s!"Skipped {script.text}: paperweave_info(...) missing"]
  | some cases => cases.mapM fun c => (c.statement script dir info.wantsVariables).map Entry.build

def pythonScript : Command :=
  plainCommand "python_script"
    [("python_script", { Rule.ofCommand "rr-python-script ${in} ${argstr} > ${out}" with
      depfile := some "${out_prefix}.d" })]
    fun around inputs outputs => do
      let script ← single inputs "input file, the Python script"
      let name ← stem script ".py" "Python script"
      noOutputs outputs
      let dir := script.parentDir
      let info ← if around.tree.isFile script then ScriptInfo.inspect around.interpreter script dir
        else pure ⟨false, some [{ name := (Path.mk name).fileName?.getD name }]⟩
      let entries ← (info.entries script dir).mapError (.inFile script)
      return ⟨entries, [script]⟩

end Builtin
end DocGraph
