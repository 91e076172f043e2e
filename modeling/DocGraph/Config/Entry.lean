import DocGraph.Ordered
import DocGraph.Text.Basic
import DocGraph.Yaml.Value

/-!
# DocGraph.Config.Entry

Entries of the list of tasks in a configuration file.

* `LoopTable`   — keys, and rows with a value for each of them.
* `BuildEntry`  — tasks, one for each choice of a row from every table.
* `ConfigEntry` — one of them, a directory to go on with, or a barrier.
* `ConfigEntry.read?` — the entry that a value holds.

Words are a text that is cut at its blanks, or a list of texts. Tags count for nothing, except that
words have none.
-/

namespace DocGraph

/-- Keys, and rows with a value for each of them. -/
structure LoopTable where
  keys : List String
  rows : List (List String)
deriving DecidableEq

/-- The declaration of tasks. -/
structure BuildEntry where
  /-- The name of a command. Behind an underscore it makes tasks that are not built by default. -/
  command : String
  inputs : List String
  outputs : List String := []
  argument : Option Yaml.Value := none
  /-- Variables that hold for these tasks alone. -/
  overrides : Table String := ∅
  loops : List LoopTable := []
  /-- The barriers that the results wait for. -/
  barriers : List String := []
  isOptional : Bool := false
  builtInputsOnly : Bool := false

/-- An entry of the list of tasks. -/
inductive ConfigEntry where
  | directory (path : String)
  | barrier (name : String)
  | build (entry : BuildEntry)

namespace Yaml.Value

def text? (v : Value) : Option String :=
  match v.bare with
  | text s => some s
  | _ => none

def bool? (v : Value) : Option Bool :=
  match v.bare with
  | bool b => some b
  | _ => none

/-- The items of a sequence, of which null has none. -/
def items? (v : Value) : Option (List Value) :=
  match v.bare with
  | sequence items => some items
  | null => some []
  | _ => none

/-- The entries of a mapping, of which null has none. -/
def entries? (v : Value) : Option (List (Value × Value)) :=
  match v.bare with
  | mapping entries => some entries
  | null => some []
  | _ => none

/-- An item of a list of words. -/
def word? : Value → Option String
  | text s => some s
  | _ => none

/-- The words of a text or a list. -/
def words? : Value → Option (List String)
  | text s => some (Text.words s)
  | sequence items => items.mapM word?
  | _ => none

/-- Rows of words; each word of a text is a row of its own. -/
def rows? : Value → Option (List (List String))
  | text s => some ((Text.words s).map fun w => [w])
  | sequence items => items.mapM words?
  | _ => none

/-- What a value holds unless it is null. -/
def unlessNull {α : Type} (read : Value → Option α) (v : Value) : Option (Option α) :=
  if v.isNull then some none else (read v).map some

/-- Texts with their values; of equal names the last counts. -/
def table? (v : Value) : Option (Table String) := do
  let entries ← v.entries?
  let pairs ← entries.mapM fun e => do return (← text? e.1, ← text? e.2)
  return Table.ofPairs pairs

/-- The fields of a mapping by their names, each of which is known and occurs once. -/
def fields? (known : List String) (v : Value) : Option (List (String × Value)) := do
  let entries ← v.entries?
  let fields ← entries.mapM fun e => (text? e.1).map fun name => (name, e.2)
  let names := fields.map Prod.fst
  if names.all known.contains && names.Nodup then return fields else none

/-- Whether a mapping has a member with the given name. -/
def hasMember (v : Value) (name : String) : Bool :=
  match v.bare with
  | mapping entries => (find? (text name) entries).isSome
  | _ => false

end Yaml.Value

open Yaml

/-- A field of a mapping, or what counts in its place. -/
def fieldOr {α : Type} (fields : List (String × Value)) (name : String) (default : α)
    (read : Value → Option α) : Option α :=
  match fields.lookup name with
  | some v => read v
  | none => some default

/-- A field of a mapping that must be there. -/
def requiredField {α : Type} (fields : List (String × Value)) (name : String)
    (read : Value → Option α) : Option α :=
  (fields.lookup name).bind read

def LoopTable.read? (v : Value) : Option LoopTable := do
  let fields ← v.fields? ["key", "val"]
  return {
    keys := ← requiredField fields "key" Value.words?
    rows := ← requiredField fields "val" Value.rows? }

namespace BuildEntry

def fieldNames : List String :=
  ["command", "inp", "out", "arg", "override", "loop", "phony", "optional", "built_inputs_only"]

/-- Words that may be null. -/
def wordsOrNull (v : Value) : Option (List String) :=
  (v.unlessNull Value.words?).map (·.getD [])

def loops? (v : Value) : Option (List LoopTable) := do (← v.items?).mapM LoopTable.read?

def read? (v : Value) : Option BuildEntry := do
  let fields ← v.fields? fieldNames
  return {
    command := ← requiredField fields "command" Value.text?
    inputs := ← requiredField fields "inp" Value.words?
    outputs := ← fieldOr fields "out" [] wordsOrNull
    argument := ← fieldOr fields "arg" none (Value.unlessNull some)
    overrides := ← fieldOr fields "override" ∅ Value.table?
    loops := ← fieldOr fields "loop" [] loops?
    barriers := ← fieldOr fields "phony" [] wordsOrNull
    isOptional := ← fieldOr fields "optional" false Value.bool?
    builtInputsOnly := ← fieldOr fields "built_inputs_only" false Value.bool? }

end BuildEntry

namespace ConfigEntry

/-- The text of the only field of a mapping. -/
def only? (name : String) (v : Value) : Option String := do
  requiredField (← v.fields? [name]) name Value.text?

/-- The entry that a value holds. Its fields tell what it is. -/
def read? (v : Value) : Option ConfigEntry :=
  if v.hasMember "subdir" then (only? "subdir" v).map directory
  else if v.hasMember "barrier" then (only? "barrier" v).map barrier
  else (BuildEntry.read? v).map build

end ConfigEntry
end DocGraph
