import DocGraph.Yaml.Document

/-!
# DocGraph.Config.File

Configuration files.

* `ConfigFile`       — the sets of commands that a file imports, its variables and its tasks.
* `ConfigFile.parse?` — the content of a file. A file with nothing but blanks declares nothing.
* `ConfigFile.name`  — the name of the file in every directory.
-/

namespace DocGraph

/-- What a configuration file declares. -/
structure ConfigFile where
  imports : List String := []
  /-- Names and values; neither need be texts yet. -/
  vars : List (Yaml.Value × Yaml.Value) := []
  tasks : List Yaml.Value := []

namespace ConfigFile

/-- The name of the configuration file in every directory. -/
def name : String := "paperweave.yaml"

/-- The fields of a document by their names, each of which occurs once. -/
def fields (d : Yaml.Document) : Yaml.Reading (List (String × Yaml.Node Nat)) := do
  (← d.entries d.root).foldlM (fun done (k, v) => do
    let key ← d.text k
    if (done.lookup key).isSome then failure
    return done ++ [(key, v)]) []

def readField (d : Yaml.Document) (file : ConfigFile) (field : String × Yaml.Node Nat) :
    Yaml.Reading ConfigFile := do
  let depth := Yaml.Document.maxDepth - 2
  match field.1 with
  | "imports" => return { file with imports := ← (← d.items field.2).mapM d.text }
  | "variables" => return { file with vars := ← d.mapping depth field.2 }
  | "tasks" => return { file with tasks := ← (← d.items field.2).mapM (d.value depth) }
  | _ => failure

/-- The content of a file. There are no other fields than these three. -/
def parse? (text : String) : Option ConfigFile :=
  if (Text.trim text).isEmpty then some {}
  else do
    let d ← Yaml.Document.parse? text
    d.run? do (← fields d).foldlM (readField d) {}

end ConfigFile
end DocGraph
