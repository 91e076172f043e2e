import DocGraph.Text.Utf8
import DocGraph.Text.Basic

/-!
# DocGraph.Yaml.Tag

Tags of YAML values.

* `Tag`           — what a tag says about a value: a name of its own, or one of the types that YAML
  itself defines.
* `Tag.ofBytes?`  — the tag with the given bytes.
* `Tag.Handles`   — what stands for the handles of tags.
-/

namespace DocGraph
namespace Yaml

/-- What a tag says about a value. -/
inductive Tag where
  /-- A local tag, which starts with an exclamation mark. -/
  | named (text : String)
  | bool
  | int
  | float
  | null
  /-- Any other global tag. A scalar with it is a text. -/
  | other
deriving DecidableEq

namespace Tag

/-- What the tags of YAML itself start with. -/
def yaml : String := "tag:yaml.org,2002:"

/-- The rest of a tag behind an exclamation mark, unless nothing is there. -/
def dropMark (tag : List Char) : List Char :=
  match tag with
  | '!' :: c :: cs => c :: cs
  | cs => cs

/-- How a local tag is shown: its name behind one or two marks has one mark. -/
def label (text : String) : String := String.ofList ('!' :: dropMark (dropMark text.toList))

/-- The tag with a given text. -/
def ofText (text : String) : Tag :=
  if text.toList.head? = some '!' then named text
  else match Text.stripPrefix? yaml text with
    | some "bool" => bool
    | some "int" => int
    | some "float" => float
    | some "null" => null
    | _ => other

/-- The mark of local tags. -/
def mark : UInt8 := 0x21

/-- The tag with given bytes. A local tag that is no text says nothing. -/
def ofBytes? (bytes : List UInt8) : Option Tag :=
  match Text.decode? ⟨bytes.toArray⟩ with
  | some text => some (ofText text)
  | none => if bytes.head? = some mark then none else some other

/-- Handles and what stands for them. -/
abbrev Handles := List (List Char × List UInt8)

/-- The handles that need no directive. -/
def standardHandles : Handles := [(['!'], [mark]), (['!', '!'], yaml.toUTF8.data.toList)]

/-- The bytes of a tag in two parts, if its handle is known. -/
def expand? (handles : Handles) (handle : List Char) (suffix : List UInt8) : Option (List UInt8) :=
  if handle.isEmpty then some suffix
  else ((handles ++ standardHandles).lookup handle).map (· ++ suffix)

end Tag
end Yaml
end DocGraph
