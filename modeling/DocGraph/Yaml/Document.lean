import DocGraph.Yaml.Node.Parser
import DocGraph.Yaml.Scalar.Meaning

/-!
# DocGraph.Yaml.Document

YAML documents and what is read from them.

* `Document`      — the root of a document, and the nodes that its aliases mean.
* `Document.parse?` — the document of a text. A text without any holds an empty one.
* `Reading`       — reads from a document; it can fail, and it counts the aliases that it follows.
* `Document.value`, `Document.text`, `Document.items`, `Document.entries` — what a node holds.

Collections are nested at most 128 levels deep, and at most a hundred times as many aliases are
followed as the document has places. So a reader ends however aliases are nested.
-/

namespace DocGraph
namespace Yaml

/-- A document with the nodes that its aliases mean. -/
structure Document where
  root : Node Nat
  targets : List (Nat × Node Nat)

/-- A reader, with the number of aliases that it may still follow. -/
abbrev Reading := StateT Nat Option

namespace Document

/-- How many collections can lie inside each other. -/
def maxDepth : Nat := 128

/-- The document of a root, unless an alias has no anchor. -/
def ofRoot? (x : Node String) : Option Document :=
  (Node.number? [] x).map fun (root, _) => ⟨root, root.targets⟩

def parse? (text : String) : Option Document := do
  let source ← Source.ofText? text
  let tokens ← tokens? source
  let root ← Node.ofTokens? tokens
  ofRoot? (root.getD (.empty {}))

/-- The result of a reader, which may follow a hundred aliases for every place. -/
def run? {α : Type} (d : Document) (r : Reading α) : Option α :=
  (r.run (100 * d.root.size)).map Prod.fst

/-- The node that an alias means; any other node means itself. -/
def follow (d : Document) (x : Node Nat) : Reading (Node Nat) :=
  match x with
  | .reference n => do
    let left + 1 ← get | failure
    set left
    match (d.targets.filter fun e => e.1 == n).getLast? with
    | some e => return e.2
    | none => failure
  | x => return x

/-- The text of a scalar, whatever it stands for. -/
def text (d : Document) (x : Node Nat) : Reading String := do
  match ← d.follow x with
  | .scalar _ _ text => return text
  | _ => failure

/-- The items of a sequence, which may be left empty. -/
def items (d : Document) (x : Node Nat) : Reading (List (Node Nat)) := do
  match ← d.follow x with
  | .sequence _ items => return items
  | .scalar _ true "" => return []
  | _ => failure

/-- The entries of a mapping, which may be left empty. -/
def entries (d : Document) (x : Node Nat) : Reading (List (Node Nat × Node Nat)) := do
  match ← d.follow x with
  | .mapping _ entries => return entries
  | .scalar _ true "" => return []
  | _ => failure

/-- A value with its local tag. -/
def tagged (p : Properties Nat) (v : Value) : Value :=
  match p.tag with
  | some (.named name) => .tagged (Tag.label name) v
  | _ => v

/-- Add an entry whose key is new. -/
def addEntry (done : List (Value × Value)) (k : Value) (v : Reading Value) :
    Reading (List (Value × Value)) := do
  if (Value.find? k done).isSome then failure
  return done ++ [(k, ← v)]

/-- The entries of a mapping, as values. -/
def collect (read : Node Nat → Reading Value) (entries : List (Node Nat × Node Nat)) :
    Reading (List (Value × Value)) :=
  entries.foldlM (fun done (k, v) => do addEntry done (← read k) (read v)) []

/-- The value of a node with so many levels of collections. -/
def value (d : Document) : Nat → Node Nat → Reading Value
  | depth, x => do
    match ← d.follow x, depth with
    | .reference _, _ => failure
    | .scalar p isPlain text, _ =>
      match Meaning.scalar? p.tag isPlain text with
      | some v => return v
      | none => failure
    | .sequence _ _, 0 => failure
    | .mapping _ _, 0 => failure
    | .sequence p items, depth + 1 =>
      return tagged p (.sequence (← items.mapM fun i => value d depth i))
    | .mapping p entries, depth + 1 =>
      return tagged p (.mapping (← collect (fun i => value d depth i) entries))

/-- The entries of a mapping as values. -/
def mapping (d : Document) (depth : Nat) (x : Node Nat) : Reading (List (Value × Value)) := do
  collect (d.value depth) (← d.entries x)

end Document
end Yaml
end DocGraph
