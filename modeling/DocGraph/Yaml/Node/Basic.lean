import DocGraph.Yaml.Tag

/-!
# DocGraph.Yaml.Node.Basic

The tree of a YAML document as it is written, with anchors and aliases.

* `Node α`       — a node whose anchors are of type `α`.
* `Node.number?` — the tree with a number for each anchor. Aliases mean the anchor that has the
  name at their place.
* `Node.targets` — the nodes with an anchor, in the order in which they start.
* `Node.size`    — the number of places in a document where something starts.

Anchors are numbered by the names before them. A name that comes a second time makes no new name,
so the next anchor can get the same number again. Of nodes with one number the last counts.
-/

namespace DocGraph
namespace Yaml

/-- What stands in front of a node. -/
structure Properties (α : Type) where
  anchor : Option α := none
  tag : Option Tag := none

inductive Node (α : Type) where
  | reference (anchor : α)
  | scalar (properties : Properties α) (plain : Bool) (text : String)
  | sequence (properties : Properties α) (items : List (Node α))
  | mapping (properties : Properties α) (entries : List (Node α × Node α))

namespace Node

/-- What stands where nothing is written. -/
def empty {α : Type} (properties : Properties α) : Node α := scalar properties true ""

/-- The numbers of names. -/
abbrev Numbers := List (String × Nat)

/-- Give a name the next number. -/
def Numbers.assign (known : Numbers) (name : String) : Numbers :=
  (name, known.length) :: known.filter (·.1 != name)

/-- Properties with a number for the anchor, and the numbers from here on. -/
def numberAnchor (known : Numbers) (p : Properties String) : Properties Nat × Numbers :=
  match p.anchor with
  | some name => (⟨some known.length, p.tag⟩, known.assign name)
  | none => (⟨none, p.tag⟩, known)

mutual

/-- The tree with a number for each anchor, unless an alias has an unknown name. -/
def number? (known : Numbers) : Node String → Option (Node Nat × Numbers)
  | reference name => (known.lookup name).map fun n => (reference n, known)
  | scalar p plain text =>
    let (p, known) := numberAnchor known p
    some (scalar p plain text, known)
  | sequence p items => do
    let (p, known) := numberAnchor known p
    let (items, known) ← numberItems? known items
    return (sequence p items, known)
  | mapping p entries => do
    let (p, known) := numberAnchor known p
    let (entries, known) ← numberEntries? known entries
    return (mapping p entries, known)

def numberItems? (known : Numbers) : List (Node String) → Option (List (Node Nat) × Numbers)
  | [] => some ([], known)
  | x :: xs => do
    let (x, known) ← number? known x
    let (xs, known) ← numberItems? known xs
    return (x :: xs, known)

def numberEntries? (known : Numbers) :
    List (Node String × Node String) → Option (List (Node Nat × Node Nat) × Numbers)
  | [] => some ([], known)
  | (k, v) :: es => do
    let (k, known) ← number? known k
    let (v, known) ← number? known v
    let (es, known) ← numberEntries? known es
    return ((k, v) :: es, known)

end

/-- A node under its anchor, if it has one. -/
def target (p : Properties Nat) (x : Node Nat) : List (Nat × Node Nat) :=
  match p.anchor with
  | some n => [(n, x)]
  | none => []

mutual

/-- The nodes with an anchor, in the order in which they start. -/
def targets : Node Nat → List (Nat × Node Nat)
  | reference _ => []
  | scalar p plain text => target p (scalar p plain text)
  | sequence p items => target p (sequence p items) ++ targetsOfItems items
  | mapping p entries => target p (mapping p entries) ++ targetsOfEntries entries

def targetsOfItems : List (Node Nat) → List (Nat × Node Nat)
  | [] => []
  | x :: xs => targets x ++ targetsOfItems xs

def targetsOfEntries : List (Node Nat × Node Nat) → List (Nat × Node Nat)
  | [] => []
  | (k, v) :: es => targets k ++ targets v ++ targetsOfEntries es

end

mutual

/-- The number of texts and aliases, and of the ends of collections. -/
def size {α : Type} : Node α → Nat
  | reference _ => 1
  | scalar .. => 1
  | sequence _ items => 2 + sizeOfItems items
  | mapping _ entries => 2 + sizeOfEntries entries

def sizeOfItems {α : Type} : List (Node α) → Nat
  | [] => 0
  | x :: xs => size x + sizeOfItems xs

def sizeOfEntries {α : Type} : List (Node α × Node α) → Nat
  | [] => 0
  | (k, v) :: es => size k + size v + sizeOfEntries es

end

end Node
end Yaml
end DocGraph
