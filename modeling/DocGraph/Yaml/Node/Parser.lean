import DocGraph.Yaml.Node.Basic
import DocGraph.Yaml.Token.Lexer

/-!
# DocGraph.Yaml.Node.Parser

The tree of a YAML document from its tokens.

* `Node.properties?` — an anchor and a tag in either order.
* `Node.read?`       — the node at the start of tokens.
* `Node.ofTokens?`   — the only document of a stream, which may have none.

The readers take steps that are counted down. Each takes a token before the next but one.
-/

namespace DocGraph
namespace Yaml
namespace Node

/-- The tag in two parts, which need not say anything. -/
def tag? (handles : Tag.Handles) (handle : List Char) (suffix : List UInt8) :
    Option (Option Tag) :=
  (Tag.expand? handles handle suffix).map Tag.ofBytes?

/-- What stands in front of a node, and whether anything does. -/
structure Front where
  properties : Properties String := {}
  isWritten : Bool := false

/-- An anchor and a tag in either order. -/
def properties? (handles : Tag.Handles) (ts : List Token) : Option (Front × List Token) :=
  match ts with
  | .anchor name :: .tag handle suffix :: rest =>
    (tag? handles handle suffix).map fun tag => (⟨⟨some name, tag⟩, true⟩, rest)
  | .tag handle suffix :: .anchor name :: rest =>
    (tag? handles handle suffix).map fun tag => (⟨⟨some name, tag⟩, true⟩, rest)
  | .anchor name :: rest => some (⟨⟨some name, none⟩, true⟩, rest)
  | .tag handle suffix :: rest =>
    (tag? handles handle suffix).map fun tag => (⟨⟨none, tag⟩, true⟩, rest)
  | ts => some ({}, ts)

/-- The properties of a text. A mark alone is no tag of a text. -/
def scalarProperties (p : Properties String) : Properties String :=
  if p.tag = some (.named "!") then { p with tag := none } else p

/-- The tokens that end a node in a block, so that nothing is written there. -/
def endsBlockNode (ts : List Token) : Bool :=
  match ts with
  | .key :: _ | .value :: _ | .blockEnd :: _ => true
  | _ => false

/-- The tokens that end an item between brackets. -/
def endsItem (ts : List Token) : Bool :=
  match ts with
  | .comma :: _ | .closeBracket :: _ => true
  | _ => false

/-- The tokens that end an entry between braces. -/
def endsEntry (ts : List Token) : Bool :=
  match ts with
  | .comma :: _ | .closeBrace :: _ => true
  | _ => false

/-- Put something in front of what is parsed. -/
def before {α : Type} (x : α) (r : Option (List α × List Token)) :
    Option (List α × List Token) :=
  r.map fun (xs, rest) => (x :: xs, rest)

mutual

/-- The node at the start of tokens. Blocks can open unless brackets are open, and the items of a
value in a block may stand at the column of its key. -/
def read? (handles : Tag.Handles) :
    Nat → (block unindented : Bool) → List Token → Option (Node String × List Token)
  | 0, _, _, _ => none
  | n + 1, block, unindented, ts =>
    match ts with
    | .reference name :: rest => some (reference name, rest)
    | ts => do
      let (front, ts) ← properties? handles ts
      let p := front.properties
      match ts, block, unindented with
      | .dash :: _, _, true =>
        (unindentedItems? handles n ts).map fun (items, rest) => (sequence p items, rest)
      | .scalar plain text :: rest, _, _ => some (scalar (scalarProperties p) plain text, rest)
      | .openBracket :: rest, _, _ =>
        (bracketItems? handles n true rest).map fun (items, rest) => (sequence p items, rest)
      | .openBrace :: rest, _, _ =>
        (braceEntries? handles n true rest).map fun (entries, rest) => (mapping p entries, rest)
      | .blockSequence :: rest, true, _ =>
        (blockItems? handles n rest).map fun (items, rest) => (sequence p items, rest)
      | .blockMapping :: rest, true, _ =>
        (blockEntries? handles n rest).map fun (entries, rest) => (mapping p entries, rest)
      | ts, _, _ => if front.isWritten then some (empty p, ts) else none

/-- The items of a block up to its end. -/
def blockItems? (handles : Tag.Handles) :
    Nat → List Token → Option (List (Node String) × List Token)
  | 0, _ => none
  | n + 1, ts =>
    match ts with
    | .blockEnd :: rest => some ([], rest)
    | .dash :: rest => do
      let (x, rest) ← match rest with
        | .dash :: _ | .blockEnd :: _ => some (empty {}, rest)
        | rest => read? handles n true false rest
      before x (blockItems? handles n rest)
    | _ => none

/-- Items at the column of their key, up to the next token that is no sign of an item. -/
def unindentedItems? (handles : Tag.Handles) :
    Nat → List Token → Option (List (Node String) × List Token)
  | 0, _ => none
  | n + 1, ts =>
    match ts with
    | .dash :: rest => do
      let (x, rest) ← match rest with
        | .dash :: _ | .key :: _ | .value :: _ | .blockEnd :: _ => some (empty {}, rest)
        | rest => read? handles n true false rest
      before x (unindentedItems? handles n rest)
    | ts => some ([], ts)

/-- The entries of a block up to its end. -/
def blockEntries? (handles : Tag.Handles) :
    Nat → List Token → Option (List (Node String × Node String) × List Token)
  | 0, _ => none
  | n + 1, ts =>
    match ts with
    | .blockEnd :: rest => some ([], rest)
    | .key :: rest => do
      let (k, rest) ←
        if endsBlockNode rest then some (empty {}, rest) else read? handles n true true rest
      let (v, rest) ← match rest with
        | .value :: rest =>
          if endsBlockNode rest then some (empty {}, rest) else read? handles n true true rest
        | rest => some (empty {}, rest)
      before (k, v) (blockEntries? handles n rest)
    | _ => none

/-- A value between brackets or braces, if its sign is there. -/
def flowValue? (handles : Tag.Handles) (ends : List Token → Bool) :
    Nat → List Token → Option (Node String × List Token)
  | 0, _ => none
  | n + 1, ts =>
    match ts with
    | .value :: rest =>
      if ends rest then some (empty {}, rest) else read? handles n false false rest
    | ts => some (empty {}, ts)

/-- The items between brackets. An entry can be an item. Where its key is missing, the token that
shows it is taken along. -/
def bracketItems? (handles : Tag.Handles) :
    Nat → (first : Bool) → List Token → Option (List (Node String) × List Token)
  | 0, _, _ => none
  | n + 1, first, ts => do
    let ts ← match first, ts with
      | false, .comma :: rest => some rest
      | false, .closeBracket :: _ => some ts
      | false, _ => none
      | true, ts => some ts
    match ts with
    | .closeBracket :: rest => some ([], rest)
    | .key :: rest =>
      let (k, rest) ← match rest with
        | .value :: rest | .comma :: rest | .closeBracket :: rest => some (empty {}, rest)
        | rest => read? handles n false false rest
      let (v, rest) ← flowValue? handles endsItem n rest
      before (mapping {} [(k, v)]) (bracketItems? handles n false rest)
    | ts =>
      let (x, rest) ← read? handles n false false ts
      before x (bracketItems? handles n false rest)

/-- The entries between braces. -/
def braceEntries? (handles : Tag.Handles) :
    Nat → (first : Bool) → List Token → Option (List (Node String × Node String) × List Token)
  | 0, _, _ => none
  | n + 1, first, ts => do
    let ts ← match first, ts with
      | false, .comma :: rest => some rest
      | false, .closeBrace :: _ => some ts
      | false, _ => none
      | true, ts => some ts
    match ts with
    | .closeBrace :: rest => some ([], rest)
    | .key :: rest =>
      let (k, rest) ← match rest with
        | .value :: _ | .comma :: _ | .closeBrace :: _ => some (empty {}, rest)
        | rest => read? handles n false false rest
      let (v, rest) ← flowValue? handles endsEntry n rest
      before (k, v) (braceEntries? handles n false rest)
    | ts =>
      let (k, rest) ← read? handles n false false ts
      before (k, empty {}) (braceEntries? handles n false rest)

end

/-- The lines in front of a document: whether there is one with a version, and the handles. -/
structure Prolog where
  hasVersion : Bool := false
  handles : Tag.Handles := []

/-- Read directives. There is at most one version and one line for each handle. -/
def prolog? (p : Prolog) : List Token → Option (Prolog × List Token)
  | .version :: rest => if p.hasVersion then none else prolog? { p with hasVersion := true } rest
  | .tagHandle handle start :: rest =>
    if (p.handles.lookup handle).isSome then none
    else prolog? { p with handles := p.handles ++ [(handle, start)] } rest
  | ts => some (p, ts)

/-- The root of a document behind its start. -/
def root? (handles : Tag.Handles) (ts : List Token) : Option (Node String × List Token) :=
  match ts with
  | [] | .version :: _ | .tagHandle .. :: _ | .documentStart :: _ | .documentEnd :: _ =>
    some (empty {}, ts)
  | ts => read? handles (3 * ts.length + 3) true false ts

/-- A document with or without directives. -/
def document? (ts : List Token) : Option (Node String × List Token) :=
  match ts with
  | .version :: _ | .tagHandle .. :: _ | .documentStart :: _ => do
    let (p, ts) ← prolog? {} ts
    match ts with
    | .documentStart :: rest => root? p.handles rest
    | _ => none
  | ts => read? [] (3 * ts.length + 3) true false ts

/-- The only document of a stream, unless the stream is empty. -/
def ofTokens? (ts : List Token) : Option (Option (Node String)) :=
  if ts.isEmpty then some none
  else do
    let (x, rest) ← document? ts
    if rest.all (· == .documentEnd) then return some x else none

end Node
end Yaml
end DocGraph
