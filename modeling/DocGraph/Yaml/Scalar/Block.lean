import DocGraph.Yaml.Source

/-!
# DocGraph.Yaml.Scalar.Block

Texts in indented lines behind `|` or `>`.

* `Block.Header` — how lines are joined, what becomes of the last line breaks, and by how much the
  lines are indented.
* `Block.read?`  — the text, and what follows it.

Lines behind `>` are folded: a single newline between two lines that start with no blank becomes a
space.
-/

namespace DocGraph
namespace Yaml
namespace Block

/-- What becomes of line breaks at the end. -/
inductive Chomping where
  | strip
  | clip
  | keep
deriving DecidableEq

/-- The first line of a block. -/
structure Header where
  chomping : Chomping := .clip
  /-- How many columns further in the lines stand, if that is given. -/
  increment : Option Nat := none

def chomping? (c : Char) : Option Chomping :=
  if c = '+' then some .keep else if c = '-' then some .strip else none

/-- A digit other than zero. -/
def increment? (c : Char) : Option Nat :=
  if '1' ≤ c && c ≤ '9' then some (c.toNat - 48) else none

/-- Read the signs of a header in either order. -/
def header (s : Source) : Header × Source :=
  match s with
  | [] => ({}, s)
  | a :: rest =>
    match chomping? a.char, increment? a.char, rest with
    | some k, _, b :: rest' =>
      match increment? b.char with
      | some n => (⟨k, some n⟩, rest')
      | none => (⟨k, none⟩, rest)
    | some k, _, [] => (⟨k, none⟩, rest)
    | none, some n, b :: rest' =>
      match chomping? b.char with
      | some k => (⟨k, some n⟩, rest')
      | none => (⟨.clip, some n⟩, rest)
    | none, some n, [] => (⟨.clip, some n⟩, rest)
    | none, none, _ => ({}, s)

/-- Skip spaces and empty lines, and give the widest indentation in them. A tab must not come
next. -/
def widest? (most : Nat) : Source → Option Nat
  | [] => some most
  | c :: cs =>
    if c.char = ' ' then widest? (max most (c.column + 1)) cs
    else if c.char = '\t' then none
    else if isBreak c.char then widest? most cs
    else some most

/-- Where the reader of a block stands. -/
inductive Position where
  | insideLine
  /-- Behind the end of a line and further line breaks. -/
  | betweenLines (first more : List Char)

/-- What stands for the line breaks in front of a line, depending on whether the last line and
this one start with a blank. -/
def between (folded lastBlank thisBlank : Bool) (first more : List Char) : List Char :=
  if folded && first == ['\n'] && !lastBlank && !thisBlank then
    if more.isEmpty then [' '] else more
  else first ++ more

/-- The text of the lines from here on, the line breaks behind them in two parts, and the rest. -/
structure Result where
  text : List Char
  first : List Char
  more : List Char
  rest : Source

/-- Read lines that stand at column `indent`. -/
def lines (folded : Bool) (indent : Nat) (lastBlank : Bool) : Position → Source → Option Result
  | .insideLine, [] => some ⟨[], [], [], []⟩
  | .betweenLines first more, [] => some ⟨[], first, more, []⟩
  | .insideLine, c :: cs =>
    if isBreak c.char then lines folded indent lastBlank (.betweenLines [c.char] []) cs
    else do
      let r ← lines folded indent lastBlank .insideLine cs
      return { r with text := c.char :: r.text }
  | .betweenLines first more, c :: cs =>
    if isBreak c.char then lines folded indent lastBlank (.betweenLines first (more ++ [c.char])) cs
    else if c.column < indent && c.char = ' ' then
      lines folded indent lastBlank (.betweenLines first more) cs
    else if c.column < indent && c.char = '\t' then none
    else if c.column = indent then do
      let thisBlank := isSpace c.char
      let r ← lines folded indent thisBlank .insideLine cs
      return { r with text := between folded lastBlank thisBlank first more ++ c.char :: r.text }
    else some ⟨[], first, more, c :: cs⟩

/-- Read a block behind its sign. Its lines stand at column `width` at least, unless the header says
how many columns further in they stand than the lines around them. -/
def read? (folded : Bool) (width : Nat) (s : Source) : Option (List Char × Source) := do
  let (h, s) := header s
  let s ← s.skipLine?
  let indent ← match h.increment with
    | some n => some (width - 1 + n)
    | none => (widest? 0 s).map fun most => max most (max width 1)
  let r ← lines folded indent false (.betweenLines [] []) s
  let tail := match h.chomping with
    | .strip => []
    | .clip => r.first
    | .keep => r.first ++ r.more
  return (r.text ++ tail, r.rest)

end Block
end Yaml
end DocGraph
