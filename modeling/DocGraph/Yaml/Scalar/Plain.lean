import DocGraph.Yaml.Source

/-!
# DocGraph.Yaml.Scalar.Plain

Texts without quotes.

* `Plain.read` — the text at the start of a source. It ends at a colon with a blank behind it, at a
  comment, or where a line is indented too little; among brackets, also at their punctuation.
-/

namespace DocGraph
namespace Yaml
namespace Plain

/-- The characters with a meaning among brackets. -/
def isFlowIndicator (c : Char) : Bool :=
  c == ',' || c == '[' || c == ']' || c == '\x7b' || c == '\x7d'

/-- A text, what follows it, and whether a line ended in between. -/
structure Result where
  text : List Char
  rest : Source
  lineEnded : Bool

/-- Whether a text goes on at a cell after blanks. -/
def goesOn (flow : Bool) (width : Nat) (c : Cell) (s : Source) : Bool :=
  (flow || width ≤ c.column) && c.char != '#' && !s.atMarker

/-- Whether a tab stands where the next line must be indented. -/
def badTab (width : Nat) (blanks : List Char) (c : Cell) : Bool :=
  c.char == '\t' && c.column < width && blanks.any isBreak

/-- Whether a text ends at a character, with `next` behind it. -/
def endsAt (flow : Bool) (c : Char) (next : Source) : Bool :=
  (c == ':' && next.atGap) || (flow && isFlowIndicator c)

/-- Whether a colon stands among brackets in front of their punctuation. -/
def badColon (flow : Bool) (c : Char) (next : Source) : Bool :=
  flow && c == ':' && match next.peek? with
    | some d => d == '?' || (isFlowIndicator d)
    | none => false

/-- Read on after `blanks`, which are held last first. Lines are indented by `width` columns at
least, unless brackets are open. -/
def read (flow : Bool) (width : Nat) (blanks : List Char) : Source → Option Result
  | [] => some ⟨[], [], blanks.any isBreak⟩
  | c :: cs =>
    if isGap c.char then
      if badTab width blanks c then none else read flow width (c.char :: blanks) cs
    else if !blanks.isEmpty && !goesOn flow width c (c :: cs) then
      some ⟨[], c :: cs, blanks.any isBreak⟩
    else if badColon flow c.char cs then none
    else if endsAt flow c.char cs then some ⟨[], c :: cs, blanks.any isBreak⟩
    else do
      let r ← read flow width [] cs
      return { r with text := fold blanks.reverse ++ c.char :: r.text }

end Plain
end Yaml
end DocGraph
