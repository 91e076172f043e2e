import DocGraph.Yaml.Scalar.Block
import DocGraph.Yaml.Scalar.Plain
import DocGraph.Yaml.Scalar.Quoted
import DocGraph.Yaml.Token.Property

/-!
# DocGraph.Yaml.Token.Lexer

The tokens of a YAML stream from its characters.

* `Candidate` — a place at which a key may have started. Only a colon behind it shows that it did.
* `Lexer`     — the tokens so far, the open blocks, and a candidate for every open bracket.
* `Lexer.step` — the token at the start of a source. It opens and closes blocks by the column.
* `tokens?`   — all tokens of a stream.

A key takes one line and at most 1024 columns. A key that starts at the column of its block must
turn out to be one.
-/

namespace DocGraph
namespace Yaml

/-- A place at which a key may have started. -/
structure Candidate where
  /-- The number of tokens in front of it. -/
  position : Nat
  line : Nat
  column : Nat
  /-- Whether nothing but a key can stand there. -/
  required : Bool

/-- The tokens so far and what decides about the next ones. -/
structure Lexer where
  /-- The tokens so far, last first. -/
  emitted : List Token := []
  /-- The columns of open blocks, innermost first. -/
  blocks : List Nat := []
  /-- Whether a key may start here. -/
  keyAllowed : Bool := true
  /-- The candidate inside every open bracket and outside of all, innermost first. -/
  candidates : List (Option Candidate) := [none]

namespace Lexer

def inFlow (l : Lexer) : Bool := 1 < l.candidates.length

/-- The least column of what belongs to the innermost block. -/
def width (l : Lexer) : Nat :=
  match l.blocks with
  | [] => 0
  | column :: _ => column + 1

def push (l : Lexer) (t : Token) : Lexer := { l with emitted := t :: l.emitted }

/-- Put a token behind the first `position` ones. -/
def insertAt (l : Lexer) (position : Nat) (t : Token) : Lexer :=
  let later := l.emitted.length - position
  { l with emitted := l.emitted.take later ++ t :: l.emitted.drop later }

/-- Open a block at a column behind the first `position` tokens, if none is open there yet. -/
def openBlock (l : Lexer) (column position : Nat) (t : Token) : Lexer :=
  if l.inFlow || column < l.width then l
  else { l.insertAt position t with blocks := column :: l.blocks }

/-- Close the blocks that lie further in than a column allows. -/
def closeBlocks (l : Lexer) (inside : Nat → Bool) : Lexer :=
  if l.inFlow then l
  else { l with
    emitted := ((l.blocks.takeWhile inside).map fun _ => Token.blockEnd) ++ l.emitted
    blocks := l.blocks.dropWhile inside }

/-- The candidate outside of all brackets or inside the innermost. -/
def candidate? (l : Lexer) : Option Candidate := l.candidates.head?.join

def setCandidate (l : Lexer) (c : Option Candidate) : Lexer :=
  { l with candidates := c :: l.candidates.drop 1 }

/-- Give the innermost candidate up, which must not be required. -/
def dropCandidate? (l : Lexer) : Option Lexer :=
  if l.candidate?.any Candidate.required then none else some (l.setCandidate none)

/-- Make the place of a cell a candidate if a key may start there. -/
def markCandidate? (l : Lexer) (c : Cell) : Option Lexer :=
  if l.keyAllowed then
    let required := !l.inFlow && l.blocks.head? == some c.column
    l.dropCandidate?.map fun l =>
      l.setCandidate (some ⟨l.emitted.length, c.line, c.column, required⟩)
  else some l

/-- Whether a candidate can still be a key at a cell. -/
def isFresh (c : Cell) (k : Candidate) : Bool := k.line == c.line && c.column ≤ k.column + 1024

/-- Give candidates up that cannot be keys any more. -/
def dropStale? (l : Lexer) (c : Cell) : Option Lexer :=
  if l.candidates.any fun k => k.any fun k => k.required && !isFresh c k then none
  else some { l with candidates := l.candidates.map fun k => k.filter (isFresh c) }

/-- Skip blanks, comments and line breaks. A tab cannot indent a line of a block, and a key may
start on such a line. -/
def skipGaps (flow keyAllowed comment : Bool) : Source → Bool × Source
  | [] => (keyAllowed, [])
  | c :: cs =>
    if isBreak c.char then skipGaps flow (keyAllowed || !flow) false cs
    else if comment || c.char = ' ' || (c.char = '\t' && (flow || !keyAllowed)) then
      skipGaps flow keyAllowed comment cs
    else if c.char = '#' then skipGaps flow keyAllowed true cs
    else (keyAllowed, c :: cs)

/-- A lexer and what it has yet to read. -/
abbrev Step := Option (Lexer × Source)

/-- A token that neither starts nor ends a key, with so many characters. -/
def punctuation (l : Lexer) (t : Token) (keyAllowed : Bool) (rest : Source) : Step := do
  let l ← l.dropCandidate?
  return ({ l with keyAllowed }.push t, rest)

/-- A token that starts a document, or ends one. -/
def marker (l : Lexer) (t : Token) (rest : Source) : Step :=
  (l.closeBlocks fun _ => true).punctuation t false rest

/-- A bracket that opens. It may start a key. -/
def opening (l : Lexer) (c : Cell) (t : Token) (rest : Source) : Step := do
  let l ← l.markCandidate? c
  return ({ l with candidates := none :: l.candidates, keyAllowed := true }.push t, rest)

/-- A bracket that closes. -/
def closing (l : Lexer) (t : Token) (rest : Source) : Step := do
  let l ← l.dropCandidate?
  let candidates := if l.inFlow then l.candidates.drop 1 else l.candidates
  return ({ l with candidates, keyAllowed := false }.push t, rest)

/-- The sign of an item. -/
def dash (l : Lexer) (c : Cell) (rest : Source) : Step :=
  if !l.inFlow && !l.keyAllowed then none
  else (l.openBlock c.column l.emitted.length .blockSequence).punctuation .dash true rest

/-- The sign of a key. -/
def key (l : Lexer) (c : Cell) (rest : Source) : Step :=
  if !l.inFlow && !l.keyAllowed then none
  else (l.openBlock c.column l.emitted.length .blockMapping).punctuation .key (!l.inFlow) rest

/-- The sign of a value. The candidate turns out to be the key, if there is one. -/
def value (l : Lexer) (c : Cell) (rest : Source) : Step :=
  match l.candidate? with
  | some k =>
    let l := (l.insertAt k.position .key).openBlock k.column k.position .blockMapping
    some ({ l.setCandidate none with keyAllowed := false }.push .value, rest)
  | none =>
    if !l.inFlow && !l.keyAllowed then none
    else
      let l := l.openBlock c.column l.emitted.length .blockMapping
      some ({ l with keyAllowed := !l.inFlow }.push .value, rest)

/-- What may be a key or a part of one. -/
def keyPart (l : Lexer) (c : Cell) (r : Option (Token × Source)) : Step := do
  let l ← l.markCandidate? c
  let (t, rest) ← r
  return ({ l with keyAllowed := false }.push t, rest)

/-- A text without quotes. A key may follow if a line ended. -/
def plain (l : Lexer) (c : Cell) (s : Source) : Step := do
  let l ← l.markCandidate? c
  let r ← Plain.read l.inFlow l.width [] s
  return ({ l with keyAllowed := r.lineEnded }.push (.scalar true (String.ofList r.text)), r.rest)

/-- A text in indented lines. -/
def block (l : Lexer) (folded : Bool) (rest : Source) : Step := do
  let l ← l.dropCandidate?
  let (text, rest) ← Block.read? folded l.width rest
  return ({ l with keyAllowed := true }.push (.scalar false (String.ofList text)), rest)

/-- A text in quotes. -/
def quoted (l : Lexer) (c : Cell) (r : Quoted.Result) : Step :=
  l.keyPart c (r.map fun (text, rest) => (.scalar false (String.ofList text), rest))

/-- The characters that start no plain text. -/
def isIndicator (c : Char) : Bool := "-?:,[]\x7b\x7d#&*!|>'\"%@`".toList.contains c

/-- Whether a plain text starts at a character. -/
def startsPlain (flow : Bool) (c : Char) (next : Source) : Bool :=
  if c = '-' then !(next.peek?.any isSpace)
  else if c = '?' || c = ':' then !flow && !next.atGap
  else !isIndicator c && !isGap c

/-- The token at a cell, which is no blank. -/
def token (l : Lexer) (c : Cell) (rest : Source) : Step :=
  let s : Source := c :: rest
  if c.column = 0 && c.char = '%' then do
    let (t, rest) ← Directive.read? rest
    l.marker t rest
  else if s.atMarker then
    l.marker (if c.char = '-' then .documentStart else .documentEnd) (rest.drop 2)
  else match c.char with
    | '[' => l.opening c .openBracket rest
    | '\x7b' => l.opening c .openBrace rest
    | ']' => l.closing .closeBracket rest
    | '\x7d' => l.closing .closeBrace rest
    | ',' => l.punctuation .comma true rest
    | '*' => l.keyPart c ((Anchor.read? rest).map fun (name, r) => (.reference name, r))
    | '&' => l.keyPart c ((Anchor.read? rest).map fun (name, r) => (.anchor name, r))
    | '!' => l.keyPart c (Tag.read? l.inFlow s)
    | '\'' => l.quoted c (Quoted.single [] rest)
    | '"' => l.quoted c (Quoted.double false [] rest)
    | '|' => if l.inFlow then none else l.block false rest
    | '>' => if l.inFlow then none else l.block true rest
    | char =>
      if char = '-' && rest.atGap then l.dash c rest
      else if char = '?' && (l.inFlow || rest.atGap) then l.key c rest
      else if char = ':' && (l.inFlow || rest.atGap) then l.value c rest
      else if startsPlain l.inFlow char rest then l.plain c s
      else none

/-- Read on up to the end. Every step takes a character, which bounds their number. -/
def run : Nat → Lexer → Source → Option (List Token)
  | 0, _, _ => none
  | n + 1, l, s =>
    let (keyAllowed, s) := skipGaps l.inFlow l.keyAllowed false s
    match s with
    | [] => do
      let l ← (l.closeBlocks fun _ => true).dropCandidate?
      return l.emitted.reverse
    | c :: rest => do
      let l ← { l with keyAllowed }.dropStale? c
      let (l, s) ← (l.closeBlocks fun column => c.column < column).token c rest
      run n l s

end Lexer

/-- The tokens of a stream. -/
def tokens? (s : Source) : Option (List Token) := Lexer.run (s.length + 1) {} s

end Yaml
end DocGraph
