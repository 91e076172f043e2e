import DocGraph.Text.Digit
import DocGraph.Yaml.Source

/-!
# DocGraph.Yaml.Token.Basic

The tokens of a YAML stream.

* `Token`   — a token. Those that open or close a block, or start a key, may have no characters of
  their own: they stand where the indentation says so.
* `Handle.word`, `Uri.read?` — the parts that tags and directives are made of.
-/

namespace DocGraph
namespace Yaml

inductive Token where
  /-- A line with the version of YAML. -/
  | version
  /-- A line that lets a handle stand for the start of tags. -/
  | tagHandle (handle : List Char) (start : List UInt8)
  | documentStart
  | documentEnd
  | blockSequence
  | blockMapping
  | blockEnd
  | openBracket
  | closeBracket
  | openBrace
  | closeBrace
  | dash
  | comma
  | key
  | value
  | reference (name : String)
  | anchor (name : String)
  /-- A tag in two parts; a tag that is written in full has no handle. -/
  | tag (handle : List Char) (suffix : List UInt8)
  /-- A text; a plain one is neither quoted nor in a block. -/
  | scalar (plain : Bool) (text : String)
deriving DecidableEq

/-- The bytes of ASCII characters. -/
def asciiBytes (cs : List Char) : List UInt8 := cs.map fun c => c.toNat.toUInt8

namespace Handle

/-- An exclamation mark, a word, and an exclamation mark behind it if there is one. -/
def read? (s : Source) : Option (List Char × Source) :=
  match s with
  | [] => none
  | c :: cs =>
    if c.char = '!' then
      let word := cs.takeWhile fun d => isWordChar d.char
      match cs.drop word.length with
      | d :: rest =>
        if d.char = '!' then some ('!' :: chars word ++ ['!'], rest)
        else some ('!' :: chars word, d :: rest)
      | [] => some ('!' :: chars word, [])
    else none

/-- Whether a handle has exclamation marks at both ends. -/
def isClosed (handle : List Char) : Bool := 2 ≤ handle.length && handle.getLast? == some '!'

end Handle

namespace Uri

/-- The characters of tags. Those that separate items count only inside angle brackets. -/
def isUriChar (verbatim : Bool) (c : Char) : Bool :=
  isWordChar c || ";/?:@&=+$.!~*'()".contains c || (verbatim && ",[]".contains c)

/-- The bytes at the start, where a percent sign and two digits stand for any byte. -/
def bytes? (verbatim : Bool) : Source → Option (List UInt8 × Source)
  | [] => some ([], [])
  | c :: cs =>
    if c.char = '%' then
      match cs with
      | a :: b :: rest => do
        let n ← Text.natural? 16 [a.char, b.char]
        let (bytes, rest) ← bytes? verbatim rest
        return (n.toUInt8 :: bytes, rest)
      | _ => none
    else if isUriChar verbatim c.char then do
      let (bytes, rest) ← bytes? verbatim cs
      return (c.char.toNat.toUInt8 :: bytes, rest)
    else some ([], c :: cs)

/-- How many more bytes the first byte of a character announces. -/
def following? (b : UInt8) : Option Nat :=
  if b &&& 0x80 == 0 then some 0
  else if b &&& 0xE0 == 0xC0 then some 1
  else if b &&& 0xF0 == 0xE0 then some 2
  else if b &&& 0xF8 == 0xF0 then some 3
  else none

/-- Whether every first byte of a character is followed by as many bytes as it announces, after so
many that are still to come. -/
def isShaped : Nat → List UInt8 → Bool
  | n, [] => n == 0
  | 0, b :: bs => match following? b with
    | some n => isShaped n bs
    | none => false
  | n + 1, b :: bs => b &&& 0xC0 == 0x80 && isShaped n bs

/-- The part of a tag at the start. -/
def read? (verbatim : Bool) (s : Source) : Option (List UInt8 × Source) := do
  let (bytes, rest) ← bytes? verbatim s
  if isShaped 0 bytes then return (bytes, rest) else none

end Uri
end Yaml
end DocGraph
