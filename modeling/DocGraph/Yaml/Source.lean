/-!
# DocGraph.Yaml.Source

The characters of a YAML stream with their places.

* `Cell`           — a character with its line and column.
* `Source`         — the cells from some place on.
* `Source.ofText?` — the cells of a text. All line breaks but the separators of Unicode become
  newlines. A text with other control characters is no stream.
* `Source.atMarker` — whether a line starts with `---` or `...`, which ends any document.
-/

namespace DocGraph
namespace Yaml

/-- A character with its place. -/
structure Cell where
  char : Char
  line : Nat
  column : Nat
deriving DecidableEq, Inhabited

/-- The characters from some place on. -/
abbrev Source := List Cell

/-- The characters that end a line. -/
def isBreak (c : Char) : Bool :=
  c == '\n' || c == '\r' || c == '\x85' || c == '\u2028' || c == '\u2029'

def isSpace (c : Char) : Bool := c == ' ' || c == '\t'

/-- A space, a tab or the end of a line. -/
def isGap (c : Char) : Bool := isSpace c || isBreak c

/-- Letters, digits and what else names of anchors and handles are made of. -/
def isWordChar (c : Char) : Bool := c.isAlphanum || c == '_' || c == '-'

/-- The characters that a stream can hold. -/
def isPrintable (c : Char) : Bool :=
  let n := c.toNat
  n == 0x09 || n == 0x0A || n == 0x0D || (0x20 ≤ n && n ≤ 0x7E) || n == 0x85 ||
    (0xA0 ≤ n && n ≤ 0xD7FF) || (0xE000 ≤ n && n ≤ 0xFFFD) || 0x10000 ≤ n

/-- A line break as it counts in texts. -/
def breakChar (c : Char) : Char := if c == '\r' || c == '\x85' then '\n' else c

namespace Source

/-- The cells of characters, the first of which stands at the given place. -/
def cells (line column : Nat) : List Char → Source
  | [] => []
  | '\r' :: '\n' :: cs => ⟨'\n', line, column⟩ :: cells (line + 1) 0 cs
  | c :: cs =>
    if isBreak c then ⟨breakChar c, line, column⟩ :: cells (line + 1) 0 cs
    else ⟨c, line, column⟩ :: cells line (column + 1) cs

/-- The cells of a text. A byte order mark may come first; it takes a column but no cell. -/
def ofText? (text : String) : Option Source :=
  let cs := text.toList
  if cs.all isPrintable then
    match cs with
    | '\uFEFF' :: rest => some (cells 0 1 rest)
    | cs => some (cells 0 0 cs)
  else none

/-- Whether a blank or the end comes next. -/
def atGap : Source → Bool
  | [] => true
  | c :: _ => isGap c.char

/-- Whether the end of a line comes next, or the end of the stream. -/
def atLineEnd : Source → Bool
  | [] => true
  | c :: _ => isBreak c.char

/-- Whether `---` or `...` stands alone at the start of a line. -/
def atMarker : Source → Bool
  | a :: b :: c :: rest =>
    a.column == 0 && (a.char == '-' || a.char == '.') && b.char == a.char && c.char == a.char &&
      atGap rest
  | _ => false

def peek? (s : Source) : Option Char := s.head?.map Cell.char

/-- Skip spaces and tabs, a comment, and the end of the line, which must follow. -/
def skipLine? (s : Source) : Option Source :=
  let rest : Source := s.dropWhile fun c => isSpace c.char
  let rest : Source :=
    if rest.peek? = some '#' then rest.dropWhile fun c => !isBreak c.char else rest
  if rest.atLineEnd then some (rest.drop 1) else none

end Source

def chars (s : Source) : List Char := s.map Cell.char

/-- What stands for blanks between two words of a text that may go over several lines: the blanks
themselves on one line, a space for one newline, and for more of them all but the first. -/
def fold (blanks : List Char) : List Char :=
  match blanks.filter isBreak with
  | [] => blanks
  | ['\n'] => [' ']
  | '\n' :: more => more
  | breaks => breaks

end Yaml
end DocGraph
