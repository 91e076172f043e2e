import DocGraph.Text.Digit
import DocGraph.Yaml.Source

/-!
# DocGraph.Yaml.Scalar.Quoted

Texts in quotes.

* `Quoted.single` — the text up to a single quote. A quote is written twice.
* `Quoted.double` — the text up to a double quote, with escapes behind backslashes.

Both may go over several lines, which are folded, but not over the end of a document. A backslash
at the end of a line joins it to the next one.
-/

namespace DocGraph
namespace Yaml
namespace Quoted

/-- A text and what follows its closing quote. -/
abbrev Result := Option (List Char × Source)

/-- Put characters in front of a text. -/
def after (cs : List Char) (r : Result) : Result := r.map fun (text, rest) => (cs ++ text, rest)

/-- The text up to a single quote, after blanks that are held last first. -/
def single (blanks : List Char) (s : Source) : Result :=
  match s with
  | [] => none
  | c :: cs =>
    if s.atMarker then none
    else if isGap c.char then single (c.char :: blanks) cs
    else if c.char = '\'' then
      match cs with
      | [] => some (fold blanks.reverse, [])
      | d :: ds =>
        if d.char = '\'' then after (fold blanks.reverse ++ ['\'']) (single [] ds)
        else some (fold blanks.reverse, cs)
    else after (fold blanks.reverse ++ [c.char]) (single [] cs)

/-- The character of an escape with one letter. -/
def simpleEscape? (c : Char) : Option Char :=
  match c with
  | '0' => some '\x00'
  | 'a' => some '\x07'
  | 'b' => some '\x08'
  | 't' => some '\t'
  | '\t' => some '\t'
  | 'n' => some '\n'
  | 'v' => some '\x0b'
  | 'f' => some '\x0c'
  | 'r' => some '\r'
  | 'e' => some '\x1b'
  | ' ' => some ' '
  | '"' => some '"'
  | '/' => some '/'
  | '\\' => some '\\'
  | 'N' => some '\x85'
  | '_' => some '\xa0'
  | 'L' => some '\u2028'
  | 'P' => some '\u2029'
  | _ => none

/-- How many hexadecimal digits follow the letter of an escape. -/
def digitCount? (c : Char) : Option Nat :=
  match c with
  | 'x' => some 2
  | 'u' => some 4
  | 'U' => some 8
  | _ => none

/-- The character with the given hexadecimal digits. -/
def hexChar? (digits : List Char) (count : Nat) : Option Char := do
  let n ← Text.natural? 16 digits
  if digits.length = count && Nat.isValidChar n then some (Char.ofNat n) else none

/-- The character of an escape, and how many cells it takes behind the letter. -/
def escape? (letter : Char) (rest : Source) : Option (Char × Nat) :=
  match digitCount? letter with
  | some n => (hexChar? (chars (rest.take n)) n).map fun c => (c, n)
  | none => (simpleEscape? letter).map fun c => (c, 0)

/-- What stands for blanks, of which the line breaks all count behind a joined line. -/
def foldAfter (joined : Bool) (blanks : List Char) : List Char :=
  if joined then blanks.reverse.filter isBreak else fold blanks.reverse

/-- The text up to a double quote, after blanks that are held last first. They start with a joined
line or not. -/
def double (joined : Bool) (blanks : List Char) (s : Source) : Result :=
  match s with
  | [] => none
  | c :: cs =>
    if s.atMarker then none
    else if isGap c.char then double joined (c.char :: blanks) cs
    else
      let between := foldAfter joined blanks
      if c.char = '"' then some (between, cs)
      else if c.char = '\\' then
        match cs with
        | [] => none
        | d :: ds =>
          if isBreak d.char then after between (double true [] ds)
          else match escape? d.char ds with
            | some (ch, n) => after (between ++ [ch]) (double false [] (ds.drop n))
            | none => none
      else after (between ++ [c.char]) (double false [] cs)
termination_by s.length
decreasing_by
  all_goals simp only [List.length_cons, List.length_drop]; omega

end Quoted
end Yaml
end DocGraph
