import DocGraph.Yaml.Token.Basic

/-!
# DocGraph.Yaml.Token.Property

Tokens with a sign in front: directives, anchors, aliases and tags.

* `Directive.read?` — a line behind a percent sign. There are no directives but two.
* `Anchor.read?`    — the name behind `&` or `*`.
* `Tag.read?`       — a tag, which starts with an exclamation mark.
-/

namespace DocGraph
namespace Yaml

namespace Directive

/-- Blanks are skipped, of which there may be none. -/
def skipSpaces (s : Source) : Source := s.dropWhile fun c => isSpace c.char

/-- A number of at most nine digits. -/
def number? (s : Source) : Option (Nat × Source) :=
  let digits := s.takeWhile fun c => c.char.isDigit
  if digits.isEmpty || 9 < digits.length then none
  else some (digits.foldl (fun n c => n * 10 + (c.char.toNat - 48)) 0, s.drop digits.length)

/-- A version, which must be 1.1 or 1.2. -/
def version? (s : Source) : Option (Token × Source) := do
  let (major, s) ← number? (skipSpaces s)
  if s.peek? != some '.' then none
  let (minor, s) ← number? (s.drop 1)
  if major = 1 && (minor = 1 || minor = 2) then return (.version, s) else none

/-- A handle and what it stands for. -/
def tagHandle? (s : Source) : Option (Token × Source) := do
  let (handle, s) ← Handle.read? (skipSpaces s)
  if !Handle.isClosed handle && handle != ['!'] then none
  if !(s.peek?.any isSpace) then none
  let (start, s) ← Uri.read? true (skipSpaces s)
  if start.isEmpty || !s.atGap then none
  return (.tagHandle handle start, s)

/-- Read a directive behind its percent sign. -/
def read? (s : Source) : Option (Token × Source) := do
  let word := s.takeWhile fun c => isWordChar c.char
  let rest : Source := s.drop word.length
  if !rest.atGap then none
  let (token, rest) ← match String.ofList (chars word) with
    | "YAML" => version? rest
    | "TAG" => tagHandle? rest
    | _ => none
  return (token, ← rest.skipLine?)

end Directive

namespace Anchor

/-- Whether the name of an anchor can end in front of a character. -/
def endsAt (s : Source) : Bool := s.atGap || s.peek?.any fun c => "?:,]\x7d%@`".contains c

/-- Read the name of an anchor behind its sign. -/
def read? (s : Source) : Option (String × Source) :=
  let name := s.takeWhile fun c => isWordChar c.char
  let rest : Source := s.drop name.length
  if name.isEmpty || !endsAt rest then none else some (String.ofList (chars name), rest)

end Anchor

namespace Tag

/-- A tag in angle brackets, behind the first of them. -/
def verbatim? (s : Source) : Option (Token × Source) := do
  let (suffix, s) ← Uri.read? true s
  if suffix.isEmpty || s.peek? != some '>' then none
  return (.tag [] suffix, s.drop 1)

/-- A tag with a handle. A word behind a single exclamation mark is no handle but the tag itself,
and a mark alone is a tag too. -/
def short? (s : Source) : Option (Token × Source) := do
  let (handle, s) ← Handle.read? s
  let (suffix, s) ← Uri.read? false s
  if Handle.isClosed handle then
    if suffix.isEmpty then none else return (.tag handle suffix, s)
  else
    let suffix := asciiBytes (handle.drop 1) ++ suffix
    if suffix.isEmpty then return (.tag [] (asciiBytes ['!']), s)
    else return (.tag ['!'] suffix, s)

/-- Read a tag. Among brackets a comma may follow it. -/
def read? (flow : Bool) (s : Source) : Option (Token × Source) := do
  let next := (s.drop 1).head?.map Cell.char
  let (token, s) ← if next = some '<' then verbatim? (s.drop 2) else short? s
  if s.atGap || (flow && s.peek? = some ',') then return (token, s) else none

end Tag
end Yaml
end DocGraph
