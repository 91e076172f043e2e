import DocGraph.Pattern.Basic

/-!
# DocGraph.Pattern.Glob

Other notations for a pattern.

* `Pattern.glob`       — the plain glob: named wildcards become `*`, and a wildcard goes where its
  neighbour covers it.
* `Pattern.expression` — the regular expression for the whole path, without anchors.
* `Pattern.anchored`   — the one with its anchors.
-/

namespace DocGraph

namespace Token

/-- The token in a plain glob. -/
def plain : Token → Token
  | named _ => star
  | t => t

/-- One more token behind those of a plain glob, which are held last first. -/
def mergeInto (done : List Token) (t : Token) : List Token :=
  match done, t with
  | star :: _, single | star :: _, star | globStar :: _, single | globStar :: _, star
  | globStar :: _, globStar => done
  | single :: r, star | star :: r, globStar | single :: r, globStar => t :: r
  | _, _ => t :: done

/-- The tokens of the plain glob. -/
def merged (ts : List Token) : List Token :=
  ((ts.map plain).foldl mergeInto []).reverse

/-- A literal character inside a regular expression. -/
def escapeLiteral (c : Char) : List Char :=
  if c ∈ ['\\', '.', '+', '*', '?', '(', ')', '|', '[', ']', '\x7b', '\x7d', '^', '$', '#']
  then ['\\', c] else [c]

/-- A character inside the class of a regular expression. -/
def escapeMember (c : Char) : List Char :=
  if c ∈ ['[', '\\', '&', '~', '^'] then ['\\', c] else [c]

/-- The regular expression of a token behind wildcards with the given names. -/
def expression (seen : List String) : Token → String
  | literal s => String.ofList (s.toList.flatMap escapeLiteral)
  | single => "[^/]"
  | star => "[^/]*"
  | globStar => ".*"
  | charClass negated body =>
    (if negated then "[^" else "[") ++ String.ofList (body.toList.flatMap escapeMember) ++ "]"
  | named name => if name ∈ seen then s!"(?P={name})" else s!"(?P<{name}>[^/]*)"

/-- The regular expressions of tokens behind wildcards with the given names. -/
def expressions (seen : List String) : List Token → List String
  | [] => []
  | t :: ts => t.expression seen :: expressions (t.name?.toList ++ seen) ts

end Token

namespace Pattern

def glob (p : Pattern) : String := String.join ((Token.merged p.tokens).map Token.spelling)

def expression (p : Pattern) : String := String.join (Token.expressions [] p.tokens)

def anchored (p : Pattern) : String := "^(?:" ++ p.expression ++ ")$"

end Pattern
end DocGraph
