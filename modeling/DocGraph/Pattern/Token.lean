import DocGraph.Text.Basic

/-!
# DocGraph.Pattern.Token

The tokens of glob patterns with named wildcards.

* `Token`          — literal text, `?`, `*`, `**`, a character class, or a wildcard `${*name}`.
* `Token.spelling` — the token as it is written.
* `Token.scan`     — cuts a pattern into tokens. Neighbouring literal characters make one token.

An opening bracket without a closing one is literal text, and so is `${` in front of a star without a
closing brace.
-/

namespace DocGraph

/-- One span of a pattern. -/
inductive Token where
  | literal (text : String)
  /-- One character other than a slash, `?`. -/
  | single
  /-- Any text without a slash, `*`. -/
  | star
  /-- Any text on one line, `**`. -/
  | globStar
  /-- One character of a class, or one outside of it, `[...]` or `[!...]`. -/
  | charClass (negated : Bool) (body : String)
  /-- A named wildcard. Every occurrence of a name matches the same text. -/
  | named (name : String)
deriving DecidableEq

namespace Token

/-- The token as it is written. -/
def spelling : Token → String
  | literal s => s
  | single => "?"
  | star => "*"
  | globStar => "**"
  | charClass negated body => (if negated then "[!" else "[") ++ body ++ "]"
  | named name => "$\x7b*" ++ name ++ "\x7d"

def isLiteral : Token → Bool
  | literal _ => true
  | _ => false

def name? : Token → Option String
  | named name => some name
  | _ => none

/-- Why a text is no pattern. -/
inductive Fault where
  | emptyClass
  | invalidName (name : String)
deriving DecidableEq

/-- The text up to the character `c`, if there is one. -/
def until? (c : Char) (cs : List Char) : Option (List Char) :=
  let body := cs.takeWhile (· != c)
  if body.length < cs.length then some body else none

/-- The class with the given text between its brackets. -/
def ofBrackets (body : List Char) : Except Fault Token :=
  let (negated, body) := match body with
    | '!' :: r => (true, r)
    | r => (false, r)
  if body.isEmpty then .error .emptyClass else .ok (charClass negated (String.ofList body))

/-- The wildcard with the given text between its braces. -/
def ofBraces (body : List Char) : Except Fault Token :=
  let name := String.ofList body
  if Text.isIdentifier name then .ok (named name) else .error (.invalidName name)

/-- The token other than literal text at the start of `cs`, and its length. -/
def special? (cs : List Char) : Except Fault (Option (Token × Nat)) :=
  match cs with
  | '[' :: r =>
    match until? ']' r with
    | some body => do return some (← ofBrackets body, body.length + 2)
    | none => return none
  | '$' :: '\x7b' :: '*' :: r =>
    match until? '\x7d' r with
    | some body => do return some (← ofBraces body, body.length + 4)
    | none => return none
  | '*' :: '*' :: _ => return some (globStar, 2)
  | '*' :: _ => return some (star, 1)
  | '?' :: _ => return some (single, 1)
  | _ => return none

/-- Literal text in front of tokens; it joins a literal that follows. -/
def consChar (c : Char) : List Token → List Token
  | literal s :: ts => literal (String.ofList (c :: s.toList)) :: ts
  | ts => literal c.toString :: ts

/-- The tokens of a pattern from the left. -/
def scan : List Char → Except Fault (List Token)
  | [] => .ok []
  | c :: cs => do
    match ← special? (c :: cs) with
    | some (t, n) => return t :: (← scan (cs.drop (n - 1)))
    | none => return consChar c (← scan cs)
termination_by cs => cs.length
decreasing_by
  · simp only [List.length_drop, List.length_cons]; omega
  · simp

end Token
end DocGraph
