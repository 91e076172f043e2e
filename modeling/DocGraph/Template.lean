import DocGraph.Ordered
import DocGraph.Path.Normal
import DocGraph.Text.Basic

/-!
# DocGraph.Template

Texts with placeholders `${name}` or `$name`, where `$$` stands for one dollar. A name is an
identifier, and a star in front of it marks a named wildcard.

* `scan`            — cuts a template into literal characters, escapes, placeholders and stray
  dollars. Every way of substitution goes through it.
* `substitute`      — fills every placeholder in; an unknown name or a stray dollar is an error.
* `substituteKeepingWildcards` — the same, but unknown wildcards and stray dollars stay.
* `substituteSafe`  — unknown names and stray dollars stay as they are, so it never fails.
* `resolvePath`     — a path of a configuration file, relative to the project root.
-/

namespace DocGraph

/-- Values of variables. -/
abbrev Variables := Table String

/-- A way to look names up. -/
abbrev Lookup := String → Option String

namespace Variables

def lookup (vars : Variables) : Lookup := vars.get?

/-- The lookup in `inner`, and for names it lacks in `outer`. -/
def layered (inner outer : Variables) : Lookup := fun name =>
  (inner.get? name).or (outer.get? name)

/-- Variables for the values of named wildcards; their names carry a star. -/
def ofWildcards (binding : Table String) : Variables :=
  Table.ofPairs (binding.toList.map fun e => ("*" ++ e.1, e.2))

end Variables

namespace Template

/-- Why a template has no substitution. -/
inductive Error where
  /-- No value is known for the name. -/
  | missing (template name : String)
  /-- The dollar at this byte starts no placeholder. -/
  | stray (template : String) (offset : Nat)
deriving DecidableEq

def Error.message : Error → String
  | missing template name => s!"Unknown variable '{name}' in '{template}'"
  | stray template offset => s!"Invalid placeholder at position {offset} in '{template}'"

/-- One part of a template. -/
inductive Part where
  | char (c : Char)
  /-- `$$`, which stands for a dollar. -/
  | escape
  /-- A name and the placeholder as it is written. -/
  | placeholder (name spelling : List Char)
  /-- A dollar that starts none of these. -/
  | stray
deriving DecidableEq

/-- The part as it is written. -/
def Part.spelling : Part → List Char
  | char c => [c]
  | escape => ['$', '$']
  | placeholder _ s => s
  | stray => ['$']

/-- The longest identifier at the start of `cs`, which a star may precede. -/
def leadingName? (cs : List Char) : Option (List Char) :=
  let (star, body) := match cs with
    | '*' :: r => (['*'], r)
    | r => ([], r)
  match body with
  | c :: r => if Text.isNameStart c then some (star ++ c :: r.takeWhile Text.isNameChar) else none
  | [] => none

/-- The part that starts with a dollar in front of `cs`. -/
def afterDollar (cs : List Char) : Part :=
  match cs with
  | '$' :: _ => .escape
  | '{' :: r =>
    match leadingName? r with
    | some name =>
      if (r.drop name.length).head? = some '}' then .placeholder name ('$' :: '{' :: name ++ ['}'])
      else .stray
    | none => .stray
  | cs =>
    match leadingName? cs with
    | some name => .placeholder name ('$' :: name)
    | none => .stray

/-- The parts of a template from the left. -/
def scan : List Char → List Part
  | [] => []
  | c :: cs =>
    if c = '$' then
      let part := afterDollar cs
      part :: scan (cs.drop (part.spelling.length - 1))
    else .char c :: scan cs
termination_by cs => cs.length
decreasing_by
  · simp only [List.length_drop, List.length_cons]; omega
  · simp

/-- What becomes of names without a value and of stray dollars. -/
inductive Policy where
  | strict
  | keepWildcards
  | safe
deriving DecidableEq

/-- Whether a placeholder without a value stays as it is written. -/
def Policy.keeps : Policy → List Char → Bool
  | strict, _ => false
  | keepWildcards, name => name.head? == some '*'
  | safe, _ => true

/-- The text of one part, which starts at byte `offset` of `template`. -/
def renderPart (template : String) (v : Lookup) (policy : Policy) (offset : Nat) :
    Part → Except Error (List Char)
  | .char c => .ok [c]
  | .escape => .ok ['$']
  | .stray => if policy = .strict then .error (.stray template offset) else .ok ['$']
  | .placeholder name spelling =>
    match v (String.ofList name) with
    | some value => .ok value.toList
    | none =>
      if policy.keeps name then .ok spelling else .error (.missing template (String.ofList name))

/-- The number of bytes of characters in UTF-8. -/
def byteLength : List Char → Nat
  | [] => 0
  | c :: cs => c.utf8Size + byteLength cs

/-- The texts of all parts, the first of which starts at byte `offset`. -/
def renderParts (template : String) (v : Lookup) (policy : Policy) :
    Nat → List Part → Except Error (List Char)
  | _, [] => .ok []
  | offset, p :: ps => do
    let text ← renderPart template v policy offset p
    let rest ← renderParts template v policy (offset + byteLength p.spelling) ps
    return text ++ rest

/-- Fill a template in under a policy. -/
def render (template : String) (v : Lookup) (policy : Policy) : Except Error String :=
  (renderParts template v policy 0 (scan template.toList)).map String.ofList

/-- Fill every placeholder in. -/
def substitute (template : String) (v : Lookup) : Except Error String :=
  render template v .strict

/-- Fill ordinary placeholders in, and keep wildcards for pattern matching. -/
def substituteKeepingWildcards (template : String) (v : Lookup) : Except Error String :=
  render template v .keepWildcards

/-- Fill known placeholders in and leave everything else as it is. -/
def substituteSafe (template : String) (v : Lookup) : String :=
  match render template v .safe with
  | .ok text => text
  | .error _ => template

def Part.name? : Part → Option String
  | placeholder name _ => some (String.ofList name)
  | _ => none

/-- Texts without repetition, each at its first place. -/
def distinct (l : List String) : List String :=
  l.foldl (fun seen s => if s ∈ seen then seen else seen ++ [s]) []

/-- The names of all placeholders in order of first appearance. -/
def identifiers (template : String) : List String :=
  distinct ((scan template.toList).filterMap Part.name?)

/-- A path of a configuration file, made relative to the project root. An absolute result is taken
relative to the variable `root`, any other is joined to the variable `here`. A slash at the end
marks a directory and stays. -/
def resolvePath (path : String) (v : Lookup) : Except Error String := do
  let expanded ← substituteKeepingWildcards path v
  let require (name : String) : Except Error String :=
    match v name with
    | some value => .ok value
    | none => .error (.missing path name)
  let joined ← if (Path.mk expanded).isAbsolute
    then (require "root").map fun root => (Path.mk expanded).relativeTo ⟨root⟩
    else (require "here").map fun here => (Path.mk here).join ⟨expanded⟩
  let result := joined.normalize
  return if Text.endsWith '/' expanded && !result.isDirLike then result.text ++ "/" else result.text

end Template
end DocGraph
