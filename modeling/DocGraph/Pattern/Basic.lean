import DocGraph.Ordered
import DocGraph.Pattern.Class
import DocGraph.Pattern.Token

/-!
# DocGraph.Pattern.Basic

Glob patterns with named wildcards.

* `Pattern`          — tokens of which a regular expression can be made.
* `Pattern.compile`  — the pattern of a text.
* `Pattern.captures` — matches a path against the whole pattern and gives the values of the named
  wildcards. Every wildcard takes as much as it can, the ones further left first.
* `Pattern.bind`     — puts values in place of named wildcards.
* `Pattern.filter`   — groups paths by the values of the named wildcards.
-/

namespace DocGraph

/-- Why patterns cannot be used. -/
inductive PatternError where
  | invalidName (pattern name : String)
  | emptyClass (pattern : String)
  /-- A class of the pattern has a range whose ends are reversed. -/
  | badClass (pattern : String)
  /-- Patterns and sets of candidates differ in number. -/
  | candidates (patterns sets : Nat)
  /-- The pattern cannot be looked up in a file tree. -/
  | badGlob
deriving DecidableEq

def PatternError.message : PatternError → String
  | invalidName pattern name => s!"Invalid wildcard name '{name}' in pattern '{pattern}'"
  | emptyClass pattern => s!"Empty character class in pattern '{pattern}'"
  | badClass pattern => s!"Couldn't compile pattern '{pattern}'."
  | candidates patterns sets => s!"Got {sets} candidate sets for {patterns} patterns"
  | badGlob => "Couldn't compile glob pattern."

/-- Values of named wildcards. -/
abbrev Binding := Table String

/-- Whether a regular expression can be made of a token. -/
def Token.isReadable : Token → Bool
  | charClass _ body => body != "" && ']' ∉ body.toList && (CharClass.read? body).isSome
  | named name => Text.isIdentifier name
  | _ => true

theorem Token.isReadable_charClass {negated : Bool} {body : String} :
    (charClass negated body).isReadable = true ↔
      body ≠ "" ∧ ']' ∉ body.toList ∧ (CharClass.read? body).isSome = true := by
  simp [isReadable, and_assoc]

/-- Tokens of which a regular expression can be made. -/
structure Pattern where
  tokens : List Token
  readable : ∀ t ∈ tokens, t.isReadable = true
deriving DecidableEq

namespace Pattern

theorem readable_literal (text : String) : ∀ t ∈ [Token.literal text], t.isReadable = true := by
  simp [Token.isReadable]

def source (p : Pattern) : String := String.join (p.tokens.map Token.spelling)

/-- Texts in order of first appearance. -/
def firsts (seen : List String) : List String → List String
  | [] => []
  | s :: l => if s ∈ seen then firsts seen l else s :: firsts (s :: seen) l

/-- The names of the named wildcards, in order of first appearance. -/
def names (p : Pattern) : List String := firsts [] (p.tokens.filterMap Token.name?)

def isLiteral (p : Pattern) : Bool := p.tokens.all Token.isLiteral

/-- The pattern of tokens that were read from `source`. -/
def ofTokens (source : String) (tokens : List Token) : Except PatternError Pattern :=
  if h : ∀ t ∈ tokens, t.isReadable = true then .ok ⟨tokens, h⟩ else .error (.badClass source)

def compile (source : String) : Except PatternError Pattern :=
  match Token.scan source.toList with
  | .ok tokens => ofTokens source tokens
  | .error .emptyClass => .error (.emptyClass source)
  | .error (.invalidName name) => .error (.invalidName source name)

/-! ## Matching -/

/-- Values of wildcards in the order in which they were found. -/
abbrev Found := List (String × List Char)

def value? (found : Found) (name : String) : Option (List Char) := found.lookup name

/-- The lengths up to `n`, longest first. -/
def downFrom : Nat → List Nat
  | 0 => [0]
  | n + 1 => (n + 1) :: downFrom n

/-- The length of the longest start of `q` without the character `c`. -/
def reach (c : Char) (q : List Char) : Nat := (q.takeWhile (· != c)).length

/-- One character that satisfies `p`. -/
def oneIf (p : Char → Bool) (q : List Char) : List Nat :=
  match q with
  | c :: _ => if p c then [1] else []
  | [] => []

/-- A given text. -/
def exactly (s q : List Char) : List Nat := if s.isPrefixOf q then [s.length] else []

/-- The lengths that a token can take from the start of `q`, longest first. -/
def lengths (found : Found) (q : List Char) : Token → List Nat
  | .literal s => exactly s.toList q
  | .single => oneIf (· != '/') q
  | .star => downFrom (reach '/' q)
  | .globStar => downFrom (reach '\n' q)
  | .charClass negated body =>
    oneIf (fun c => (CharClass.read? body).any fun k => k.accepts c != negated) q
  | .named name =>
    match value? found name with
    | some v => exactly v q
    | none => downFrom (reach '/' q)

/-- What is found once a token has taken `taken`. -/
def record (found : Found) (taken : List Char) : Token → Found
  | .named name =>
    if (value? found name).isSome then found else found ++ [(name, taken)]
  | _ => found

/-- Cut `q` into one piece per token, where the first tokens take as much as they can. -/
def cut : List Token → Found → List Char → Option Found
  | [], found, q => if q.isEmpty then some found else none
  | t :: ts, found, q =>
    (lengths found q t).findSome? fun n => cut ts (record found (q.take n) t) (q.drop n)

/-- The values of the named wildcards in the order of `names`, if the pattern matches. -/
def captures (p : Pattern) (path : String) : Option (List String) :=
  (cut p.tokens [] path.toList).map fun found => found.map fun e => String.ofList e.2

def isMatch (p : Pattern) (path : String) : Bool := (p.captures path).isSome

/-! ## Binding and grouping -/

/-- A token in front of tokens. Literal text joins a literal that follows, and empty text goes. -/
def consToken : Token → List Token → List Token
  | .literal s, ts =>
    if s.isEmpty then ts
    else match ts with
      | .literal r :: ts => .literal (s ++ r) :: ts
      | ts => .literal s :: ts
  | t, ts => t :: ts

/-- The token with its value in place of a named wildcard that has one. -/
def bindToken (b : Binding) : Token → Token
  | .named name =>
    match b.get? name with
    | some v => .literal v
    | none => .named name
  | t => t

theorem isReadable_bindToken {b : Binding} {t : Token} (h : t.isReadable = true) :
    (bindToken b t).isReadable = true := by
  unfold bindToken
  split
  · split
    · rfl
    · exact h
  · exact h

theorem isReadable_of_mem_consToken {t u : Token} {ts : List Token}
    (ht : t.isReadable = true) (hts : ∀ v ∈ ts, v.isReadable = true)
    (hu : u ∈ consToken t ts) : u.isReadable = true := by
  unfold consToken at hu
  split at hu
  · split at hu
    · exact hts u hu
    · split at hu
      · rcases List.mem_cons.1 hu with rfl | hu
        · rfl
        · exact hts u (List.mem_cons_of_mem _ hu)
      · rcases List.mem_cons.1 hu with rfl | hu
        · rfl
        · exact hts u hu
  · rcases List.mem_cons.1 hu with rfl | hu
    · exact ht
    · exact hts u hu

theorem isReadable_of_mem_foldr {b : Binding} {ts : List Token} {u : Token}
    (h : ∀ t ∈ ts, t.isReadable = true)
    (hu : u ∈ ts.foldr (fun t acc => consToken (bindToken b t) acc) []) :
    u.isReadable = true := by
  induction ts generalizing u with
  | nil => simp at hu
  | cons t ts ih =>
    have hts : ∀ v ∈ ts.foldr (fun t acc => consToken (bindToken b t) acc) [],
        v.isReadable = true :=
      fun v hv => ih (fun w hw => h w (List.mem_cons_of_mem _ hw)) hv
    exact isReadable_of_mem_consToken (isReadable_bindToken (h t (List.mem_cons_self ..))) hts hu

/-- Put the values of a binding in place of its named wildcards; other names stay. -/
def bind (p : Pattern) (b : Binding) : Pattern where
  tokens := p.tokens.foldr (fun t acc => consToken (bindToken b t) acc) []
  readable _ hu := isReadable_of_mem_foldr p.readable hu

/-- Paths that have the same values. -/
abbrev Buckets := SortedBy (Prod.fst : List String × TextSet → List String)

/-- Put a path to the others with its values. -/
def addTo (buckets : Buckets) (values : List String) (path : String) : Buckets :=
  let paths : TextSet := ((buckets.find? values).map Prod.snd).getD ∅
  buckets.put (values, paths.insert path)

/-- The matching paths by the values of the named wildcards. -/
def buckets (p : Pattern) (paths : List String) : Buckets :=
  paths.foldl (fun bs path =>
    match p.captures path with
    | some values => addTo bs values path
    | none => bs) ∅

/-- The matching paths grouped by the values of the named wildcards. Groups are in the order of
their values, and so are the paths of a group. -/
def filter (p : Pattern) (paths : List String) : List (Binding × List String) :=
  (p.buckets paths).toList.map fun e => (Table.ofPairs (p.names.zip e.1), e.2.toList)

end Pattern
end DocGraph
