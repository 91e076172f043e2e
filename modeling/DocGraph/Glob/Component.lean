import DocGraph.Pattern.Class
import DocGraph.Text.Basic

/-!
# DocGraph.Glob.Component

Components of plain globs, which are matched against the names in directories.

* `GlobItem`          — one character, `?`, `*`, or a class `[...]` or `[!...]`.
* `GlobComponent`     — a name, a list of items, or `**` for any number of directories.
* `GlobComponent.read?` — the component of a text. An opening bracket must start a class.
* `GlobItem.accept`   — whether items match a name. A wildcard takes no dot at its start.

A class holds characters and ranges `x-y` from the left, and nothing else is special in it.
-/

namespace DocGraph

/-- One span of a glob component. -/
inductive GlobItem where
  | char (c : Char)
  | single
  | star
  | charClass (negated : Bool) (set : CharSet)
deriving DecidableEq

/-- The characters and ranges of a class in a glob. -/
def CharSet.ofGlob : List Char → CharSet
  | a :: '-' :: b :: cs => .range a b :: ofGlob cs
  | a :: cs => .one a :: ofGlob cs
  | [] => []

namespace GlobItem

/-- The text up to the first closing bracket behind its first character, and what follows it. -/
def body? (cs : List Char) : Option (List Char × List Char) :=
  match cs with
  | [] => none
  | c :: r =>
    let rest := r.takeWhile (· != ']')
    if rest.length < r.length then some (c :: rest, r.drop (rest.length + 1)) else none

/-- The class behind an opening bracket, and what follows it. -/
def class? (cs : List Char) : Option (GlobItem × List Char) :=
  match cs with
  | '!' :: r => (body? r).map fun (b, rest) => (charClass true (CharSet.ofGlob b), rest)
  | r => (body? r).map fun (b, rest) => (charClass false (CharSet.ofGlob b), rest)

theorem length_body? {cs b r : List Char} (h : body? cs = some (b, r)) : r.length < cs.length := by
  unfold body? at h
  split at h
  · simp at h
  · next c rest =>
    simp only [Option.ite_none_right_eq_some, Option.some.injEq, Prod.mk.injEq] at h
    obtain ⟨_, _, rfl⟩ := h
    simp only [List.length_drop, List.length_cons]
    omega

theorem length_class? {cs r : List Char} {i : GlobItem} (h : class? cs = some (i, r)) :
    r.length < cs.length := by
  unfold class? at h
  split at h
  · obtain ⟨⟨b, rest⟩, hb, he⟩ := Option.map_eq_some_iff.1 h
    obtain ⟨_, rfl⟩ := Prod.mk.inj he
    exact Nat.lt_succ_of_lt (length_body? hb)
  · obtain ⟨⟨b, rest⟩, hb, he⟩ := Option.map_eq_some_iff.1 h
    obtain ⟨_, rfl⟩ := Prod.mk.inj he
    exact length_body? hb

/-- The items of a component other than `**`. -/
def read? : List Char → Option (List GlobItem)
  | [] => some []
  | '?' :: cs => (read? cs).map (single :: ·)
  | '*' :: '*' :: _ => none
  | '*' :: cs => (read? cs).map (star :: ·)
  | '[' :: cs =>
    match _h : class? cs with
    | some (i, rest) => (read? rest).map (i :: ·)
    | none => none
  | c :: cs => (read? cs).map (char c :: ·)
termination_by cs => cs.length
decreasing_by
  · simp
  · simp
  · exact Nat.lt_succ_of_lt (length_class? _h)
  · simp

/-- Whether an item other than `*` takes the character `c`; `first` says that `c` starts a name. -/
def takes (first : Bool) (c : Char) : GlobItem → Bool
  | char a => a == c
  | single => c != '/' && !(first && c == '.')
  | charClass negated set => c != '/' && !(first && c == '.') && set.accepts c != negated
  | star => false

/-- What a star can leave of the characters, apart from all of them; `first` says that they start
a name. -/
def starRests (first : Bool) : List Char → List (List Char)
  | [] => []
  | c :: cs => if c = '/' || (first && c == '.') then [] else cs :: starRests false cs

/-- Whether items match characters; `first` says that they start a name. -/
def accept : List GlobItem → Bool → List Char → Bool
  | [], _, cs => cs.isEmpty
  | star :: is, first, cs => accept is first cs || (starRests first cs).any (accept is false)
  | i :: is, first, cs =>
    match cs with
    | [] => false
    | c :: cs => i.takes first c && accept is (c == '/') cs

end GlobItem

/-- A component of a glob. -/
inductive GlobComponent where
  /-- A name without wildcards, which need not be listed. -/
  | name (text : String)
  | items (l : List GlobItem)
  /-- Any number of directories, `**`. -/
  | recursive
deriving DecidableEq

namespace GlobComponent

/-- The text of items that are all characters. -/
def plain? : List GlobItem → Option (List Char)
  | [] => some []
  | .char c :: is => (plain? is).map (c :: ·)
  | _ => none

/-- The component of a text between slashes. -/
def read? (cs : List Char) : Option GlobComponent :=
  if cs = ['*', '*'] then some recursive
  else (GlobItem.read? cs).map fun is =>
    match plain? is with
    | some text => name (String.ofList text)
    | none => items is

/-- One star for every run of stars. -/
def mergeStars : List Char → List Char
  | '*' :: '*' :: cs => mergeStars ('*' :: cs)
  | c :: cs => c :: mergeStars cs
  | [] => []

/-- Stars inside a longer component stand for one star, however many there are. -/
def simplify (cs : List Char) : List Char := if cs = ['*', '*'] then cs else mergeStars cs

end GlobComponent
end DocGraph
