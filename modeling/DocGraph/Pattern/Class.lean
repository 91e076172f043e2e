/-!
# DocGraph.Pattern.Class

Character classes of patterns.

* `CharSet`         — single characters and ranges.
* `CharClass`       — a set of characters, less other sets.
* `CharClass.read?` — the class with a given text between its brackets.

A hyphen between two characters makes a range, two of them in a row start a set that is taken away,
and any other hyphen stands for itself, as all hyphens at the start do. Everything else stands for
itself. A range whose ends are reversed is an error.
-/

namespace DocGraph

inductive CharItem where
  | one (c : Char)
  | range (first last : Char)
deriving DecidableEq

def CharItem.accepts : CharItem → Char → Bool
  | one a, c => a == c
  | range a b, c => a ≤ c && c ≤ b

abbrev CharSet := List CharItem

def CharSet.accepts (s : CharSet) (c : Char) : Bool := s.any (·.accepts c)

/-- A set of characters, less the sets that are taken away from it. -/
structure CharClass where
  base : CharSet
  removed : List CharSet
deriving DecidableEq

namespace CharClass

def accepts (k : CharClass) (c : Char) : Bool :=
  k.base.accepts c && !k.removed.any (CharSet.accepts · c)

/-- One more item at the front of the base. -/
def cons (i : CharItem) (k : CharClass) : CharClass := { k with base := i :: k.base }

/-- The class of the items in `cs`. -/
def items? : List Char → Option CharClass
  | [] => some ⟨[], []⟩
  | '-' :: '-' :: cs => (items? cs).map fun k => ⟨[], k.base :: k.removed⟩
  | c :: '-' :: d :: cs =>
    if d = '-' then (items? ('-' :: d :: cs)).map (cons (.one c))
    else if c ≤ d then (items? cs).map (cons (.range c d))
    else none
  | c :: cs => (items? cs).map (cons (.one c))

/-- The class with the given text between its brackets. -/
def read? (body : String) : Option CharClass :=
  let cs := body.toList
  let hyphens := cs.takeWhile (· == '-')
  (items? (cs.drop hyphens.length)).map fun k =>
    { k with base := hyphens.map .one ++ k.base }

end CharClass
end DocGraph
