import DocGraph.Pattern.Basic

/-!
# DocGraph.Pattern.Correlate

Several patterns that share named wildcards.

* `Correlation` — one assignment of all named wildcards, with the paths that each pattern matches
  under it.
* `correlate`   — all assignments under which every pattern matches some candidate.

The first pattern groups its candidates on its own. Each group is bound in the other patterns, and
those are correlated in turn; a group for which a later pattern matches nothing is dropped.
-/

namespace DocGraph

/-- One consistent assignment of the named wildcards of several patterns. -/
structure Correlation where
  binding : Binding
  /-- For each pattern, the paths that it matches under the binding. -/
  groups : List (List String)
deriving DecidableEq

namespace Correlation

/-- All matched paths, pattern by pattern. -/
def paths (c : Correlation) : List String := c.groups.flatten

/-- The assignment of `b` and `tail` together, with the paths of one more pattern in front. -/
def cons (b : Binding) (paths : List String) (tail : Correlation) : Correlation :=
  ⟨b.putMany tail.binding.toList, paths :: tail.groups⟩

end Correlation

/-- Correlate patterns with as many sets of candidates. -/
def correlations : List TextSet → List Pattern → List Correlation
  | c :: cs, p :: ps =>
    (p.filter c.toList).flatMap fun (b, paths) =>
      if ps.isEmpty then [⟨b, [paths]⟩]
      else (correlations cs (ps.map (·.bind b))).map (Correlation.cons b paths)
  | _, _ => []

/-- Correlate patterns, each with its own candidates. -/
def correlate (patterns : List Pattern) (candidates : List TextSet) :
    Except PatternError (List Correlation) :=
  if patterns.length = candidates.length then .ok (correlations candidates patterns)
  else .error (.candidates patterns.length candidates.length)

end DocGraph
