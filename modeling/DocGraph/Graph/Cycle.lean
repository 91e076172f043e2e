import DocGraph.Graph.Digraph
import DocGraph.Ninja.Statement
import DocGraph.Ordered.Lemmas

/-!
# DocGraph.Graph.Cycle

Statements that wait for each other.

* `Producers`, `producers` — for each output, the place of the statement that makes it.
* `edges`, `digraph`       — an edge leads from a statement to each that has one of its outputs as
  an input.
* `onCycle?`               — a statement of a cycle.
-/

namespace DocGraph
namespace Graph

/-- Paths, by component, with the place of a statement. -/
abbrev Producers := SortedBy (fun e : Path × Nat => e.1.components)

/-- Every output with the place of the statement that makes it. If there are several, the last
counts. -/
def producers (l : List Statement) : Producers :=
  (∅ : Producers).putMany (l.zipIdx.flatMap fun e => e.1.allOutputs.map fun p => (p, e.2))

/-- From the statement that makes an input of another one, for every statement and every input. -/
def edges (l : List Statement) : List (Nat × Nat) :=
  let known := producers l
  l.zipIdx.flatMap fun e =>
    e.1.allInputs.filterMap fun p => (known.find? p.components).map fun maker => (maker.2, e.2)

theorem exists_of_producers {l : List Statement} {p : Path} {producer : Path × Nat}
    (h : (producers l).find? p.components = some producer) :
    producer.1.components = p.components ∧
      ∃ s, l[producer.2]? = some s ∧ producer.1 ∈ s.allOutputs := by
  obtain ⟨hmem, hkey⟩ := SortedBy.find?_eq_some_iff.1 h
  obtain hnone | hmem := SortedBy.mem_of_mem_putMany hmem
  · cases hnone
  · obtain ⟨⟨s, i⟩, hs, hout⟩ := List.mem_flatMap.1 hmem
    obtain ⟨q, hq, rfl⟩ := List.mem_map.1 hout
    exact ⟨hkey, s, List.mem_zipIdx_iff_getElem?.1 hs, hq⟩

theorem mem_edges {l : List Statement} {i j : Nat} : (i, j) ∈ edges l ↔
    ∃ s, l[j]? = some s ∧ ∃ p ∈ s.allInputs, ∃ q, (producers l).find? p.components = some (q, i) := by
  simp only [edges, List.mem_flatMap, List.mem_filterMap, Option.map_eq_some_iff]
  constructor
  · rintro ⟨⟨s, j⟩, hs, p, hp, ⟨q, i⟩, hfind, heq⟩
    cases heq
    exact ⟨s, List.mem_zipIdx_iff_getElem?.1 hs, p, hp, q, hfind⟩
  · rintro ⟨s, hs, p, hp, q, hfind⟩
    exact ⟨(s, j), List.mem_zipIdx_iff_getElem?.2 hs, p, hp, (q, i), hfind, rfl⟩

/-- The graph of statements, by their places. -/
def digraph (l : List Statement) : Digraph where
  size := l.length
  edges := edges l
  bounded := by
    rintro ⟨i, j⟩ h
    obtain ⟨s, hs, p, -, q, hfind⟩ := mem_edges.1 h
    obtain ⟨-, r, hr, -⟩ := exists_of_producers hfind
    exact ⟨(List.getElem?_eq_some_iff.1 hr).1, (List.getElem?_eq_some_iff.1 hs).1⟩

/-- A statement of a cycle, if the graph cannot be sorted. -/
def onCycle? (l : List Statement) (sort : Toposort := Digraph.toposort) : Option Statement :=
  match sort (digraph l) with
  | .ok _ => none
  | .error n => l[n]?

end Graph
end DocGraph
