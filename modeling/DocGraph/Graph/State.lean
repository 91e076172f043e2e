import DocGraph.Graph.Error

/-!
# DocGraph.Graph.State

What is known while the build graph is assembled.

* `GraphState`       — known outputs, the outputs that are built by default, and the paths that
  were consulted.
* `GraphState.claim` — offers a statement. The first statement for an output wins: one whose
  outputs are all known is dropped, and one with some known outputs is an error.
-/

namespace DocGraph

/-- What is known about the graph so far. -/
structure GraphState where
  outputs : PathSet
  defaults : PathSet
  gendeps : PathSet
deriving DecidableEq

namespace GraphState

def empty : GraphState := ⟨∅, ∅, ∅⟩

/-- What becomes of a statement. -/
inductive Claim where
  | accepted (state : GraphState)
  /-- All of its outputs are known. -/
  | duplicate

/-- The outputs of a statement, in order and without repetition. -/
def proposed (s : Statement) : PathSet := .ofList s.allOutputs

def claim (g : GraphState) (s : Statement) : Except GraphError Claim :=
  let outs := proposed s
  let existing := outs.filter fun p => g.outputs.contains p.components
  if existing.isEmpty then .ok (.accepted { g with outputs := g.outputs.union outs })
  else if existing.size = outs.size then .ok .duplicate
  else .error (.ambiguous (outs.diff g.outputs).toList existing.toList)

end GraphState
end DocGraph
