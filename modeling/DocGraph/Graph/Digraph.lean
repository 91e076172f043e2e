/-!
# DocGraph.Graph.Digraph

Directed graphs, and orders in which edges lead forwards.

* `Digraph`          — nodes, which are the numbers below a bound, and edges between them.
* `Toposort`         — what puts the nodes of every graph in order, or else names one of them.
* `Digraph.rounds`   — takes nodes away, over and over, to which no edge leads from one that is left.
* `Digraph.toposort` — the order in which that happens, or a node of a cycle among those that stay.
-/

namespace DocGraph

/-- A directed graph. Its nodes are the numbers below `size`. -/
structure Digraph where
  size : Nat
  edges : List (Nat × Nat)
  bounded : ∀ e ∈ edges, e.1 < size ∧ e.2 < size

/-- The nodes of a graph in order, or one of them. -/
abbrev Toposort := Digraph → Except Nat (List Nat)

namespace Digraph

/-- Where an edge to a node comes from among some nodes. -/
def source? (g : Digraph) (nodes : List Nat) (n : Nat) : Option Nat :=
  (g.edges.find? fun e => e.2 == n && nodes.contains e.1).map Prod.fst

/-- So many rounds. Each takes the nodes away to which no edge leads from one that is left. There
remain the nodes that were taken, in order, and those that were not. -/
def rounds (g : Digraph) : Nat → List Nat → List Nat × List Nat
  | 0, nodes => ([], nodes)
  | k + 1, nodes =>
    let (order, rest) := g.rounds k (nodes.filter fun n => (g.source? nodes n).isSome)
    (nodes.filter (fun n => (g.source? nodes n).isNone) ++ order, rest)

/-- Go back along an edge from some nodes, so many times. -/
def climb (g : Digraph) (nodes : List Nat) : Nat → Nat → Nat
  | 0, n => n
  | k + 1, n => g.climb nodes k ((g.source? nodes n).getD n)

/-- The nodes in an order in which edges lead forwards, or a node of a cycle. Every round takes a
node away, or there is an edge to every node that is left from one that is left. Going back as often
as there are nodes ends on a cycle then. -/
def toposort : Toposort := fun g =>
  match g.rounds g.size (List.range g.size) with
  | (order, []) => .ok order
  | (_, n :: rest) => .error (g.climb (n :: rest) (n :: rest).length n)

end Digraph
end DocGraph
