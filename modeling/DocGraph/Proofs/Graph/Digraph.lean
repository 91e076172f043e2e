import DocGraph.Graph.Digraph
import Mathlib.Data.Finset.Card
import Mathlib.Data.Set.Function
import Mathlib.Logic.Relation

/-!
# DocGraph.Proofs.Graph.Digraph

Topological orders.

* `Precedes`             — one element of a list stands in front of another one.
* `Digraph.OnCycle`, `Digraph.Sorted` — a chain of edges leads back to a node, and all edges lead
  forwards in an order.
* `Toposort.Correct`     — what is in order is sorted, and a node that is named instead is on a cycle.
* `Sorted.not_onCycle`   — a graph that can be sorted has no cycle.
* `forward_rounds`       — edges lead forwards among what was taken away in rounds.
* `exists_edge_of_left`  — what stays after all rounds has an edge from what stays.
* `onCycle_climb`        — so going back along edges ends on a cycle.
* `correct_toposort`     — the sort by rounds is correct.
-/

namespace DocGraph

/-! ## Places in a list -/

section

variable {α : Type} {order : List α} {a b c : α}

/-- Wherever `b` stands in an order, `a` stands in front of it. -/
def Precedes (order : List α) (a b : α) : Prop := ∀ xs ys, order = xs ++ b :: ys → a ∈ xs

theorem Precedes.trans (hab : Precedes order a b) (hbc : Precedes order b c) :
    Precedes order a c := by
  intro xs ys h
  obtain ⟨ws, zs, rfl⟩ := List.append_of_mem (hbc xs ys h)
  rw [List.append_assoc, List.cons_append] at h
  exact List.mem_append_left _ (hab ws _ h)

theorem precedes_of_transGen {R : α → α → Prop} (hR : ∀ a b, R a b → Precedes order a b)
    (h : Relation.TransGen R a b) : Precedes order a b := by
  induction h with
  | single hab => exact hR _ _ hab
  | tail _ hbc ih => exact ih.trans (hR _ _ hbc)

/-- Nothing stands in front of its first place. -/
theorem not_precedes_self (ha : a ∈ order) : ¬Precedes order a a := by
  intro h
  obtain ⟨xs, ys, hsplit, hnot⟩ := List.eq_append_cons_of_mem ha
  exact hnot (h xs ys hsplit)

/-- What stands behind `xs` and is not in it has its places in the rest. -/
theorem Precedes.append {xs : List α} (hb : b ∉ xs) (h : a ∈ xs ∨ Precedes order a b) :
    Precedes (xs ++ order) a b := by
  intro front back hsplit
  rcases List.append_eq_append_iff.1 hsplit with ⟨as, rfl, horder⟩ | ⟨bs, rfl, hbs⟩
  · rcases h with h | h
    · exact List.mem_append_left _ h
    · exact List.mem_append_right _ (h as back horder)
  · cases bs with
    | nil =>
      rw [List.append_nil] at h hb
      exact h.elim id fun h => absurd (h [] back hbs.symm) List.not_mem_nil
    | cons b' bs =>
      cases hbs
      exact absurd (List.mem_append_right _ List.mem_cons_self) hb

end

/-! ## Specification -/

namespace Digraph

variable {g : Digraph} {m n : Nat} {nodes order : List Nat}

def Edge (g : Digraph) (m n : Nat) : Prop := (m, n) ∈ g.edges

/-- A chain of edges leads from the node to itself. -/
def OnCycle (g : Digraph) (n : Nat) : Prop := Relation.TransGen g.Edge n n

/-- All nodes are in order, and all edges lead forwards. -/
structure Sorted (g : Digraph) (order : List Nat) : Prop where
  perm : order.Perm (List.range g.size)
  forward : ∀ m n, g.Edge m n → Precedes order m n

theorem OnCycle.lt (h : g.OnCycle n) : n < g.size := by
  cases h with
  | single h => exact (g.bounded _ h).1
  | tail _ h => exact (g.bounded _ h).2

theorem Sorted.not_onCycle (h : g.Sorted order) : ¬g.OnCycle n := by
  intro hn
  have hmem : n ∈ order := h.perm.mem_iff.2 (List.mem_range.2 hn.lt)
  exact not_precedes_self hmem (precedes_of_transGen h.forward hn)

end Digraph

/-- A sort that gives sorted nodes, or else a node of a cycle. -/
structure Toposort.Correct (sort : Toposort) : Prop where
  sorted : ∀ g order, sort g = .ok order → g.Sorted order
  onCycle : ∀ g n, sort g = .error n → g.OnCycle n

namespace Digraph

variable {g : Digraph} {m n : Nat} {nodes order : List Nat}

/-! ## Rounds -/

theorem source?_eq_some (h : g.source? nodes n = some m) : m ∈ nodes ∧ g.Edge m n := by
  obtain ⟨⟨m', n'⟩, hfind, rfl⟩ := Option.map_eq_some_iff.1 h
  have hends := List.find?_some hfind
  rw [Bool.and_eq_true, beq_iff_eq, List.contains_iff_mem] at hends
  obtain ⟨rfl, hm⟩ := hends
  exact ⟨hm, List.mem_of_find?_eq_some hfind⟩

theorem isSome_source?_iff :
    (g.source? nodes n).isSome = true ↔ ∃ m ∈ nodes, g.Edge m n := by
  constructor
  · intro h
    obtain ⟨m, hm⟩ := Option.isSome_iff_exists.1 h
    exact ⟨m, source?_eq_some hm⟩
  · rintro ⟨m, hm, hedge⟩
    rw [source?, Option.isSome_map, List.find?_isSome]
    exact ⟨_, hedge, by simpa using hm⟩

theorem perm_rounds (g : Digraph) (k : Nat) (nodes : List Nat) :
    ((g.rounds k nodes).1 ++ (g.rounds k nodes).2).Perm nodes := by
  induction k generalizing nodes with
  | zero => exact .refl _
  | succ k ih =>
    have hsplit := List.filter_append_perm (fun n => (g.source? nodes n).isNone) nodes
    simp only [Option.not_isNone] at hsplit
    rw [rounds, List.append_assoc]
    exact ((ih _).append_left _).trans hsplit

/-- Of nodes that are taken away, every one stands behind those that have an edge to it. -/
theorem forward_rounds {k : Nat} (hm : m ∈ nodes) (hedge : g.Edge m n) :
    Precedes (g.rounds k nodes).1 m n := by
  induction k generalizing nodes with
  | zero =>
    intro xs ys h
    cases xs <;> cases h
  | succ k ih =>
    have hwaits : (g.source? nodes n).isSome = true := isSome_source?_iff.2 ⟨m, hm, hedge⟩
    refine Precedes.append ?_ ?_
    · intro hn
      have hready := (List.mem_filter.1 hn).2
      rw [← Option.not_isSome, hwaits] at hready
      cases hready
    · by_cases hready : (g.source? nodes m).isNone = true
      · exact .inl (List.mem_filter.2 ⟨hm, hready⟩)
      · rw [← Option.not_isSome, Bool.not_eq_true', Bool.not_eq_false] at hready
        exact .inr (ih (List.mem_filter.2 ⟨hm, hready⟩))

/-- If every node waits for another one, nothing is taken away. -/
theorem rounds_of_all (hall : nodes.filter (fun n => (g.source? nodes n).isSome) = nodes) (k : Nat) :
    (g.rounds k nodes).2 = nodes := by
  induction k with
  | zero => rfl
  | succ k ih =>
    rw [rounds, hall]
    exact ih

/-- With a round for every node, there is an edge to whatever is left from what is left. -/
theorem exists_edge_of_left {k : Nat} (hk : nodes.length ≤ k) (hn : n ∈ (g.rounds k nodes).2) :
    ∃ m ∈ (g.rounds k nodes).2, g.Edge m n := by
  induction k generalizing nodes with
  | zero =>
    rw [List.length_eq_zero_iff.1 (Nat.le_zero.1 hk)] at hn
    cases hn
  | succ k ih =>
    rcases Nat.lt_or_ge (nodes.filter fun n => (g.source? nodes n).isSome).length nodes.length with
      hshorter | hsame
    · exact ih (by omega) hn
    · have hall : nodes.filter (fun n => (g.source? nodes n).isSome) = nodes :=
        List.filter_sublist.eq_of_length_le hsame
      rw [rounds_of_all hall] at hn ⊢
      rw [← hall] at hn
      exact isSome_source?_iff.1 (List.mem_filter.1 hn).2

/-! ## From what is left to a cycle -/

/-- The node to which `climb` goes from `n`. -/
def above (g : Digraph) (nodes : List Nat) (n : Nat) : Nat := (g.source? nodes n).getD n

theorem climb_eq_iterate (g : Digraph) (nodes : List Nat) (k n : Nat) :
    g.climb nodes k n = (g.above nodes)^[k] n := by
  induction k generalizing n with
  | zero => rfl
  | succ k ih => rw [climb, ih, Function.iterate_succ_apply, above]

section

variable (hall : ∀ n ∈ nodes, ∃ m ∈ nodes, g.Edge m n)
include hall

theorem above_spec (hn : n ∈ nodes) : g.above nodes n ∈ nodes ∧ g.Edge (g.above nodes n) n := by
  obtain ⟨m, hm⟩ := Option.isSome_iff_exists.1 (isSome_source?_iff.2 (hall n hn))
  rw [above, hm, Option.getD_some]
  exact source?_eq_some hm

theorem iterate_above_mem (hn : n ∈ nodes) (k : Nat) : (g.above nodes)^[k] n ∈ nodes := by
  induction k generalizing n with
  | zero => exact hn
  | succ k ih => exact ih (above_spec hall hn).1

/-- Everything on the way back leads to where the way started. -/
theorem transGen_iterate_above (hn : n ∈ nodes) (k : Nat) :
    Relation.TransGen g.Edge ((g.above nodes)^[k + 1] n) n := by
  induction k generalizing n with
  | zero => exact .single (above_spec hall hn).2
  | succ k ih =>
    obtain ⟨hmem, hedge⟩ := above_spec hall hn
    exact .tail (ih hmem) hedge

/-- Going back as often as there are nodes ends on a cycle, since the way there passes one node
twice. -/
theorem onCycle_climb (hn : n ∈ nodes) : g.OnCycle (g.climb nodes nodes.length n) := by
  rw [climb_eq_iterate]
  have hcard : nodes.toFinset.card < (Finset.range (nodes.length + 1)).card := by
    rw [Finset.card_range]
    exact Nat.lt_succ_of_le nodes.toFinset_card_le
  have hmaps : Set.MapsTo (fun k => (g.above nodes)^[k] n) (Finset.range (nodes.length + 1))
      nodes.toFinset :=
    fun k _ => List.mem_toFinset.2 (iterate_above_mem hall hn k)
  obtain ⟨i, hi, j, hj, hne, heq⟩ := Finset.exists_ne_map_eq_of_card_lt_of_maps_to hcard hmaps
  rw [Finset.mem_range] at hi hj
  -- from the first time on, the way repeats itself
  have hperiod : ∀ i j, i < j → i ≤ nodes.length →
      (g.above nodes)^[i] n = (g.above nodes)^[j] n →
        g.OnCycle ((g.above nodes)^[nodes.length] n) := by
    intro i j hij hi heq
    have hback : (g.above nodes)^[(j - i - 1) + 1] ((g.above nodes)^[nodes.length] n) =
        (g.above nodes)^[nodes.length] n := by
      calc (g.above nodes)^[(j - i - 1) + 1] ((g.above nodes)^[nodes.length] n)
          = (g.above nodes)^[(nodes.length - i) + j] n := by
            rw [← Function.iterate_add_apply]
            congr 1
            omega
        _ = (g.above nodes)^[(nodes.length - i) + i] n := by
            rw [Function.iterate_add_apply, ← heq, ← Function.iterate_add_apply]
        _ = (g.above nodes)^[nodes.length] n := by rw [Nat.sub_add_cancel hi]
    have hchain := transGen_iterate_above hall (iterate_above_mem hall hn nodes.length) (j - i - 1)
    rw [hback] at hchain
    exact hchain
  rcases Nat.lt_or_gt_of_ne hne with hlt | hlt
  · exact hperiod i j hlt (by omega) heq
  · exact hperiod j i hlt (by omega) heq.symm

end

/-! ## The sort -/

theorem sorted_rounds {k : Nat} (hrest : (g.rounds k (List.range g.size)).2 = []) :
    g.Sorted (g.rounds k (List.range g.size)).1 := by
  have hperm := perm_rounds g k (List.range g.size)
  rw [hrest, List.append_nil] at hperm
  exact ⟨hperm, fun m n hedge => forward_rounds (List.mem_range.2 (g.bounded _ hedge).1) hedge⟩

theorem correct_toposort : Toposort.Correct toposort where
  sorted g order h := by
    rw [toposort] at h
    split at h
    · next order' heq =>
      cases h
      have hsorted := sorted_rounds (g := g) (k := g.size) (by rw [heq])
      rwa [heq] at hsorted
    · cases h
  onCycle g n h := by
    rw [toposort] at h
    split at h
    · cases h
    · next order' first rest heq =>
      cases h
      have hall : ∀ n ∈ first :: rest, ∃ m ∈ first :: rest, g.Edge m n := by
        intro n hn
        have hleft : n ∈ (g.rounds g.size (List.range g.size)).2 := by rwa [heq]
        have hedge := exists_edge_of_left (by rw [List.length_range]) hleft
        rwa [heq] at hedge
      exact onCycle_climb hall List.mem_cons_self

end Digraph

/-- A correct sort puts the nodes in order exactly if there is no cycle. -/
theorem Toposort.Correct.exists_order_iff {sort : Toposort} (h : sort.Correct) (g : Digraph) :
    (∃ order, sort g = .ok order) ↔ ¬∃ n, g.OnCycle n := by
  constructor
  · rintro ⟨order, horder⟩ ⟨n, hn⟩
    exact (h.sorted g order horder).not_onCycle hn
  · intro hacyclic
    cases hsort : sort g with
    | ok order => exact ⟨order, rfl⟩
    | error n => exact absurd ⟨n, h.onCycle g n hsort⟩ hacyclic

end DocGraph
