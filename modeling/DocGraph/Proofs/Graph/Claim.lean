import DocGraph.Graph.State
import DocGraph.Ordered.Lemmas
import Mathlib.Data.List.Nodup

/-!
# DocGraph.Proofs.Graph.Claim

What becomes of a statement that is offered to the graph.

* `Statement.makes`  — whether a path is among the outputs of a statement.
* `GraphState.knows` — whether a path is an output of a statement that was taken.
* `claim_of_fresh`, `claim_of_known`, `claim_of_mixed` — a statement is taken if none of its outputs
  is known, dropped if all of them are, and refused if some are.
* `fresh_or_known_or_mixed` — there is no other case.
-/

namespace DocGraph

/-- Whether a path is among the outputs of a statement. -/
def Statement.makes (s : Statement) (p : Path) : Bool :=
  s.allOutputs.any fun o => decide (o.Same p)

theorem Statement.makes_iff {s : Statement} {p : Path} :
    s.makes p = true ↔ ∃ o ∈ s.allOutputs, o.components = p.components := by
  simp only [makes, List.any_eq_true, decide_eq_true_eq]
  rfl

theorem Statement.makes_congr {s : Statement} {p q : Path} (h : p.Same q) :
    s.makes p = s.makes q := by
  rw [Path.Same] at h
  rw [Bool.eq_iff_iff, makes_iff, makes_iff, h]

theorem Statement.makes_self {s : Statement} {p : Path} (h : p ∈ s.allOutputs) :
    s.makes p = true := makes_iff.2 ⟨p, h, rfl⟩

namespace GraphState

/-- Whether a path is an output of a statement that was taken. -/
def knows (g : GraphState) (p : Path) : Bool := g.outputs.contains p.components

theorem knows_congr {g : GraphState} {p q : Path} (h : p.components = q.components) :
    g.knows p = g.knows q := by
  rw [knows, knows, h]

theorem existing_eq (g : GraphState) (s : Statement) :
    (proposed s).filter (fun p => g.outputs.contains p.components) =
      .ofList (s.allOutputs.filter g.knows) :=
  SortedBy.filter_ofList (fun _ _ h => g.knows_congr h) _

theorem new_eq (g : GraphState) (s : Statement) :
    (proposed s).diff g.outputs = .ofList (s.allOutputs.filter fun p => !g.knows p) :=
  SortedBy.filter_ofList (fun _ _ h => congrArg (! ·) (g.knows_congr h)) _

theorem ofList_isEmpty {l : List Path} : (.ofList l : PathSet).isEmpty = true ↔ l = [] := by
  rw [SortedBy.isEmpty, List.isEmpty_iff, SortedBy.toList_ofList_eq_nil_iff]

/-- As many of the outputs are known as there are exactly if each of them is. -/
theorem size_existing {g : GraphState} {s : Statement} :
    ((proposed s).filter fun p => g.outputs.contains p.components).size = (proposed s).size ↔
      ∀ p ∈ s.allOutputs, g.knows p = true := by
  rw [SortedBy.size, SortedBy.size, SortedBy.filter, List.length_filter_eq_length_iff]
  constructor
  · intro h p hp
    obtain ⟨q, hq, hk⟩ : ∃ q ∈ proposed s, q.components = p.components :=
      SortedBy.exists_mem_ofList hp
    rw [← g.knows_congr hk]
    exact h q hq
  · intro h q hq
    exact h q (SortedBy.mem_of_mem_ofList (SortedBy.mem_def.2 hq))

/-- A statement whose outputs are all unknown is taken. -/
theorem claim_of_fresh {g : GraphState} {s : Statement}
    (h : ∀ p ∈ s.allOutputs, g.knows p = false) :
    g.claim s = .ok (.accepted { g with outputs := g.outputs.insertMany s.allOutputs }) := by
  have hnil : s.allOutputs.filter g.knows = [] := by
    rw [List.filter_eq_nil_iff]
    intro p hp
    simp [h p hp]
  unfold claim
  dsimp only
  rw [existing_eq, hnil, if_pos (ofList_isEmpty.2 rfl), proposed, SortedBy.union_ofList]

/-- A statement whose outputs are all known is dropped. -/
theorem claim_of_known {g : GraphState} {s : Statement} (hne : s.allOutputs ≠ [])
    (h : ∀ p ∈ s.allOutputs, g.knows p = true) : g.claim s = .ok .duplicate := by
  have hfull : s.allOutputs.filter g.knows = s.allOutputs := List.filter_eq_self.2 h
  unfold claim
  dsimp only
  rw [if_neg, if_pos (size_existing.2 h)]
  rw [existing_eq, hfull, ofList_isEmpty]
  exact hne

/-- A statement with known and unknown outputs is refused, and the error names both parts. -/
theorem claim_of_mixed {g : GraphState} {s : Statement} {p q : Path} (hp : p ∈ s.allOutputs)
    (hkp : g.knows p = true) (hq : q ∈ s.allOutputs) (hkq : g.knows q = false) :
    g.claim s = .error (.ambiguous (Path.sorted (s.allOutputs.filter fun p => !g.knows p))
      (Path.sorted (s.allOutputs.filter g.knows))) := by
  unfold claim
  dsimp only
  rw [if_neg, if_neg, existing_eq, new_eq]
  · rfl
  · rw [size_existing]
    intro h
    rw [h q hq] at hkq
    cases hkq
  · rw [existing_eq, ofList_isEmpty]
    intro hnil
    have hmem : p ∈ s.allOutputs.filter g.knows := List.mem_filter.2 ⟨hp, hkp⟩
    rw [hnil] at hmem
    cases hmem

theorem fresh_or_known_or_mixed (g : GraphState) (s : Statement) :
    (∀ p ∈ s.allOutputs, g.knows p = false) ∨
      (s.allOutputs ≠ [] ∧ ∀ p ∈ s.allOutputs, g.knows p = true) ∨
      ∃ p ∈ s.allOutputs, g.knows p = true ∧ ∃ q ∈ s.allOutputs, g.knows q = false := by
  by_cases hfresh : ∀ p ∈ s.allOutputs, g.knows p = false
  · exact .inl hfresh
  · simp only [Classical.not_forall, Bool.not_eq_false] at hfresh
    obtain ⟨p, hp, hkp⟩ := hfresh
    by_cases hknown : ∀ p ∈ s.allOutputs, g.knows p = true
    · exact .inr (.inl ⟨List.ne_nil_of_mem hp, hknown⟩)
    · simp only [Classical.not_forall, Bool.not_eq_true] at hknown
      obtain ⟨q, hq, hkq⟩ := hknown
      exact .inr (.inr ⟨p, hp, hkp, q, hq, hkq⟩)

/-- Only a statement whose outputs are all unknown is taken. -/
theorem claim_accepted {g state : GraphState} {s : Statement}
    (h : g.claim s = .ok (.accepted state)) :
    (∀ p ∈ s.allOutputs, g.knows p = false) ∧
      state = { g with outputs := g.outputs.insertMany s.allOutputs } := by
  rcases g.fresh_or_known_or_mixed s with hf | ⟨hne, hk⟩ | ⟨p, hp, hkp, q, hq, hkq⟩
  · rw [claim_of_fresh hf] at h
    cases h
    exact ⟨hf, rfl⟩
  · rw [claim_of_known hne hk] at h
    cases h
  · rw [claim_of_mixed hp hkp hq hkq] at h
    cases h

/-- Only a statement whose outputs are all known is dropped. -/
theorem claim_duplicate {g : GraphState} {s : Statement} (h : g.claim s = .ok .duplicate) :
    ∀ p ∈ s.allOutputs, g.knows p = true := by
  rcases g.fresh_or_known_or_mixed s with hf | ⟨_, hk⟩ | ⟨p, hp, hkp, q, hq, hkq⟩
  · rw [claim_of_fresh hf] at h
    cases h
  · exact hk
  · rw [claim_of_mixed hp hkp hq hkq] at h
    cases h

/-- A statement without outputs is taken. -/
theorem outputs_ne_nil_of_duplicate {g : GraphState} {s : Statement}
    (h : g.claim s = .ok .duplicate) : s.allOutputs ≠ [] := by
  intro hnil
  rw [claim_of_fresh (by rw [hnil]; exact nofun)] at h
  cases h

end GraphState
end DocGraph
