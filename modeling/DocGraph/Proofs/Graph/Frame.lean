import DocGraph.Proofs.Graph.Run

/-!
# DocGraph.Proofs.Graph.Frame

Steps look neither at the entries of the graph nor at the paths that were consulted.

* `Assembly.extend` — one graph continued by another: its entries and consulted paths come first.
* `Assembly.bare`   — all that a step looks at.
* `addStep_extend`  — so a step comes to the same behind whatever entries and consulted paths.
* `foldlM_addStep_bare`, `foldlM_addStep_of_bare` — and so does a run.
-/

namespace DocGraph

namespace Assembly

/-- A graph with the entries and the consulted paths of another one in front. -/
def extend (front a : Assembly) : Assembly :=
  { a with
    state := { a.state with gendeps := front.state.gendeps.union a.state.gendeps }
    entries := front.entries ++ a.entries }

/-- A graph without entries and consulted paths. -/
def bare (a : Assembly) : Assembly :=
  { a with state := { a.state with gendeps := ∅ }, entries := [] }

theorem extend_bare (a : Assembly) : a.extend a.bare = a := by
  rw [extend, bare, List.append_nil, SortedBy.union_empty]

variable {around : Surroundings}

theorem addEmitted_extend (front a : Assembly) (e : Emitted) :
    (front.extend a).addEmitted e = (a.addEmitted e).map front.extend := by
  cases e with
  | comment text => simp [addEmitted, extend, Except.map]
  | build s d =>
    rcases a.state.fresh_or_known_or_mixed s with hf | ⟨hne, hk⟩ | ⟨p, hp, hkp, q, hq, hkq⟩
    · rw [addEmitted_accepted (GraphState.claim_of_fresh hf),
        addEmitted_accepted (GraphState.claim_of_fresh (g := (front.extend a).state) hf)]
      simp [accept, extend, Except.map]
    · rw [addEmitted_duplicate (GraphState.claim_of_known hne hk),
        addEmitted_duplicate (GraphState.claim_of_known (g := (front.extend a).state) hne hk)]
      rfl
    · rw [addEmitted_error (GraphState.claim_of_mixed hp hkp hq hkq),
        addEmitted_error (GraphState.claim_of_mixed (g := (front.extend a).state) hp hkp hq hkq)]
      rfl

theorem registerCommand_extend (front a : Assembly) (c : Command) :
    (front.extend a).registerCommand c = (a.registerCommand c).map front.extend := by
  simp only [registerCommand, extend]
  cases c.rules.toList.foldlM (register .ruleConflict) a.rules with
  | error e => rfl
  | ok rules =>
    rw [ok_bind, ok_bind]
    cases (c.pools.toList.filter fun e => e.1 != Pool.console).foldlM
      (register .poolConflict) a.pools with
    | error e => rfl
    | ok pools => rfl

theorem openTask_extend (front a : Assembly) (t : Task) :
    (front.extend a).openTask around t =
      (a.openTask around t).map fun r => (front.extend r.1, r.2) := by
  have hbarriers : (front.extend a).barriers = a.barriers := rfl
  simp only [openTask, hbarriers, registerCommand_extend]
  cases t.after.find? fun b => !a.barriers.contains b with
  | some b => rfl
  | none =>
    cases a.registerCommand t.command with
    | error e => rfl
    | ok a₁ =>
      have houtputs : (front.extend a₁).state.outputs = a₁.state.outputs := rfl
      simp only [Except.map, ok_bind, houtputs]
      cases t.generate around a₁.state.outputs with
      | error e => rfl
      | ok out => rfl

theorem consult_extend (front a : Assembly) (paths : List Path) :
    (front.extend a).consult paths = front.extend (a.consult paths) := by
  simp only [consult, extend, SortedBy.union_insertMany]

theorem addStep_extend (front a : Assembly) (step : Step) :
    (front.extend a).addStep around step = (a.addStep around step).map front.extend := by
  cases step with
  | build t =>
    rw [addStep, addStep, addTask, addTask, openTask_extend]
    cases a.openTask around t with
    | error e => rfl
    | ok r =>
      simp only [Except.map, ok_bind, foldlM_comm (addEmitted_extend front)]
      cases r.2.emitted.foldlM addEmitted r.1 with
      | error e => rfl
      | ok a₁ => exact congrArg Except.ok (consult_extend front a₁ r.2.gendeps)
  | barrier name =>
    rw [addStep, addStep]
    cases hk : a.state.knows ⟨name⟩ with
    | true =>
      rw [addBarrier_of_known hk, addBarrier_of_known (a := front.extend a) hk]
      rfl
    | false =>
      rw [addBarrier_of_fresh hk, addBarrier_of_fresh (a := front.extend a) hk]
      simp only [withBarrier, extend, List.append_assoc]
      rfl

theorem foldlM_addStep_extend (front a : Assembly) (steps : List Step) :
    steps.foldlM (addStep around) (front.extend a) =
      (steps.foldlM (addStep around) a).map front.extend :=
  foldlM_comm (addStep_extend front) steps a

/-- A run depends on the entries and the consulted paths that it starts with only in that it puts its
own behind them. -/
theorem foldlM_addStep_bare (a : Assembly) (steps : List Step) :
    steps.foldlM (addStep around) a = (steps.foldlM (addStep around) a.bare).map a.extend := by
  rw [← foldlM_addStep_extend, extend_bare]

/-- Graphs that only differ in entries and consulted paths go the same way. -/
theorem foldlM_addStep_of_bare {a b c : Assembly} {steps : List Step} (hbare : a.bare = b.bare)
    (h : steps.foldlM (addStep around) a = .ok c) :
    ∃ e, c = a.extend e ∧ steps.foldlM (addStep around) b = .ok (b.extend e) := by
  rw [foldlM_addStep_bare, map_eq_ok] at h
  obtain ⟨e, he, rfl⟩ := h
  refine ⟨e, rfl, ?_⟩
  rw [foldlM_addStep_bare, ← hbare, he]
  rfl

end Assembly
end DocGraph
