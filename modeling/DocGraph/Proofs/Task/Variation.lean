import DocGraph.Proofs.Task.Emission

/-!
# DocGraph.Proofs.Task.Variation

One task in two situations. Other outputs may be known, and other inputs may be missing.

* `Task.forgiving`     — the task with other inputs that may be missing.
* `postProcess_eq`     — post-processing goes well if there are outputs and placeholders can be filled
  in, whatever is missing.
* `TaskOutput.Related` — the same is consulted, and what is emitted is related one by one.
* `generate_related`   — generating relates what post-processing relates.
-/

namespace DocGraph

/-- What is emitted is related one by one. -/
structure TaskOutput.Related (R : Emitted → Emitted → Prop) (out out' : TaskOutput) : Prop where
  gendeps_eq : out'.gendeps = out.gendeps
  emitted : List.Forall₂ R out.emitted out'.emitted

theorem TaskOutput.Related.append {R : Emitted → Emitted → Prop} {out₁ out₁' out₂ out₂' : TaskOutput}
    (h₁ : out₁.Related R out₁') (h₂ : out₂.Related R out₂') :
    (out₁.append out₂).Related R (out₁'.append out₂') := by
  refine ⟨?_, List.rel_append h₁.emitted h₂.emitted⟩
  rw [TaskOutput.append, TaskOutput.append, h₁.gendeps_eq, h₂.gendeps_eq]

namespace Task

/-- The task with other patterns of inputs that may be missing. -/
def forgiving (t : Task) (l : List Pattern) : Task := { t with ignoreMissing := l }

theorem allOutputs_placeholder (s : Statement) (missing : List Path) :
    (placeholder s missing).allOutputs = s.tidy.allOutputs := rfl

theorem allOutputs_complete (t : Task) (s : Statement) :
    (t.complete s).allOutputs = s.tidy.allOutputs := by
  obtain ⟨_, _, h⟩ := t.complete_eq s
  rw [h]
  rfl

theorem postProcess_eq (t : Task) (tree : Tree) (known : PathSet) {s s₁ : Statement}
    (ho : s.outputs ≠ []) (hs₁ : expand t.constants (overrideVariables t.constants s) = .ok s₁) :
    t.postProcess tree known s = .ok (if t.missingInputs tree known s₁ = [] then
      .build (t.complete s₁) (t.isDefault && (t.complete s₁).rule != Rule.phony)
      else .build (placeholder s₁ (t.missingInputs tree known s₁)) false) := by
  unfold postProcess
  rw [if_neg (by simpa using ho), hs₁]
  by_cases hm : t.missingInputs tree known s₁ = []
  · rw [if_pos hm]
    refine if_neg ?_
    simp [hm]
  · rw [if_neg hm]
    refine if_pos ?_
    simpa using hm

variable {t : Task} {around : Surroundings} {tree : Tree} {known : PathSet}

theorem generateFor_of {c : Correlation} {outputs : List Path} {g : Generated}
    {emitted : List Emitted} (houtputs : t.bindOutputs c.binding = .ok outputs)
    (hg : t.action around (c.paths.map Path.mk) outputs = .ok g)
    (hemitted : g.entries.mapM (t.emit around.tree known) = .ok emitted) :
    t.generateFor around known c =
      .ok ⟨t.comments (c.paths.map Path.mk) outputs ++ emitted, g.gendeps⟩ := by
  have hmatch : t.generateMatch around known (c.paths.map Path.mk) outputs =
      .ok ⟨t.comments (c.paths.map Path.mk) outputs ++ emitted, g.gendeps⟩ := by
    simp only [generateMatch, hg, Except.mapError, ok_bind, hemitted]
    rfl
  simp only [generateFor, houtputs, Except.mapError, ok_bind, hmatch]

variable {R : Emitted → Emitted → Prop} {l : List Pattern} {known' : PathSet} {out : TaskOutput}
  (hcomment : ∀ text, R (.comment text) (.comment text))
  (hpost : ∀ s e, t.postProcess around.tree known s = .ok e →
    ∃ e', (t.forgiving l).postProcess around.tree known' s = .ok e' ∧ R e e')
include hcomment hpost

theorem generateFor_related {c : Correlation} (h : t.generateFor around known c = .ok out) :
    ∃ out', (t.forgiving l).generateFor around known' c = .ok out' ∧ out.Related R out' := by
  have hemit : ∀ entry e, t.emit around.tree known entry = .ok e →
      ∃ e', (t.forgiving l).emit around.tree known' entry = .ok e' ∧ R e e' := by
    intro entry e he
    cases entry with
    | comment text =>
      cases he
      exact ⟨_, rfl, hcomment text⟩
    | build s => exact hpost s e he
  obtain ⟨outputs, g, emitted, houtputs, hg, hemitted, rfl⟩ := generateFor_ok h
  obtain ⟨emitted', hemitted', hrelated⟩ := mapM_again hemit hemitted
  refine ⟨_, generateFor_of houtputs hg hemitted', rfl, List.rel_append ?_ hrelated⟩
  refine List.forall₂_same.2 fun e he => ?_
  obtain ⟨text, -, rfl⟩ := List.mem_map.1 he
  exact hcomment text

theorem generateAll_related {cs : List Correlation} (h : t.generateAll around known cs = .ok out) :
    ∃ out', (t.forgiving l).generateAll around known' cs = .ok out' ∧ out.Related R out' := by
  induction cs generalizing out with
  | nil =>
    cases h
    exact ⟨_, rfl, rfl, .nil⟩
  | cons c cs ih =>
    obtain ⟨first, hfirst, h⟩ := bind_eq_ok.1 h
    obtain ⟨rest, hrest, h⟩ := bind_eq_ok.1 h
    cases h
    obtain ⟨first', hfirst', hrelated⟩ := generateFor_related hcomment hpost hfirst
    obtain ⟨rest', hrest', hrelateds⟩ := ih hrest
    refine ⟨first'.append rest', ?_, hrelated.append hrelateds⟩
    rw [generateAll, hfirst', ok_bind, hrest']
    rfl

/-- Generating relates what post-processing relates, if the task matches the same. -/
theorem generate_related (hmatch : t.matchInputs around.tree known = t.matchInputs around.tree known')
    (h : t.generate around known = .ok out) :
    ∃ out', (t.forgiving l).generate around known' = .ok out' ∧ out.Related R out' := by
  have hmatch' : (t.forgiving l).matchInputs around.tree known' =
      t.matchInputs around.tree known := hmatch.symm
  rw [generate] at h ⊢
  obtain ⟨found, hfound, h⟩ := bind_eq_ok.1 h
  rw [hmatch', mapError_eq_ok.2 (mapError_eq_ok.1 hfound), ok_bind]
  split at h
  · next hempty =>
    rw [if_pos hempty]
    split at h
    · next hoptional =>
      cases h
      exact ⟨_, if_pos hoptional, rfl, .cons (hcomment _) .nil⟩
    · cases h
  · next hempty =>
    rw [if_neg hempty]
    exact generateAll_related hcomment hpost h

end Task
end DocGraph
