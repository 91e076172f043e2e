import DocGraph.Proofs.Outcome
import DocGraph.Task.Generate

/-!
# DocGraph.Proofs.Task.Emission

What a task adds to the build file, read off the statement that it emits.

* `PostProcessed`        — a statement, and whether it is a default, came out of post-processing.
* `Finished`             — what post-processing gives: a placeholder that is no default, or a completed
  statement that is a default as the task and its rule say.
* `Expanded`             — what filling placeholders in does to the paths of a statement.
* `postProcess_ok`, `postProcess_finished` — it gives nothing else.
* `generateFor_ok`, `generate_ok` — what generating for an assignment, and for all, comes to.
* `source_of_generate` — every statement that a task emits came out of post-processing, and stems from
  one of the command.
* `rule_of_postProcess` — which rule it then has.
-/

namespace DocGraph
namespace Task

/-- A statement, and whether it is built by default, came out of post-processing. -/
def PostProcessed (t : Task) (tree : Tree) (s : Statement) (d : Bool) : Prop :=
  ∃ known s₀, t.postProcess tree known s₀ = .ok (.build s d)

/-- A statement of the command after expansion is either replaced, as some of its inputs are
missing, or completed. -/
inductive Finished (t : Task) (tree : Tree) (known : PathSet) : Statement → Bool → Prop where
  | replaced {s : Statement} (ho : s.outputs ≠ []) (hm : t.missingInputs tree known s ≠ []) :
      Finished t tree known (placeholder s (t.missingInputs tree known s)) false
  | completed {s : Statement} (ho : s.outputs ≠ []) (hm : t.missingInputs tree known s = []) :
      Finished t tree known (t.complete s) (t.isDefault && (t.complete s).rule != Rule.phony)

/-- Every path of the second statement is one of the first with its placeholders filled in. -/
structure Expanded (constants : Variables) (s s₁ : Statement) : Prop where
  outputs : List.Forall₂ (fun p q => expandPath constants p = .ok q) s.outputs s₁.outputs
  implicitOutputs : List.Forall₂ (fun p q => expandPath constants p = .ok q)
    s.implicitOutputs s₁.implicitOutputs
  inputs : List.Forall₂ (fun p q => expandPath constants p = .ok q) s.inputs s₁.inputs
  implicit : List.Forall₂ (fun p q => expandPath constants p = .ok q) s.implicit s₁.implicit
  orderOnly : List.Forall₂ (fun p q => expandPath constants p = .ok q) s.orderOnly s₁.orderOnly

theorem expanded_of_expand {constants : Variables} {s s₁ : Statement}
    (h : expand constants s = .ok s₁) : Expanded constants s s₁ := by
  obtain ⟨s₂, h₂, h₁⟩ := bind_eq_ok.1 h
  obtain ⟨_, houts, h₂⟩ := bind_eq_ok.1 h₂
  obtain ⟨_, himplicitOuts, h₂⟩ := bind_eq_ok.1 h₂
  obtain ⟨_, hins, h₂⟩ := bind_eq_ok.1 h₂
  obtain ⟨_, himplicit, h₂⟩ := bind_eq_ok.1 h₂
  obtain ⟨_, horder, h₂⟩ := bind_eq_ok.1 h₂
  cases h₁
  cases h₂
  exact ⟨mapM_eq_ok.1 houts, mapM_eq_ok.1 himplicitOuts, mapM_eq_ok.1 hins,
    mapM_eq_ok.1 himplicit, mapM_eq_ok.1 horder⟩

theorem Expanded.outputs_ne_nil {constants : Variables} {s s₁ : Statement}
    (h : Expanded constants s s₁) (ho : s.outputs ≠ []) : s₁.outputs ≠ [] := by
  intro hnil
  have hlen := h.outputs.length_eq
  rw [hnil] at hlen
  exact ho (List.length_eq_zero_iff.1 hlen)

/-- Directories change nothing but the rule and the variables. -/
theorem addDirectories_eq (s : Statement) :
    ∃ rule vars, addDirectories s = { s with rule := rule, vars := vars } := by
  unfold addDirectories
  dsimp only
  split
  · exact ⟨_, _, rfl⟩
  · exact ⟨_, _, rfl⟩

theorem complete_eq (t : Task) (s : Statement) :
    ∃ rule vars, t.complete s = { s.tidy with
      rule := rule, vars := vars, orderOnly := s.tidy.orderOnly ++ t.after.map Path.mk } := by
  unfold complete
  split
  · exact ⟨_, _, rfl⟩
  · obtain ⟨rule, vars, h⟩ := addDirectories_eq s
    rw [h]
    exact ⟨_, _, rfl⟩

@[simp] theorem complete_outputs (t : Task) (s : Statement) :
    (t.complete s).outputs = s.outputs := by
  obtain ⟨_, _, h⟩ := t.complete_eq s
  rw [h]
  rfl

theorem complete_inputs (t : Task) (s : Statement) : (t.complete s).inputs = s.inputs := by
  obtain ⟨_, _, h⟩ := t.complete_eq s
  rw [h]
  rfl

theorem complete_implicit (t : Task) (s : Statement) :
    (t.complete s).implicit = Path.sorted s.implicit := by
  obtain ⟨_, _, h⟩ := t.complete_eq s
  rw [h]
  rfl

theorem mem_complete_orderOnly {t : Task} {b : String} (hb : b ∈ t.after) (s : Statement) :
    (⟨b⟩ : Path) ∈ (t.complete s).orderOnly :=
  List.mem_append_right _ (List.mem_map_of_mem hb)

theorem missingInputs_eq_nil {t : Task} (h : t.ignoreMissing = []) (tree : Tree)
    (known : PathSet) (s : Statement) : t.missingInputs tree known s = [] := by
  rw [missingInputs, h, List.filter_eq_nil_iff]
  intro p _
  simp

/-- What post-processing checks and gives. -/
theorem postProcess_ok {t : Task} {tree : Tree} {known : PathSet} {s : Statement} {e : Emitted}
    (h : t.postProcess tree known s = .ok e) :
    s.outputs ≠ [] ∧ ∃ s₁, expand t.constants (overrideVariables t.constants s) = .ok s₁ ∧
      ((t.missingInputs tree known s₁ = [] ∧
          e = .build (t.complete s₁) (t.isDefault && (t.complete s₁).rule != Rule.phony)) ∨
        (t.missingInputs tree known s₁ ≠ [] ∧
          e = .build (placeholder s₁ (t.missingInputs tree known s₁)) false)) := by
  unfold postProcess at h
  by_cases hempty : s.outputs.isEmpty = true
  · rw [if_pos hempty] at h
    cases h
  · rw [if_neg hempty] at h
    obtain ⟨s₁, hs₁, h⟩ := bind_eq_ok.1 h
    refine ⟨fun hnil => hempty (List.isEmpty_iff.2 hnil), s₁, mapError_eq_ok.1 hs₁, ?_⟩
    by_cases hm : t.missingInputs tree known s₁ = []
    · dsimp only at h
      rw [hm] at h
      cases h
      exact .inl ⟨hm, rfl⟩
    · have hm' : (!(t.missingInputs tree known s₁).isEmpty) = true := by
        simpa using hm
      dsimp only at h
      rw [if_pos hm'] at h
      cases h
      exact .inr ⟨hm, rfl⟩

/-- Post-processing gives finished statements only. -/
theorem postProcess_finished {t : Task} {tree : Tree} {known : PathSet} {s : Statement}
    {e : Emitted} (h : t.postProcess tree known s = .ok e) :
    ∃ s₁ d, e = .build s₁ d ∧ t.Finished tree known s₁ d := by
  obtain ⟨hne, s₁, hs₁, hcases⟩ := postProcess_ok h
  have ho := (expanded_of_expand hs₁).outputs_ne_nil hne
  rcases hcases with ⟨hm, rfl⟩ | ⟨hm, rfl⟩
  · exact ⟨_, _, rfl, .completed ho hm⟩
  · exact ⟨_, _, rfl, .replaced ho hm⟩

theorem rule_of_expand {constants : Variables} {s s₁ : Statement}
    (h : expand constants s = .ok s₁) : s₁.rule = s.rule := by
  obtain ⟨s₂, h₂, h₁⟩ := bind_eq_ok.1 h
  obtain ⟨_, _, h₂⟩ := bind_eq_ok.1 h₂
  obtain ⟨_, _, h₂⟩ := bind_eq_ok.1 h₂
  obtain ⟨_, _, h₂⟩ := bind_eq_ok.1 h₂
  obtain ⟨_, _, h₂⟩ := bind_eq_ok.1 h₂
  obtain ⟨_, _, h₂⟩ := bind_eq_ok.1 h₂
  cases h₁
  cases h₂
  rfl

theorem rule_of_complete (t : Task) (s : Statement) : (t.complete s).rule = s.rule ∨
    s.rule ≠ Rule.phony ∧ (t.complete s).rule = s.rule ++ Rule.mkdirSuffix := by
  unfold complete
  split
  · exact .inl rfl
  · next hphony =>
    unfold addDirectories
    dsimp only
    split
    · exact .inl rfl
    · exact .inr ⟨hphony, rfl⟩

/-- The rule of a statement stays, or becomes the one for missing inputs or the one that creates
directories. -/
theorem rule_of_postProcess {t : Task} {tree : Tree} {known : PathSet} {s₀ s : Statement} {d : Bool}
    (h : t.postProcess tree known s₀ = .ok (.build s d)) :
    s.rule = Rule.errorMissing ∨ s.rule = s₀.rule ∨
      s₀.rule ≠ Rule.phony ∧ s.rule = s₀.rule ++ Rule.mkdirSuffix := by
  obtain ⟨-, s₁, hs₁, hcases⟩ := postProcess_ok h
  have hrule : s₁.rule = s₀.rule := (rule_of_expand hs₁).trans rfl
  rw [← hrule]
  rcases hcases with ⟨-, he⟩ | ⟨-, he⟩
  · cases he
    exact .inr (rule_of_complete t s₁)
  · cases he
    exact .inl rfl

theorem PostProcessed.finished {t : Task} {tree : Tree} {s : Statement} {d : Bool}
    (h : t.PostProcessed tree s d) : ∃ known, t.Finished tree known s d := by
  obtain ⟨known, s₀, h⟩ := h
  obtain ⟨s₁, d₁, he, hf⟩ := postProcess_finished h
  cases he
  exact ⟨known, hf⟩

theorem Finished.outputs_ne_nil {t : Task} {tree : Tree} {known : PathSet} {s : Statement}
    {d : Bool} (h : t.Finished tree known s d) : s.outputs ≠ [] := by
  cases h with
  | replaced ho _ => exact ho
  | completed ho _ => simpa using ho

/-- A finished statement waits for the barriers of its task, unless it is a placeholder. -/
theorem Finished.placeholder_or_waits {t : Task} {tree : Tree} {known : PathSet} {s : Statement}
    {d : Bool} (h : t.Finished tree known s d) {b : String} (hb : b ∈ t.after) :
    (∃ s₁ missing, missing ≠ [] ∧ s = placeholder s₁ missing) ∨ ⟨b⟩ ∈ s.orderOnly := by
  cases h with
  | replaced _ hm => exact .inl ⟨_, _, hm, rfl⟩
  | completed _ _ => exact .inr (mem_complete_orderOnly hb _)

/-! ## What a task generates -/

section

variable {t : Task} {around : Surroundings} {known : PathSet} {out : TaskOutput}

/-- What generating for one assignment comes to. -/
theorem generateFor_ok {c : Correlation} (h : t.generateFor around known c = .ok out) :
    ∃ outputs g emitted, t.bindOutputs c.binding = .ok outputs ∧
      t.action around (c.paths.map Path.mk) outputs = .ok g ∧
      g.entries.mapM (t.emit around.tree known) = .ok emitted ∧
      out = ⟨t.comments (c.paths.map Path.mk) outputs ++ emitted, g.gendeps⟩ := by
  obtain ⟨outputs, houtputs, h⟩ := bind_eq_ok.1 h
  obtain ⟨g, hg, h⟩ := bind_eq_ok.1 (mapError_eq_ok.1 h)
  obtain ⟨emitted, hemitted, h⟩ := bind_eq_ok.1 h
  cases h
  exact ⟨outputs, g, emitted, mapError_eq_ok.1 houtputs, mapError_eq_ok.1 hg, hemitted, rfl⟩

/-- What generating for several assignments comes to. -/
theorem generateAll_ok {cs : List Correlation} (h : t.generateAll around known cs = .ok out) :
    ∃ outs, List.Forall₂ (fun c o => t.generateFor around known c = .ok o) cs outs ∧
      out = ⟨outs.flatMap TaskOutput.emitted, outs.flatMap TaskOutput.gendeps⟩ := by
  induction cs generalizing out with
  | nil =>
    cases h
    exact ⟨[], .nil, rfl⟩
  | cons c cs ih =>
    obtain ⟨first, hfirst, h⟩ := bind_eq_ok.1 h
    obtain ⟨rest, hrest, h⟩ := bind_eq_ok.1 h
    cases h
    obtain ⟨outs, houts, rfl⟩ := ih hrest
    exact ⟨first :: outs, .cons hfirst houts, rfl⟩

/-- What generating comes to. Without any assignment there is nothing but a comment. -/
theorem generate_ok (h : t.generate around known = .ok out) :
    ∃ found outs, t.matchInputs around.tree known = .ok found ∧
      List.Forall₂ (fun c o => t.generateFor around known c = .ok o) found outs ∧
      out.gendeps = outs.flatMap TaskOutput.gendeps ∧
      (out.emitted = outs.flatMap TaskOutput.emitted ∨
        outs = [] ∧ ∃ text, out.emitted = [.comment text]) := by
  obtain ⟨found, hfound, h⟩ := bind_eq_ok.1 h
  have hfound := mapError_eq_ok.1 hfound
  split at h
  · next hempty =>
    split at h
    · cases h
      rw [List.isEmpty_iff.1 hempty] at hfound
      exact ⟨[], [], hfound, .nil, rfl, .inr ⟨rfl, _, rfl⟩⟩
    · cases h
  · obtain ⟨outs, houts, rfl⟩ := generateAll_ok h
    exact ⟨found, outs, hfound, houts, rfl, .inl rfl⟩

theorem mem_emitted_of_generateFor {c : Correlation} (h : t.generateFor around known c = .ok out)
    {s : Statement} {d : Bool} (hs : .build s d ∈ out.emitted) :
    ∃ s₀, t.postProcess around.tree known s₀ = .ok (.build s d) ∧
      ∃ outputs g, t.action around (c.paths.map Path.mk) outputs = .ok g ∧
        .build s₀ ∈ g.entries := by
  obtain ⟨outputs, g, emitted, -, hg, hemitted, rfl⟩ := generateFor_ok h
  rcases List.mem_append.1 hs with hs | hs
  · simp [comments] at hs
  · obtain ⟨entry, hmem, hentry⟩ := forall₂_mem_right (mapM_eq_ok.1 hemitted) hs
    cases entry with
    | comment text => cases hentry
    | build s₀ => exact ⟨s₀, hentry, outputs, g, hg, hmem⟩

/-- Every statement a task emits stems from one of the command. -/
theorem source_of_generate (h : t.generate around known = .ok out) {s : Statement} {d : Bool}
    (hs : .build s d ∈ out.emitted) :
    ∃ s₀, t.postProcess around.tree known s₀ = .ok (.build s d) ∧
      ∃ inputs outputs g, t.action around inputs outputs = .ok g ∧ .build s₀ ∈ g.entries := by
  obtain ⟨found, outs, -, houts, -, hemitted | ⟨-, text, hemitted⟩⟩ := generate_ok h
  · rw [hemitted] at hs
    obtain ⟨o, ho, hs⟩ := List.mem_flatMap.1 hs
    obtain ⟨c, -, hc⟩ := forall₂_mem_right houts ho
    obtain ⟨s₀, hs₀, outputs, g, hg, hmem⟩ := mem_emitted_of_generateFor hc hs
    exact ⟨s₀, hs₀, _, outputs, g, hg, hmem⟩
  · rw [hemitted] at hs
    cases List.mem_singleton.1 hs

theorem mem_emitted_of_generate (h : t.generate around known = .ok out) {s : Statement} {d : Bool}
    (hs : .build s d ∈ out.emitted) : t.PostProcessed around.tree s d := by
  obtain ⟨s₀, hs₀, -⟩ := source_of_generate h hs
  exact ⟨known, s₀, hs₀⟩

end

end Task
end DocGraph
