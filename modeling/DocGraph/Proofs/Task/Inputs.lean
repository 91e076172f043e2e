import DocGraph.Proofs.Task.Emission
import DocGraph.Proofs.Template.Policy

/-!
# DocGraph.Proofs.Task.Inputs

How matched paths come through to build statements.

* `Task.placed`         — a path as seen from the project.
* `Task.PassesInputs`   — the command puts its inputs into its statements as they are.
* `postProcess_error_congr` — a path without a dollar has no part in how post-processing fails.
* `inputs_of_postProcess` — if it goes well, each path without a dollar is placed.
* `matched_inputs_kept` — the consequences for what a task generates.
-/

namespace DocGraph

/-! ## Statements -/

namespace Statement

/-- How paths are replaced with an error does not depend on inputs that go well. -/
theorem mapPaths_error_congr {ε : Type} {f : Path → Except ε Path} {s : Statement} {l : List Path}
    (h : ∀ e, l.mapM f = .error e ↔ s.inputs.mapM f = .error e) (e : ε) :
    { s with inputs := l }.mapPaths f = .error e ↔ s.mapPaths f = .error e := by
  rw [mapPaths, mapPaths]
  cases s.outputs.mapM f with
  | error _ => rfl
  | ok _ =>
    cases s.implicitOutputs.mapM f with
    | error _ => rfl
    | ok _ =>
      cases hs : s.inputs.mapM f with
      | error e' =>
        rw [(h e').2 hs]
      | ok _ =>
        obtain ⟨_, hl⟩ : ∃ l', l.mapM f = .ok l' := by
          cases hl : l.mapM f with
          | error e' =>
            rw [(h e').1 hl] at hs
            cases hs
          | ok l' => exact ⟨l', rfl⟩
        rw [hl]
        cases s.implicit.mapM f with
        | error _ => rfl
        | ok _ =>
          cases s.orderOnly.mapM f with
          | error _ => rfl
          | ok _ => exact ⟨nofun, nofun⟩

end Statement

/-- The statement of something that a task emits. -/
def Emitted.statement? : Emitted → Option Statement
  | comment _ => none
  | build s _ => some s

/-- The statements among what a task adds. -/
def TaskOutput.statements (out : TaskOutput) : List Statement :=
  out.emitted.filterMap Emitted.statement?

theorem TaskOutput.mem_statements {out : TaskOutput} {s : Statement} :
    s ∈ out.statements ↔ ∃ d, .build s d ∈ out.emitted := by
  rw [statements, List.mem_filterMap]
  constructor
  · rintro ⟨e, he, hs⟩
    cases e with
    | comment text => cases hs
    | build s' d =>
      cases hs
      exact ⟨d, he⟩
  · rintro ⟨d, hs⟩
    exact ⟨_, hs, rfl⟩

namespace Task

/-- A path as seen from the project. An absolute one becomes relative if the variables tell where
the project is. -/
def placed (t : Task) (p : Path) : Path :=
  match t.constants.get? "root" with
  | some root => if p.isAbsolute then p.relativeTo ⟨root⟩ else p.normalize
  | none => p.normalize

/-- The command puts its inputs into all statements as they are. -/
def PassesInputs (t : Task) (around : Surroundings) : Prop :=
  ∀ inputs outputs g, t.action around inputs outputs = .ok g →
    ∀ s, .build s ∈ g.entries → s.inputs = inputs

variable {t : Task} {around : Surroundings} {tree : Tree} {known : PathSet}

theorem expandPath_of_dollar_notMem {p : Path} (h : '$' ∉ p.text.toList) :
    expandPath t.constants p = .ok (t.placed p) := by
  rw [expandPath, Template.substitute_of_dollar_notMem h, ok_bind]
  rfl

theorem expand_eq_error {constants : Variables} {s : Statement} {e : Template.Error} :
    expand constants s = .error e ↔ s.mapPaths (expandPath constants) = .error e := by
  rw [expand, bind_eq_error]
  refine ⟨?_, .inl⟩
  rintro (h | ⟨_, -, h⟩)
  · exact h
  · cases h

/-- Post-processing fails for want of outputs, or because a path has no expansion. -/
theorem postProcess_eq_error {s : Statement} {e : TaskFault} :
    t.postProcess tree known s = .error e ↔
      (s.outputs = [] ∧ e = .noOutputs s.rule) ∨
      (s.outputs ≠ [] ∧ ∃ e', e = .template e' ∧
        (overrideVariables t.constants s).mapPaths (expandPath t.constants) = .error e') := by
  unfold postProcess
  by_cases hempty : s.outputs = []
  · rw [if_pos (List.isEmpty_iff.2 hempty)]
    constructor
    · intro h
      exact .inl ⟨hempty, (Except.error.inj h).symm⟩
    · rintro (⟨-, rfl⟩ | ⟨hne, -⟩)
      · rfl
      · exact absurd hempty hne
  · rw [if_neg (mt List.isEmpty_iff.1 hempty), bind_eq_error, mapError_eq_error]
    simp only [expand_eq_error]
    constructor
    · rintro (⟨e', he, rfl⟩ | ⟨s₁, -, h⟩)
      · exact .inr ⟨hempty, e', rfl, he⟩
      · split at h
        · cases h
        · cases h
    · rintro (⟨hnil, -⟩ | ⟨-, e', rfl, he⟩)
      · exact absurd hnil hempty
      · exact .inl ⟨e', he, rfl⟩

/-- A path without a dollar has no part in how post-processing fails. -/
theorem postProcess_error_congr (s : Statement) (e : TaskFault) :
    t.postProcess tree known s = .error e ↔
      t.postProcess tree known
        { s with inputs := s.inputs.filter fun p => p.text.toList.contains '$' } = .error e := by
  have hinputs : ∀ e, (s.inputs.filter fun p => p.text.toList.contains '$').mapM
      (expandPath t.constants) = .error e ↔ s.inputs.mapM (expandPath t.constants) = .error e := by
    intro e
    refine mapM_filter_eq_error ?_
    intro p _ hp
    refine ⟨_, expandPath_of_dollar_notMem ?_⟩
    simpa using hp
  have hpaths : ∀ e, (overrideVariables t.constants
      { s with inputs := s.inputs.filter fun p => p.text.toList.contains '$' }).mapPaths
        (expandPath t.constants) = .error e ↔
      (overrideVariables t.constants s).mapPaths (expandPath t.constants) = .error e :=
    Statement.mapPaths_error_congr (s := overrideVariables t.constants s) hinputs
  rw [postProcess_eq_error, postProcess_eq_error]
  simp only [hpaths]

/-- If no input may be missing, a statement keeps its inputs, and each one without a dollar is
placed. -/
theorem inputs_of_postProcess (hmissing : t.ignoreMissing = []) {s s₁ : Statement} {d : Bool}
    (h : t.postProcess tree known s = .ok (.build s₁ d)) :
    List.Forall₂ (fun p q => '$' ∉ p.text.toList → q = t.placed p) s.inputs s₁.inputs := by
  obtain ⟨-, s₂, hs₂, hcases⟩ := postProcess_ok h
  rcases hcases with ⟨-, he⟩ | ⟨hne, -⟩
  · cases he
    rw [complete_inputs]
    refine (expanded_of_expand hs₂).inputs.imp ?_
    intro p q hq hp
    rw [expandPath_of_dollar_notMem hp] at hq
    exact (Except.ok.inj hq).symm
  · exact absurd (missingInputs_eq_nil hmissing tree known s₂) hne

theorem statements_of_generate {out : TaskOutput} (h : t.generate around known = .ok out) :
    ∃ found outs, t.matchInputs around.tree known = .ok found ∧
      List.Forall₂ (fun c o => t.generateFor around known c = .ok o) found outs ∧
      out.statements = outs.flatMap TaskOutput.statements := by
  obtain ⟨found, outs, hfound, houts, -, hemitted | ⟨rfl, text, hemitted⟩⟩ := generate_ok h
  · refine ⟨found, outs, hfound, houts, ?_⟩
    rw [TaskOutput.statements, hemitted, List.filterMap_flatMap]
    rfl
  · refine ⟨found, [], hfound, houts, ?_⟩
    rw [TaskOutput.statements, hemitted]
    rfl

/-- If no input of a task may be missing, and its command passes inputs on as they are,
* each assignment of its wildcards has statements of its own, and each of these has one input for
  each path of the assignment, in order. A path without a dollar is only placed: it is in normal
  form, and as seen from the project if it was absolute;
* paths without a dollar do not matter for whether or how post-processing fails. -/
theorem matched_inputs_kept (hmissing : t.ignoreMissing = []) (hpass : t.PassesInputs around) :
    (∀ out, t.generate around known = .ok out →
      ∃ found outs, t.matchInputs around.tree known = .ok found ∧
        List.Forall₂ (fun c o => t.generateFor around known c = .ok o ∧
          ∀ s ∈ o.statements, List.Forall₂
            (fun path q => '$' ∉ path.toList → q = t.placed ⟨path⟩) c.paths s.inputs) found outs ∧
        out.statements = outs.flatMap TaskOutput.statements) ∧
    ∀ s e, t.postProcess around.tree known s = .error e ↔
      t.postProcess around.tree known
        { s with inputs := s.inputs.filter fun p => p.text.toList.contains '$' } = .error e := by
  refine ⟨?_, postProcess_error_congr⟩
  intro out h
  obtain ⟨found, outs, hfound, houts, hstatements⟩ := statements_of_generate h
  refine ⟨found, outs, hfound, houts.imp ?_, hstatements⟩
  intro c o hc
  refine ⟨hc, ?_⟩
  intro s hs
  obtain ⟨d, hs⟩ := TaskOutput.mem_statements.1 hs
  obtain ⟨s₀, hpost, outputs, g, hg, hmem⟩ := mem_emitted_of_generateFor hc hs
  have hinputs := inputs_of_postProcess hmissing hpost
  rw [hpass _ _ _ hg _ hmem, List.forall₂_map_left_iff] at hinputs
  exact hinputs

/-- A task that packs one path, in a project whose place is known. -/
def packing (input : String) : Task where
  command := { name := "pack", rules := .ofPairs [("pack", .ofCommand "tar -cf ${out} ${in}")]
               action? := fun _ => none }
  action := fun _ inputs outputs => .ok ⟨[.build { rule := "pack", outputs, inputs }], []⟩
  inputs := [⟨[.literal input], Pattern.readable_literal input⟩]
  output := some "all.tar"
  builtInputsOnly := true
  constants := .ofPairs [("root", "/project")]

theorem packing_passesInputs (input : String) (around : Surroundings) :
    (packing input).PassesInputs around := by
  rintro inputs outputs g ⟨⟩ s hs
  cases List.mem_singleton.1 hs
  rfl

/-- The paths that a packing task matches when its input is known. -/
def packedPaths (input : String) : Except PatternError (List (List String)) :=
  ((packing input).matchInputs (.bare []) (.ofList [⟨input⟩])).map
    fun found => found.map Correlation.paths

/-- The inputs of the statements that it generates. -/
def packedInputs (input : String) : Except GraphError (List (List Path)) :=
  ((packing input).generate ⟨.bare [], none⟩ (.ofList [⟨input⟩])).map
    fun out => out.statements.map Statement.inputs

theorem matched_inputs_kept_packing : ∃ out c,
    (packing "src/./b.txt").generate ⟨.bare [], none⟩ (.ofList [⟨"src/./b.txt"⟩]) = .ok out ∧
    (packing "src/./b.txt").matchInputs (.bare []) (.ofList [⟨"src/./b.txt"⟩]) = .ok [c] ∧
    c.paths = ["src/./b.txt"] ∧ out.statements.map Statement.inputs = [[⟨"src/b.txt"⟩]] ∧
    ∀ s ∈ out.statements, List.Forall₂ (fun path q => '$' ∉ path.toList →
      q = (packing "src/./b.txt").placed ⟨path⟩) c.paths s.inputs := by
  have hpaths : packedPaths "src/./b.txt" = .ok [["src/./b.txt"]] := by decide +kernel
  have hinputs : packedInputs "src/./b.txt" = .ok [[⟨"src/b.txt"⟩]] := by decide +kernel
  obtain ⟨out, hout, hinputs⟩ := map_eq_ok.1 hinputs
  obtain ⟨found, hfound, hpaths⟩ := map_eq_ok.1 hpaths
  obtain ⟨c, rfl, hc⟩ := List.map_eq_singleton_iff.1 hpaths
  obtain ⟨found', outs, hfound', houts, hstatements⟩ :=
    (matched_inputs_kept rfl (packing_passesInputs _ _)).1 out hout
  cases hfound.symm.trans hfound'
  cases houts with
  | cons hkept hnil =>
    cases hnil
    rw [List.flatMap_singleton] at hstatements
    refine ⟨out, c, hout, hfound, hc, hinputs, ?_⟩
    rw [hstatements]
    exact hkept.2

/-- An absolute path is not only normalized, and one with dollars is read as a template. -/
theorem matched_inputs_change :
    (∀ input ∈ ["/project/gen/a.txt", "cost$$.txt", "a$x.txt"],
      (packing input).ignoreMissing = [] ∧ (packing input).PassesInputs ⟨.bare [], none⟩ ∧
      packedPaths input = .ok [[input]] ∧ (Path.mk input).normalize = ⟨input⟩) ∧
    packedInputs "/project/gen/a.txt" = .ok [[⟨"gen/a.txt"⟩]] ∧
    packedInputs "cost$$.txt" = .ok [[⟨"cost$.txt"⟩]] ∧
    packedInputs "a$x.txt" =
      .error (.task "pack (inp: a$x.txt, out: all.tar)" (.template (.missing "a$x.txt" "x"))) := by
  refine ⟨?_, by decide +kernel⟩
  intro input hinput
  refine ⟨rfl, packing_passesInputs input _, ?_⟩
  revert input
  decide +kernel

end Task

end DocGraph
