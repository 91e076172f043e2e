import DocGraph.Proofs.Graph.Frame
import DocGraph.Proofs.Graph.Growth
import DocGraph.Proofs.Graph.Regeneration
import DocGraph.Proofs.Task.Variation

/-!
# DocGraph.Proofs.Graph.Repetition

The same task once more.

* `Emitted.Alike`    — comments are the same, and statements have the same outputs.
* `generate_again`   — a task that matches the same generates alike, also if a statement that lacked
  an input before no longer does.
* `addTask_again`    — each of its statements is dropped, and nothing but comments is added.
* `Assembly.Commented` — graphs that differ by comments; `commented_of_foldlM` carries them through
  later steps.
* `assemble_repeated` — the consequences for the build file.
-/

namespace DocGraph

/-! ## What a task generates again -/

/-- The same comment, or statements with the same outputs. -/
inductive Emitted.Alike : Emitted → Emitted → Prop where
  | comment (text : String) : Alike (.comment text) (.comment text)
  | build {s s' : Statement} {d d' : Bool} (h : s'.allOutputs = s.allOutputs) :
      Alike (.build s d) (.build s' d')

namespace Task

variable {t : Task} {around : Surroundings} {tree : Tree} {known known' : PathSet}

/-- Known outputs decide whether a placeholder stands in for a statement, but not what it makes. -/
theorem postProcess_again {s : Statement} {e : Emitted} (known' : PathSet)
    (h : t.postProcess tree known s = .ok e) :
    ∃ e', t.postProcess tree known' s = .ok e' ∧ e.Alike e' := by
  obtain ⟨ho, s₁, hs₁, -⟩ := postProcess_ok h
  rw [postProcess_eq t tree known ho hs₁, Except.ok.injEq] at h
  refine ⟨_, postProcess_eq t tree known' ho hs₁, ?_⟩
  rw [← h]
  split
  · split
    · exact .build rfl
    · exact .build (by rw [allOutputs_placeholder, allOutputs_complete])
  · split
    · exact .build (by rw [allOutputs_placeholder, allOutputs_complete])
    · exact .build rfl

theorem generate_again {out : TaskOutput}
    (hmatch : t.matchInputs around.tree known = t.matchInputs around.tree known')
    (h : t.generate around known = .ok out) :
    ∃ out', t.generate around known' = .ok out' ∧ out.Related Emitted.Alike out' :=
  generate_related (l := t.ignoreMissing) .comment (fun _ _ => postProcess_again known') hmatch h

/-- More known outputs that no pattern matches make no difference to what a task matches. -/
theorem matchInputs_of_known (hkept : ∀ p ∈ known, p ∈ known')
    (hnew : ∀ path, (⟨path⟩ : Path) ∈ known' → (⟨path⟩ : Path) ∉ known →
      ∀ p ∈ t.inputs, p.isMatch path = false) :
    t.matchInputs tree known = t.matchInputs tree known' := by
  refine matchInputs_of_candidates ?_
  intro p hp
  have htexts : ∀ path, p.isMatch path = true →
      (path ∈ knownTexts known ↔ path ∈ knownTexts known') := by
    intro path hmatch
    rw [mem_knownTexts, mem_knownTexts]
    refine ⟨hkept _, fun hpath => ?_⟩
    by_contra hnot
    rw [hnew path hpath hnot p hp] at hmatch
    cases hmatch
  rw [candidates, candidates]
  have hunion : ∀ files : TextSet, ∀ path, p.isMatch path = true →
      (path ∈ files.union (knownTexts known) ↔ path ∈ files.union (knownTexts known')) := by
    intro files path hmatch
    rw [TextSet.mem_union, TextSet.mem_union, htexts path hmatch]
  cases t.builtInputsOnly with
  | true => exact .inr ⟨_, _, rfl, rfl, hunion ∅⟩
  | false =>
    cases tree.listing p with
    | error e => exact .inl ⟨e, rfl, rfl⟩
    | ok files => exact .inr ⟨_, _, rfl, rfl, hunion files⟩

end Task

/-! ## What the graph takes again -/

/-- The comment among what a task adds. -/
def Emitted.remark? : Emitted → Option Entry
  | comment text => some (.comment text)
  | build _ _ => none

theorem Emitted.statement?_of_remark? {l : List Emitted} {e : Entry}
    (h : e ∈ l.filterMap remark?) : e.statement? = none := by
  obtain ⟨emitted, -, he⟩ := List.mem_filterMap.1 h
  cases emitted with
  | comment text =>
    cases he
    rfl
  | build s d => cases he

namespace Assembly

variable {around : Surroundings} {a b : Assembly}

theorem knows_of_addEmitted {s : Statement} {d : Bool} (h : a.addEmitted (.build s d) = .ok b) :
    ∀ p ∈ s.allOutputs, b.state.knows p = true := by
  intro p hp
  rcases addEmitted_ok h with
    ⟨_, he, -⟩ | ⟨_, _, state, he, hc, rfl⟩ | ⟨_, _, he, hc, rfl⟩
  · cases he
  · cases he
    obtain ⟨-, rfl⟩ := GraphState.claim_accepted hc
    exact SortedBy.contains_insertMany.2 (.inr ⟨p, hp, rfl⟩)
  · cases he
    exact GraphState.claim_duplicate hc p hp

theorem knows_of_addEmitteds {es : List Emitted} (h : es.foldlM addEmitted a = .ok b)
    {s : Statement} {d : Bool} (hs : .build s d ∈ es) :
    ∀ p ∈ s.allOutputs, b.state.knows p = true := by
  induction es generalizing a with
  | nil => cases hs
  | cons e es ih =>
    obtain ⟨a₁, he, hes⟩ := foldlM_cons_ok.1 h
    rcases List.mem_cons.1 hs with rfl | hs
    · intro p hp
      exact (extends_of_addEmitteds hes).knows (knows_of_addEmitted he p hp)
    · exact ih hes hs

/-- Statements that make nothing new are dropped, so that only comments are added. -/
theorem addEmitteds_of_known {es : List Emitted}
    (h : ∀ s d, .build s d ∈ es → s.allOutputs ≠ [] ∧ ∀ p ∈ s.allOutputs, a.state.knows p = true) :
    es.foldlM addEmitted a = .ok { a with entries := a.entries ++ es.filterMap Emitted.remark? } := by
  induction es generalizing a with
  | nil =>
    rw [List.filterMap_nil, List.append_nil]
    rfl
  | cons e es ih =>
    have hrest := fun s d hs => h s d (List.mem_cons_of_mem e hs)
    rw [List.foldlM_cons]
    cases e with
    | comment text =>
      have hstate := ih (a := { a with entries := a.entries ++ [.comment text] }) hrest
      rw [addEmitted, ok_bind, hstate]
      simp only [List.append_assoc]
      rfl
    | build s d =>
      obtain ⟨hne, hknown⟩ := h s d List.mem_cons_self
      rw [addEmitted_duplicate (GraphState.claim_of_known hne hknown), ok_bind, ih hrest,
        List.filterMap_cons_none rfl]

/-- What a task leaves behind that is needed to see that it adds nothing more. -/
structure Added (around : Surroundings) (known : PathSet) (t : Task) (a : Assembly) : Prop where
  declared : ∀ b ∈ t.after, a.barriers.contains b = true
  registered : a.Registered t.command
  generated : ∃ out, t.generate around known = .ok out ∧
    (∀ p ∈ out.gendeps, a.state.gendeps.contains p.components = true) ∧
    ∀ s d, .build s d ∈ out.emitted →
      s.allOutputs ≠ [] ∧ ∀ p ∈ s.allOutputs, a.state.knows p = true

theorem added_of_addTask {t : Task} (h : a.addTask around t = .ok b) :
    Added around a.state.outputs t b := by
  obtain ⟨⟨a₁, out⟩, hopen, h⟩ := bind_eq_ok.1 h
  obtain ⟨a₂, hadd, h⟩ := bind_eq_ok.1 h
  cases h
  have ho := opened_of_openTask hopen
  obtain ⟨hregistered, hfirst⟩ := registered_of_registerCommand ho.registered
  have hrest := (extends_of_addEmitteds hadd).trans (extends_consult a₂ out.gendeps)
  refine ⟨?_, hregistered.mono hrest, out, ho.generated, ?_, ?_⟩
  · intro n hn
    exact hrest.barriers n (hfirst.barriers n (ho.declared n hn))
  · intro p hp
    exact SortedBy.contains_insertMany.2 (.inr ⟨p, hp, rfl⟩)
  · intro s d hs
    obtain ⟨_, hfinished⟩ := (Task.mem_emitted_of_generate ho.generated hs).finished
    refine ⟨fun hnil => hfinished.outputs_ne_nil (List.append_eq_nil_iff.1 hnil).1, ?_⟩
    exact knows_of_addEmitteds hadd hs

theorem Added.mono {known : PathSet} {t : Task} (h : Added around known t a) (hab : a.Extends b) :
    Added around known t b := by
  obtain ⟨out, hout, hdeps, hknown⟩ := h.generated
  refine ⟨fun n hn => hab.barriers n (h.declared n hn), h.registered.mono hab, out, hout, ?_, ?_⟩
  · intro p hp
    obtain ⟨q, hq, hk⟩ := SortedBy.contains_iff.1 (hdeps p hp)
    exact SortedBy.contains_iff.2 ⟨q, hab.gendeps q hq, hk⟩
  · intro s d hs
    obtain ⟨hne, hs⟩ := hknown s d hs
    exact ⟨hne, fun p hp => hab.knows (hs p hp)⟩

/-- A task that matches what it matched before adds nothing but comments. -/
theorem addTask_again {known : PathSet} {t : Task} (h : Added around known t a)
    (hmatch : t.matchInputs around.tree known = t.matchInputs around.tree a.state.outputs) :
    ∃ added, (∀ e ∈ added, e.statement? = none) ∧
      a.addTask around t = .ok { a with entries := a.entries ++ added } := by
  obtain ⟨out, hout, hdeps, hknown⟩ := h.generated
  obtain ⟨out', hout', hagain⟩ := Task.generate_again hmatch hout
  have hdropped : ∀ s d, .build s d ∈ out'.emitted →
      s.allOutputs ≠ [] ∧ ∀ p ∈ s.allOutputs, a.state.knows p = true := by
    intro s d hs
    obtain ⟨e, he, halike⟩ := forall₂_mem_right hagain.emitted hs
    cases halike with
    | build hsame =>
      rw [hsame]
      exact hknown _ _ he
  have hopen := openTask_of h.declared (registerCommand_of_registered h.registered) hout'
  refine ⟨out'.emitted.filterMap Emitted.remark?, fun e => Emitted.statement?_of_remark?, ?_⟩
  rw [addTask, hopen, ok_bind]
  simp only [addEmitteds_of_known hdropped, ok_bind, consult, hagain.gendeps_eq]
  rw [SortedBy.insertMany_of_contains hdeps]
  rfl

/-! ## Later steps -/

/-- The graph with more entries in front. -/
def behind (first : List Entry) (a : Assembly) : Assembly :=
  { a with entries := first ++ a.entries }

theorem behind_nil (a : Assembly) : { a with entries := [] }.behind a.entries = a := by
  rw [behind, List.append_nil]

theorem behind_eq_extend (first : List Entry) (a : Assembly) :
    a.behind first = ({ entries := first } : Assembly).extend a := by
  have hnone : ({ entries := first } : Assembly).state.gendeps = ∅ := rfl
  rw [extend, hnone, SortedBy.empty_union]
  rfl

theorem foldlM_addStep_behind (first : List Entry) (a : Assembly) (steps : List Step) :
    steps.foldlM (addStep around) (a.behind first) =
      (steps.foldlM (addStep around) a).map (behind first) := by
  simp only [behind_eq_extend, foldlM_addStep_extend, funext (behind_eq_extend first)]

theorem foldlM_addStep_commented {steps : List Step} (added : List Entry)
    (h : steps.foldlM (addStep around) a = .ok b) :
    ∃ later, b.entries = a.entries ++ later ∧
      steps.foldlM (addStep around) { a with entries := a.entries ++ added } =
        .ok { b with entries := a.entries ++ added ++ later } := by
  let bare : Assembly := { a with entries := [] }
  rw [← a.behind_nil, foldlM_addStep_behind, map_eq_ok] at h
  obtain ⟨c, hc, rfl⟩ := h
  refine ⟨c.entries, rfl, ?_⟩
  have hfront : { a with entries := a.entries ++ added } = bare.behind (a.entries ++ added) := by
    simp only [behind, bare, List.append_nil]
  rw [hfront, foldlM_addStep_behind, hc]
  rfl

theorem statements_commented {before added after : List Entry}
    (h : ∀ e ∈ added, e.statement? = none) :
    (before ++ added ++ after).filterMap Entry.statement? =
      (before ++ after).filterMap Entry.statement? := by
  have hnone : added.filterMap Entry.statement? = [] := List.filterMap_eq_nil_iff.2 h
  simp only [List.filterMap_append, hnone, List.append_nil]

theorem finish_commented {tree : Tree} {settings : Settings} {file : BuildFile}
    {before added after : List Entry} (hadded : ∀ e ∈ added, e.statement? = none)
    (ha : a.entries = before ++ after) (h : a.finish tree settings = .ok file) :
    { a with entries := before ++ added ++ after }.finish tree settings =
      .ok { file with entries := before ++ added ++ after } := by
  have hbuilds : ({ a with entries := before ++ added ++ after } : Assembly).builds = a.builds := by
    rw [builds, builds, ha, statements_commented hadded]
  obtain ⟨rules, hrules, hacyclic, rfl⟩ := finish_ok h
  refine finish_of_acyclic ?_ ?_
  · rw [used, hbuilds]
    exact hrules
  · rw [hbuilds]
    exact hacyclic

theorem foldlM_repeated {a c : Assembly} {between rest : List Step} {t : Task}
    (hbetween : (.build t :: between).foldlM (addStep around) a = .ok b)
    (hrest : rest.foldlM (addStep around) b = .ok c)
    (hnew : ∀ path, (⟨path⟩ : Path) ∈ b.state.outputs → (⟨path⟩ : Path) ∉ a.state.outputs →
      ∀ p ∈ t.inputs, p.isMatch path = false) :
    ∃ added later, (∀ e ∈ added, e.statement? = none) ∧ c.entries = b.entries ++ later ∧
      (.build t :: rest).foldlM (addStep around) b =
        .ok { c with entries := b.entries ++ added ++ later } := by
  obtain ⟨a₁, hadd, hrun⟩ := foldlM_cons_ok.1 hbetween
  have hafter := extends_of_foldlM hrun
  have hmatch : t.matchInputs around.tree a.state.outputs =
      t.matchInputs around.tree b.state.outputs :=
    Task.matchInputs_of_known (extends_of_foldlM hbetween).outputs hnew
  obtain ⟨added, hcomments, hagain⟩ := addTask_again ((added_of_addTask hadd).mono hafter) hmatch
  obtain ⟨later, hlater, hrest'⟩ := foldlM_addStep_commented added hrest
  exact ⟨added, later, hcomments, hlater, foldlM_cons_ok.2 ⟨_, hagain, hrest'⟩⟩

end Assembly

/-- If a list of steps gives a build file, then so it does with one of its tasks repeated later,
provided that no path which became known in the meantime matches an input pattern of the task.
Statements, rules, pools, default targets, consulted paths and the statement that writes the file
again are the same; there are only more comments. -/
theorem assemble_repeated {around : Surroundings} {settings : Settings}
    {first between rest : List Step} {t : Task} {file : BuildFile}
    (hnew : ∀ a b, first.foldlM (Assembly.addStep around) {} = .ok a →
      (first ++ [Step.build t] ++ between).foldlM (Assembly.addStep around) {} = .ok b →
      ∀ path, (⟨path⟩ : Path) ∈ b.state.outputs → (⟨path⟩ : Path) ∉ a.state.outputs →
        ∀ p ∈ t.inputs, p.isMatch path = false)
    (h : assemble around settings (first ++ [.build t] ++ between ++ rest) = .ok file) :
    ∃ file', assemble around settings (first ++ [.build t] ++ between ++ [.build t] ++ rest) =
        .ok file' ∧
      file'.builds = file.builds ∧ file'.rules = file.rules ∧ file'.pools = file.pools ∧
      file'.defaults = file.defaults ∧ file'.gendeps = file.gendeps ∧
      file'.regenerate = file.regenerate ∧
      ∃ before added after, file.entries = before ++ after ∧
        (∀ e ∈ added, e.statement? = none) ∧ file'.entries = before ++ added ++ after := by
  obtain ⟨c, hsteps, hfinish⟩ := bind_eq_ok.1 h
  obtain ⟨b, hb, hrest⟩ := foldlM_append_ok.1 hsteps
  have hsplit := hb
  rw [List.append_assoc, foldlM_append_ok] at hsplit
  obtain ⟨a, ha, hbetween⟩ := hsplit
  obtain ⟨added, later, hcomments, hlater, hrun⟩ :=
    Assembly.foldlM_repeated hbetween hrest (hnew a b ha hb)
  have hassemble : assemble around settings
      (first ++ [.build t] ++ between ++ [.build t] ++ rest) =
        .ok { file with entries := b.entries ++ added ++ later } := by
    rw [List.append_assoc _ _ rest, List.singleton_append, assemble,
      foldlM_append_ok.2 ⟨b, hb, hrun⟩, ok_bind]
    exact Assembly.finish_commented hcomments hlater hfinish
  have hentries : file.entries = b.entries ++ later := by
    obtain ⟨_, _, _, rfl⟩ := Assembly.finish_ok hfinish
    exact hlater
  refine ⟨_, hassemble, ?_, rfl, rfl, rfl, rfl, rfl, b.entries, added, later, hentries, hcomments, rfl⟩
  rw [BuildFile.builds, BuildFile.builds, hentries, Assembly.statements_commented hcomments]

/-- A task that does without one of its inputs. -/
def Task.lenient : Task :=
  { Task.turning "a.md" "b.txt" with
    action := fun _ inputs outputs =>
      .ok ⟨[.build { rule := "turn", outputs, inputs, implicit := [⟨"c.txt"⟩] }], []⟩
    ignoreMissing := [⟨[.literal "c.txt"], Pattern.readable_literal "c.txt"⟩] }

/-- What makes the input that this task does without, and a barrier. -/
def Step.supplying : List Step := [.build (.turning "a.md" "c.txt"), .barrier "hold"]

theorem assemble_repeated_lenient : ∃ file file',
    assemble ⟨.sources, none⟩ {} ([] ++ [.build .lenient] ++ Step.supplying ++ []) = .ok file ∧
    assemble ⟨.sources, none⟩ {}
      ([] ++ [.build .lenient] ++ Step.supplying ++ [.build .lenient] ++ []) = .ok file' ∧
    file'.builds = file.builds ∧ file'.defaults = file.defaults ∧
    file.builds.map Statement.rule = [Rule.errorMissing, "turn", Rule.phony] := by
  have hnew : ∀ a b, ([] : List Step).foldlM (Assembly.addStep ⟨.sources, none⟩) {} = .ok a →
      ([] ++ [Step.build .lenient] ++ Step.supplying).foldlM
          (Assembly.addStep ⟨.sources, none⟩) {} = .ok b →
      ∀ path, (⟨path⟩ : Path) ∈ b.state.outputs → (⟨path⟩ : Path) ∉ a.state.outputs →
        ∀ p ∈ Task.lenient.inputs, p.isMatch path = false := by
    intro a b _ hb path hpath _ p hp
    have hout : (([] ++ [Step.build .lenient] ++ Step.supplying).foldlM
        (Assembly.addStep ⟨.sources, none⟩) {}).map (fun b : Assembly => b.state.outputs.toList) =
          .ok [⟨"b.txt"⟩, ⟨"c.txt"⟩, ⟨"hold"⟩] := by decide +kernel
    rw [hb] at hout
    have hlist : b.state.outputs.toList = [⟨"b.txt"⟩, ⟨"c.txt"⟩, ⟨"hold"⟩] := Except.ok.inj hout
    rw [SortedBy.mem_def, hlist] at hpath
    cases List.mem_singleton.1 hp
    have hfalse : ∀ q ∈ [(⟨"b.txt"⟩ : Path), ⟨"c.txt"⟩, ⟨"hold"⟩],
        Pattern.isMatch ⟨[.literal "a.md"], Pattern.readable_literal "a.md"⟩ q.text = false := by
      decide +kernel
    exact hfalse ⟨path⟩ hpath
  have hok : (assemble ⟨.sources, none⟩ {}
      ([] ++ [.build .lenient] ++ Step.supplying ++ [])).map
        (fun f => f.builds.map Statement.rule) =
          .ok [Rule.errorMissing, "turn", Rule.phony] := by decide +kernel
  obtain ⟨file, h, hrules⟩ := map_eq_ok.1 hok
  obtain ⟨file', h', hbuilds, -, -, hdefaults, -⟩ := assemble_repeated hnew h
  exact ⟨file, file', h, h', hbuilds, hdefaults, hrules⟩

end DocGraph
