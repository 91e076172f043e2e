import DocGraph.Proofs.Config.Origin
import DocGraph.Proofs.Graph.Run
import DocGraph.Proofs.Path.Canonical

/-!
# DocGraph.Proofs.Graph.Spelling

How the paths of a graph are spelled.

* `Statement.Canonical` — all paths of a statement are canonical.
* `Task.canonical_of_postProcess` — so they are after post-processing, if the task knows the absolute
  path of the working directory and the barriers that it orders after are canonical.
* `Assembly.paths`      — what is known, what is built by default, and all paths of statements.
* `Moment.Canonical`    — the invariant of a run, and `Move.canonical`, that moves keep it.
* `paths_have_one_spelling` — in the graph of a project, paths have the same components exactly if
  they have the same text.
-/

namespace DocGraph

/-! ## Statements -/

namespace Statement

/-- All paths of the statement are canonical. -/
def Canonical (s : Statement) : Prop := ∀ p ∈ s.allOutputs ++ s.allInputs, p.Canonical

theorem canonical_iff {s : Statement} : s.Canonical ↔
    (∀ p ∈ s.outputs, p.Canonical) ∧ (∀ p ∈ s.implicitOutputs, p.Canonical) ∧
      (∀ p ∈ s.inputs, p.Canonical) ∧ (∀ p ∈ s.implicit, p.Canonical) ∧
      ∀ p ∈ s.orderOnly, p.Canonical := by
  simp only [Canonical, allOutputs, allInputs, List.forall_mem_append, and_assoc]

theorem Canonical.tidy {s : Statement} (h : s.Canonical) : s.tidy.Canonical := by
  obtain ⟨houtputs, himplicitOutputs, hinputs, himplicit, horderOnly⟩ := canonical_iff.1 h
  exact canonical_iff.2 ⟨houtputs, fun p hp => himplicitOutputs p (Path.mem_of_mem_sorted hp),
    hinputs, fun p hp => himplicit p (Path.mem_of_mem_sorted hp),
    fun p hp => horderOnly p (Path.mem_of_mem_sorted hp)⟩

end Statement

/-! ## Tasks -/

namespace Task

variable {t : Task} {root : String}

theorem canonical_expandPath {constants : Variables} (hroot : constants.get? "root" = some root)
    (habsolute : (Path.mk root).isAbsolute = true) {p q : Path}
    (h : expandPath constants p = .ok q) : q.Canonical := by
  obtain ⟨text, -, h⟩ := bind_eq_ok.1 h
  rw [hroot] at h
  cases h
  dsimp only
  split
  · next hpath => exact Path.canonical_relativeTo hpath habsolute
  · next hpath => exact Path.canonical_normalize (Bool.not_eq_true _ ▸ hpath)

theorem Expanded.canonical {constants : Variables} {s s₁ : Statement} (h : Expanded constants s s₁)
    (hroot : constants.get? "root" = some root) (habsolute : (Path.mk root).isAbsolute = true) :
    s₁.Canonical := by
  have hall : ∀ {l l₁ : List Path}, List.Forall₂ (fun p q => expandPath constants p = .ok q) l l₁ →
      ∀ p ∈ l₁, p.Canonical := by
    intro l l₁ hl p hp
    obtain ⟨_, -, hexpand⟩ := forall₂_mem_right hl hp
    exact canonical_expandPath hroot habsolute hexpand
  exact Statement.canonical_iff.2 ⟨hall h.outputs, hall h.implicitOutputs, hall h.inputs,
    hall h.implicit, hall h.orderOnly⟩

theorem canonical_placeholder {s : Statement} (h : s.Canonical) (missing : List Path) :
    (placeholder s missing).Canonical := by
  obtain ⟨houtputs, himplicitOutputs, -⟩ := Statement.canonical_iff.1 h
  refine Statement.Canonical.tidy (Statement.canonical_iff.2 ⟨houtputs, himplicitOutputs, ?_⟩)
  exact ⟨nofun, nofun, nofun⟩

theorem canonical_complete {s : Statement} (h : s.Canonical)
    (hafter : ∀ b ∈ t.after, (Path.mk b).Canonical) : (t.complete s).Canonical := by
  obtain ⟨rule, vars, heq⟩ := t.complete_eq s
  obtain ⟨houtputs, himplicitOutputs, hinputs, himplicit, horderOnly⟩ :=
    Statement.canonical_iff.1 h.tidy
  rw [heq]
  refine Statement.canonical_iff.2 ⟨houtputs, himplicitOutputs, hinputs, himplicit, ?_⟩
  intro p hp
  rcases List.mem_append.1 hp with hp | hp
  · exact horderOnly p hp
  · obtain ⟨b, hb, rfl⟩ := List.mem_map.1 hp
    exact hafter b hb

theorem canonical_of_postProcess (hroot : t.constants.get? "root" = some root)
    (habsolute : (Path.mk root).isAbsolute = true) (hafter : ∀ b ∈ t.after, (Path.mk b).Canonical)
    {tree : Tree} {known : PathSet} {s₀ s : Statement} {d : Bool}
    (h : t.postProcess tree known s₀ = .ok (.build s d)) : s.Canonical := by
  obtain ⟨-, s₁, hs₁, hcases⟩ := postProcess_ok h
  have hexpanded := (expanded_of_expand hs₁).canonical hroot habsolute
  rcases hcases with ⟨-, he⟩ | ⟨-, he⟩
  · cases he
    exact canonical_complete hexpanded hafter
  · cases he
    exact canonical_placeholder hexpanded _

end Task

/-! ## Graphs -/

namespace Assembly

/-- What is known, what is built by default, and all paths of statements. -/
def paths (a : Assembly) : List Path :=
  a.state.outputs.toList ++ a.state.defaults.toList ++
    a.builds.flatMap fun s => s.allOutputs ++ s.allInputs

/-- All paths of the graph, and all names of its barriers, are canonical. -/
structure Canonical (a : Assembly) : Prop where
  outputs : ∀ p ∈ a.state.outputs, p.Canonical
  defaults : ∀ p ∈ a.state.defaults, p.Canonical
  builds : ∀ s ∈ a.builds, s.Canonical
  barriers : ∀ name, a.barriers.contains name = true → (Path.mk name).Canonical

variable {a : Assembly}

theorem Canonical.of_mem_paths (h : a.Canonical) {p : Path} (hp : p ∈ a.paths) : p.Canonical := by
  rw [paths, List.mem_append, List.mem_append, List.mem_flatMap] at hp
  obtain (hp | hp) | ⟨s, hs, hp⟩ := hp
  · exact h.outputs p hp
  · exact h.defaults p hp
  · exact h.builds s hs p hp

theorem Canonical.of_opened {around : Surroundings} {a₁ : Assembly} {t : Task} {out : TaskOutput}
    (h : a.Canonical) (ho : a.Opened around t a₁ out) : a₁.Canonical where
  outputs := by
    rw [ho.state_eq]
    exact h.outputs
  defaults := by
    rw [ho.state_eq]
    exact h.defaults
  builds := by
    rw [ho.builds_eq]
    exact h.builds
  barriers := by
    rw [ho.barriers_eq]
    exact h.barriers

theorem Canonical.accept {s : Statement} {state : GraphState} (h : a.Canonical) (hs : s.Canonical)
    (hclaim : a.state.claim s = .ok (.accepted state)) (d : Bool) :
    (a.accept state s d).Canonical := by
  obtain ⟨-, rfl⟩ := GraphState.claim_accepted hclaim
  have houtput : ∀ p ∈ s.allOutputs, p.Canonical := fun p hp => hs p (List.mem_append_left _ hp)
  refine ⟨?_, ?_, ?_, h.barriers⟩
  · intro p hp
    rcases SortedBy.mem_of_mem_insertMany hp with hp | hp
    · exact h.outputs p hp
    · exact houtput p hp
  · intro p hp
    cases d with
    | false => exact h.defaults p hp
    | true =>
      rcases SortedBy.mem_of_mem_insertMany hp with hp | hp
      · exact h.defaults p hp
      · exact houtput p (List.mem_append_left _ hp)
  · intro u hu
    rw [builds_accept] at hu
    rcases List.mem_append.1 hu with hu | hu
    · exact h.builds u hu
    · rw [List.mem_singleton.1 hu]
      exact hs

theorem Canonical.withBarrier (h : a.Canonical) {name : String} (hname : (Path.mk name).Canonical) :
    (a.withBarrier name).Canonical := by
  refine ⟨?_, ?_, ?_, ?_⟩
  · intro p hp
    rcases SortedBy.mem_of_mem_insertMany (l := [(⟨name⟩ : Path)]) hp with hp | hp
    · exact h.outputs p hp
    · rw [List.mem_singleton.1 hp]
      exact hname
  · intro p hp
    rcases SortedBy.mem_of_mem_insertMany (l := [(⟨name⟩ : Path)]) hp with hp | hp
    · cases hp
    · rw [List.mem_singleton.1 hp]
      exact hname
  · intro s hs
    rw [builds_withBarrier] at hs
    rcases List.mem_append.1 hs with hs | hs
    · exact h.builds s hs
    · rw [List.mem_singleton.1 hs]
      refine Statement.canonical_iff.2 ⟨?_, nofun, h.defaults, nofun, nofun⟩
      exact List.forall_mem_singleton.2 hname
  · intro b hb
    have hb' := (SortedBy.contains_insertMany (l := [name])).1 hb
    rcases hb' with hb | ⟨c, hc, hk⟩
    · exact h.barriers b hb
    · rw [List.mem_singleton.1 hc] at hk
      exact (show name = b from hk) ▸ hname

end Assembly

/-! ## Runs -/

/-- The graph is canonical, and so are statements that the task at hand has yet to add. The steps
that are left are anchored to the working directory. -/
structure Moment.Canonical (root : String) (m : Moment) : Prop where
  assembly : m.assembly.Canonical
  current : ∀ t out, m.current = some (t, out) → ∀ s d, .build s d ∈ out.emitted → s.Canonical
  steps : ∀ step ∈ m.steps, step.Anchored root

variable {around : Surroundings} {root : String} {m m' : Moment}

theorem Move.canonical (habsolute : (Path.mk root).isAbsolute = true) (h : Move around m m')
    (hm : m.Canonical root) : m'.Canonical root := by
  cases h with
  | @openTask a a₁ t out steps offers h =>
    have ho := Assembly.opened_of_openTask h
    obtain ⟨ht, hsteps⟩ := List.forall_mem_cons.1 hm.steps
    refine ⟨hm.assembly.of_opened ho, ?_, hsteps⟩
    intro t' out' heq s d hs
    cases heq
    obtain ⟨s₀, hs₀, -⟩ := Task.source_of_generate ho.generated hs
    exact Task.canonical_of_postProcess ht habsolute
      (fun b hb => hm.assembly.barriers b (ho.declared b hb)) hs₀
  | comment =>
    refine ⟨⟨hm.assembly.outputs, hm.assembly.defaults, ?_, hm.assembly.barriers⟩, ?_, hm.steps⟩
    · rw [Assembly.builds_comment]
      exact hm.assembly.builds
    · intro t out heq s d hs
      cases heq
      exact hm.current _ _ rfl s d (List.mem_cons_of_mem _ hs)
  | accept h =>
    have hs := hm.current _ _ rfl _ _ List.mem_cons_self
    refine ⟨hm.assembly.accept hs h _, ?_, hm.steps⟩
    intro t out heq s d hs
    cases heq
    exact hm.current _ _ rfl s d (List.mem_cons_of_mem _ hs)
  | drop h =>
    refine ⟨hm.assembly, ?_, hm.steps⟩
    intro t out heq s d hs
    cases heq
    exact hm.current _ _ rfl s d (List.mem_cons_of_mem _ hs)
  | closeTask =>
    exact ⟨⟨hm.assembly.outputs, hm.assembly.defaults, hm.assembly.builds, hm.assembly.barriers⟩,
      nofun, hm.steps⟩
  | barrier h =>
    obtain ⟨-, rfl⟩ := Assembly.addBarrier_ok h
    obtain ⟨hname, hsteps⟩ := List.forall_mem_cons.1 hm.steps
    exact ⟨hm.assembly.withBarrier (Path.canonical_of_isIdentifier hname), nofun, hsteps⟩

theorem Reached.canonical (habsolute : (Path.mk root).isAbsolute = true) {steps : List Step}
    (hsteps : ∀ step ∈ steps, step.Anchored root) (h : Reached around steps m) :
    m.Canonical root := by
  induction h with
  | start => exact ⟨⟨nofun, nofun, nofun, nofun⟩, nofun, hsteps⟩
  | move _ hmove ih => exact hmove.canonical habsolute ih

/-- While the graph of a project is assembled, all of its paths are relative and in normal form. So
they have the same components exactly if they have the same text. The path of the working directory
is absolute, and no entry overrides it. -/
theorem paths_have_one_spelling {p : Project} {t : Tree} {l : Loaded}
    (habsolute : (Path.mk p.root).isAbsolute = true) (hload : p.load? t = some (.ok l))
    (hkeeps : p.KeepsRoot t) (h : Reached around l.steps m) :
    (∀ q ∈ m.assembly.paths, q.isAbsolute = false ∧ q.normalize = q) ∧
      ∀ q ∈ m.assembly.paths, ∀ r ∈ m.assembly.paths, q.Same r ↔ q.text = r.text := by
  have hcanonical : ∀ q ∈ m.assembly.paths, q.Canonical := fun q hq =>
    (h.canonical habsolute fun _ => anchored_of_load? hload hkeeps).assembly.of_mem_paths hq
  constructor
  · intro q hq
    exact ⟨(hcanonical q hq).relative, (hcanonical q hq).normal⟩
  · intro q hq r hr
    exact (hcanonical q hq).same_iff (hcanonical r hr)

/-- Whether an entry neither names a directory nor overrides the path of the working directory. -/
def ConfigEntry.isLocal : Option ConfigEntry → Bool
  | some (.directory _) => false
  | some (.build e) => (e.overrides.get? "root").isNone
  | _ => true

theorem keepsRoot_of_isLocal {p : Project} {t : Tree} {f : ConfigFile}
    (hf : ConfigFile.read t (configPath ⟨"."⟩) = .ok f)
    (hlocal : ∀ v ∈ f.tasks, ConfigEntry.isLocal (ConfigEntry.read? v) = true) : p.KeepsRoot t := by
  have hentries : ∀ {scope entries},
      enterDirectory p t Project.outside ⟨"."⟩ = .ok (scope, entries) → entries = f.tasks := by
    intro scope entries henter
    obtain ⟨-, f', hf', -, rfl⟩ := Outline.lexical_of_enterDirectory henter
    rw [hf] at hf'
    cases hf'
    rfl
  intro v hv scope entries henter entry hentry e he
  rcases hv.cases_head with rfl | ⟨w, ⟨before, dir, after, hfirst, hdir, -⟩, -⟩
  · have hentry := hlocal entry (hentries henter ▸ hentry)
    rw [he] at hentry
    exact Option.isNone_iff_eq_none.1 hentry
  · -- the first directory names no other one
    have hmem : dir ∈ f.tasks := hentries hfirst ▸ List.mem_append_right _ List.mem_cons_self
    have hplain := hlocal dir hmem
    unfold Scope.declareEntry at hdir
    split at hdir
    · cases hdir
    · next hread =>
      rw [hread] at hplain
      cases hplain
    · split at hdir
      · cases hdir
      · cases hdir
    · obtain ⟨_, -, h⟩ := map_eq_ok.1 hdir
      cases h

/-- A project with a command that names its output by the path of the working directory. -/
def Project.copying : Project where
  root := "/project"
  registry := .ofPairs [("files", [{
    name := "copy"
    rules := .ofPairs [("copy", .ofCommand "cp ${in} ${out}")]
    action? := fun _ => some fun _ inputs _ =>
      .ok (.ofStatement { rule := "copy", inputs, outputs := ["${root}/./out/../copy"] }) }])]

/-- A file that imports this command and uses it behind a barrier. -/
def Tree.copying : Tree :=
  (Tree.bare ["project"]).put ["project", ConfigFile.name] (.file ("imports:\n- files\ntasks:\n" ++
    "- barrier: ready\n- command: copy\n  inp: ready\n  phony: ready\n").toUTF8)

theorem paths_have_one_spelling_copying : ∃ l m, Project.copying.load? .copying = some (.ok l) ∧
    Reached ⟨.copying, none⟩ l.steps m ∧ m.IsOver ∧
    m.assembly.paths.map Path.text = ["copy", "ready", "copy", "ready", "ready", "copy", "ready",
      "ready"] ∧
    (∀ q ∈ m.assembly.paths, q.isAbsolute = false ∧ q.normalize = q) ∧
    ∀ q ∈ m.assembly.paths, ∀ r ∈ m.assembly.paths, q.Same r ↔ q.text = r.text := by
  have hread : (ConfigFile.read .copying (configPath ⟨"."⟩)).map (fun f =>
      f.tasks.all fun v => ConfigEntry.isLocal (ConfigEntry.read? v)) = .ok true := by
    decide +kernel
  obtain ⟨f, hf, hlocal⟩ := map_eq_ok.1 hread
  have hkeeps : Project.copying.KeepsRoot .copying :=
    keepsRoot_of_isLocal hf (List.all_eq_true.1 hlocal)
  have hload : ∃ l, Project.copying.load? .copying = some (.ok l) ∧
      (l.steps.foldlM (Assembly.addStep ⟨.copying, none⟩) {}).map
        (fun a => a.paths.map Path.text) = .ok ["copy", "ready", "copy", "ready", "ready", "copy",
          "ready", "ready"] :=
    load?_of_loadWithin (n := 1) (by decide +kernel)
  obtain ⟨l, hl, hrun⟩ := hload
  obtain ⟨a, ha, hpaths⟩ := map_eq_ok.1 hrun
  obtain ⟨m, hm, hover, rfl⟩ := exists_over ha
  have habsolute : (Path.mk Project.copying.root).isAbsolute = true := by decide
  exact ⟨l, m, hl, hm, hover, hpaths, paths_have_one_spelling habsolute hl hkeeps hm⟩

end DocGraph
