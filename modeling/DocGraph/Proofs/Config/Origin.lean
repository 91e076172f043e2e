import DocGraph.Proofs.Config.Loading
import DocGraph.Proofs.Config.Outline

/-!
# DocGraph.Proofs.Config.Origin

Where the steps of a project come from.

* `Visit.Declares`     — an entry of a visited directory stands for a step.
* `Visit.exists_declares` — every step that comes of loading is declared on one of the visits.
* `BuildEntry.get?_of_constants`, `BuildEntry.constants_of_task` — the tasks of an entry have the
  variables of its scope, but for those that the entry overrides.
* `Project.KeepsRoot`  — no entry that loading comes to overrides the path of the working directory.
* `Step.Anchored`      — a task knows this path, and the name of a barrier is an identifier.
* `anchored_of_load?`  — then all steps of a project are anchored.
-/

namespace DocGraph

variable {p : Project} {t : Tree}

/-! ## Steps and visits -/

theorem Loaded.steps_foldl (init : Loaded) (parts : List Loaded) :
    (parts.foldl (· ++ ·) init).steps = init.steps ++ parts.flatMap Loaded.steps := by
  induction parts generalizing init with
  | nil => exact (List.append_nil _).symm
  | cons part parts ih =>
    rw [List.foldl_cons, ih, List.flatMap_cons, ← List.append_assoc]
    rfl

namespace Visit

/-- An entry of the directory stands for the step. -/
def Declares (p : Project) (t : Tree) (v : Visit) (step : Step) : Prop :=
  ∃ scope entries entry steps, enterDirectory p t v.above v.here = .ok (scope, entries) ∧
    entry ∈ entries ∧ scope.declareEntry entry = .ok (.steps steps) ∧ step ∈ steps

/-- Each step that comes of a visit is declared there, or on a visit that it leads to. -/
theorem exists_declares {v : Visit} {l : Loaded}
    (h : loadDirectory p t v.above v.here = some (.ok l)) {step : Step} (hstep : step ∈ l.steps) :
    ∃ w, Relation.ReflTransGen (Calls p t) v w ∧ w.Declares p t step := by
  have hends := ends_of_loadDirectory h
  induction hends generalizing l with
  | intro v _ ih =>
    rw [loadDirectory_eq, loadWith] at h
    obtain ⟨⟨scope, entries⟩, henter, h⟩ := run_bind_eq_ok.1 h
    obtain ⟨parts, hparts, h⟩ := run_bind_eq_ok.1 h
    cases h
    rw [Loaded.steps_foldl, List.nil_append, List.mem_flatMap] at hstep
    obtain ⟨part, hpart, hstep⟩ := hstep
    have henter := run_inDirectory_ok.1 henter
    obtain ⟨before, entry, after, rfl, hbefore, hentry⟩ :=
      forall₂_split_right (run_mapM_eq_ok.1 hparts) hpart
    obtain ⟨d, hd, hpart⟩ := run_bind_eq_ok.1 hentry
    have hd := run_inDirectory_ok.1 hd
    cases d with
    | steps steps =>
      cases hpart
      exact ⟨v, .refl, scope, _, entry, steps, henter, by simp, hd, hstep⟩
    | directory dir =>
      have hcalls : v.Calls p t ⟨scope, dir⟩ := ⟨before, entry, after, henter, hd, hbefore⟩
      obtain ⟨w, hw, hdeclares⟩ := ih ⟨scope, dir⟩ hcalls hpart hstep
      exact ⟨w, .head hcalls hw, hdeclares⟩

end Visit

/-! ## Entries and tasks -/

namespace BuildEntry

variable {e : BuildEntry} {s : Scope} {vars : Variables}

theorem get?_of_constants (h : e.constants s = .ok vars) {n : String}
    (hn : e.overrides.get? n = none) : vars.get? n = s.vars.get? n := by
  have hnames : n ∉ e.overrides.toList.map Prod.fst := by
    intro hmem
    have hsome := Table.mem_keys_iff.1 hmem
    rw [hn] at hsome
    cases hsome
  rw [constants] at h
  -- the values of overrides are those of the directory throughout
  generalize s.vars.lookup = lookup at h
  generalize s.vars = start at h ⊢
  generalize e.overrides.toList = overrides at h hnames
  induction overrides generalizing start with
  | nil =>
    cases h
    rfl
  | cons entry overrides ih =>
    obtain ⟨name, text⟩ := entry
    rw [List.map_cons, List.mem_cons, not_or] at hnames
    obtain ⟨mid, hmid, hrest⟩ := foldlM_cons_ok.1 h
    rw [ih mid hrest hnames.2]
    dsimp only at hmid
    split at hmid
    · cases hmid
    · obtain ⟨value, -, hset⟩ := bind_eq_ok.1 hmid
      cases hset
      rw [Table.get?_set, if_neg hnames.1]

theorem constants_of_withConstants {t t' : Task} (h : t.withConstants vars = .ok t') :
    t'.constants = vars := by
  obtain ⟨ignored, -, h⟩ := bind_eq_ok.1 h
  cases h
  rfl

theorem constants_of_task {c : Command} {round : Variables} {t : Task}
    (h : e.task c vars round = .ok t) : t.constants = vars := by
  obtain ⟨inputs, -, h⟩ := bind_eq_ok.1 h
  obtain ⟨declared, -, h⟩ := bind_eq_ok.1 h
  obtain ⟨t', ht', h⟩ := bind_eq_ok.1 h
  have hconstants := constants_of_withConstants ht'
  split at h
  · obtain ⟨output, -, h⟩ := bind_eq_ok.1 h
    cases h
    exact hconstants
  · cases h
    exact hconstants

theorem constants_of_tasks {tasks : List Task} (h : e.tasks s = .ok tasks) {t : Task}
    (ht : t ∈ tasks) : e.constants s = .ok t.constants := by
  obtain ⟨c, -, h⟩ := bind_eq_ok.1 h
  obtain ⟨vars, hvars, h⟩ := bind_eq_ok.1 h
  split at h
  · cases h
  · obtain ⟨rounds, -, h⟩ := bind_eq_ok.1 h
    obtain ⟨round, -, hround⟩ := forall₂_mem_right (mapM_eq_ok.1 h) ht
    rw [constants_of_task hround, hvars]

end BuildEntry

/-! ## The path of the working directory -/

/-- No entry that loading comes to overrides the path of the working directory. -/
def Project.KeepsRoot (p : Project) (t : Tree) : Prop :=
  ∀ v, Relation.ReflTransGen (Visit.Calls p t) .first v → ∀ scope entries,
    enterDirectory p t v.above v.here = .ok (scope, entries) → ∀ entry ∈ entries, ∀ e,
      ConfigEntry.read? entry = some (.build e) → e.overrides.get? "root" = none

/-- A task knows the path of the working directory. The name of a barrier is an identifier. -/
def Step.Anchored (root : String) : Step → Prop
  | .build task => task.constants.get? "root" = some root
  | .barrier name => Text.isIdentifier name = true

theorem anchored_of_declareEntry {s : Scope} {root : String}
    (hroot : s.vars.get? "root" = some root) {entry : Yaml.Value} {steps : List Step}
    (h : s.declareEntry entry = .ok (.steps steps))
    (hkeeps : ∀ e, ConfigEntry.read? entry = some (.build e) → e.overrides.get? "root" = none)
    {step : Step} (hstep : step ∈ steps) : step.Anchored root := by
  unfold Scope.declareEntry at h
  split at h
  · cases h
  · obtain ⟨_, -, h⟩ := map_eq_ok.1 h
    cases h
  · split at h
    · next hname =>
      cases h
      rw [List.mem_singleton.1 hstep]
      exact hname
    · cases h
  · next e hread =>
    obtain ⟨tasks, htasks, h⟩ := map_eq_ok.1 h
    cases h
    obtain ⟨task, htask, rfl⟩ := List.mem_map.1 hstep
    have hconstants := BuildEntry.constants_of_tasks htasks htask
    exact (BuildEntry.get?_of_constants hconstants (hkeeps e hread)).trans hroot

/-- If no entry overrides the path of the working directory, all steps are anchored to it. -/
theorem anchored_of_load? {l : Loaded} (h : p.load? t = some (.ok l)) (hkeeps : p.KeepsRoot t)
    {step : Step} (hstep : step ∈ l.steps) : step.Anchored p.root := by
  obtain ⟨v, hv, scope, entries, entry, steps, henter, hentry, hsteps, hmem⟩ :=
    Visit.exists_declares (v := .first) h hstep
  obtain ⟨-, f, -, hlexical, -⟩ := Outline.lexical_of_enterDirectory henter
  exact anchored_of_declareEntry hlexical.root_var hsteps
    (hkeeps v hv scope entries henter entry hentry) hmem

end DocGraph
