import DocGraph.Proofs.Config.Loading
import DocGraph.Proofs.Config.Scope

/-!
# DocGraph.Proofs.Config.Outline

The way that loading takes through the directories of a project.

* `Outline`        — the steps of entries, and the directories among them with their own outlines.
* `Outline.steps`, `Outline.kept` — what they declare, depth first and in order.
* `Outline.Of`, `Outline.OfDirectory` — the outline of entries in a scope, and of a directory.
* `loadDirectory_eq_ok_iff` — loading gives what the outline of a directory declares.
* `Outline.Scoped` — every scope is lexical below the one around it.
* `scoped_of_ofDirectory` — so it is in the outline of a directory.
-/

namespace DocGraph

namespace Loaded

theorem append_assoc (a b c : Loaded) : a ++ b ++ c = a ++ (b ++ c) :=
  congrArg₂ mk (List.append_assoc ..) (List.append_assoc ..)

theorem empty_append (a : Loaded) : ({} : Loaded) ++ a = a := rfl

theorem append_empty (a : Loaded) : a ++ ({} : Loaded) = a :=
  congrArg₂ mk (List.append_nil _) (List.append_nil _)

end Loaded

/-- What entries come to, one after the other. -/
inductive Outline where
  | done
  | own (steps : List Step) (rest : Outline)
  | directory (scope : Scope) (inside rest : Outline)

namespace Outline

/-- The steps of all entries. Those of a directory stand where it is named. -/
def steps : Outline → List Step
  | done => []
  | own steps rest => steps ++ rest.steps
  | directory _ inside rest => inside.steps ++ rest.steps

/-- The kept files of all directories, each before those of the directories in it. -/
def kept : Outline → List KeptFile
  | done => []
  | own _ rest => rest.kept
  | directory scope inside rest => scope.kept :: (inside.kept ++ rest.kept)

def loaded (o : Outline) : Loaded := ⟨o.steps, o.kept⟩

variable {p : Project} {t : Tree}

/-- The outline of entries in a scope, which is the same for all of them. -/
inductive Of (p : Project) (t : Tree) : Scope → List Yaml.Value → Outline → Prop
  | done {s : Scope} : Of p t s [] .done
  | own {s : Scope} {v : Yaml.Value} {vs : List Yaml.Value} {steps : List Step} {rest : Outline} :
    s.declareEntry v = .ok (.steps steps) → Of p t s vs rest → Of p t s (v :: vs) (.own steps rest)
  | directory {s inner : Scope} {v : Yaml.Value} {vs entries : List Yaml.Value} {here : Path}
      {inside rest : Outline} :
    s.declareEntry v = .ok (.directory here) → enterDirectory p t s here = .ok (inner, entries) →
      Of p t inner entries inside → Of p t s vs rest →
      Of p t s (v :: vs) (.directory inner inside rest)

/-- The outline of a directory below a scope. -/
def OfDirectory (p : Project) (t : Tree) (above : Scope) (here : Path) (o : Outline) : Prop :=
  ∃ scope entries inside, enterDirectory p t above here = .ok (scope, entries) ∧
    Of p t scope entries inside ∧ o = .directory scope inside .done

theorem loaded_directory (scope : Scope) (inside rest : Outline) :
    (directory scope inside rest).loaded = (directory scope inside .done).loaded ++ rest.loaded := by
  refine congrArg₂ Loaded.mk ?_ ?_
  · simp only [loaded, steps, List.append_nil]
  · simp only [loaded, kept, List.append_nil, List.cons_append]

theorem loaded_directory_done (scope : Scope) (inside : Outline) :
    (directory scope inside .done).loaded = ⟨[], [scope.kept]⟩ ++ inside.loaded := by
  refine congrArg₂ Loaded.mk ?_ ?_
  · simp only [loaded, steps, List.append_nil, List.nil_append]
  · simp only [loaded, kept, List.append_nil, List.singleton_append]

theorem loaded_own (steps : List Step) (rest : Outline) :
    (own steps rest).loaded = ⟨steps, []⟩ ++ rest.loaded := rfl

/-! ## Outlines and loading -/

theorem foldl_append (init : Loaded) (parts : List Loaded) :
    parts.foldl (· ++ ·) init = init ++ parts.foldl (· ++ ·) {} := by
  induction parts generalizing init with
  | nil => exact init.append_empty.symm
  | cons part parts ih =>
    rw [List.foldl_cons, List.foldl_cons, ih, ih (_ ++ part), Loaded.append_assoc,
      Loaded.empty_append]

theorem exists_of_parts {descend : Descend}
    (hdescend : ∀ above here l, descend above here = some (.ok l) →
      ∃ o, OfDirectory p t above here o ∧ l = o.loaded)
    {s : Scope} {here : Path} {vs : List Yaml.Value} {parts : List Loaded}
    (h : List.Forall₂ (fun v l => (declareWith descend s here v).run = some (.ok l)) vs parts) :
    ∃ o, Of p t s vs o ∧ parts.foldl (· ++ ·) {} = o.loaded := by
  induction h with
  | nil => exact ⟨.done, .done, rfl⟩
  | @cons v part vs parts hpart _ ih =>
    obtain ⟨rest, hrest, hparts⟩ := ih
    have hfold : (part :: parts).foldl (· ++ ·) {} = part ++ rest.loaded := by
      rw [List.foldl_cons, foldl_append, hparts, Loaded.empty_append]
    obtain ⟨d, hd, hpart⟩ := run_bind_eq_ok.1 hpart
    rw [run_inDirectory_ok] at hd
    cases d with
    | steps steps =>
      cases hpart
      exact ⟨.own steps rest, .own hd hrest, hfold⟩
    | directory dir =>
      obtain ⟨_, ⟨scope, entries, inside, henter, hinside, rfl⟩, rfl⟩ := hdescend _ _ _ hpart
      refine ⟨.directory scope inside rest, .directory hd henter hinside hrest, ?_⟩
      rw [hfold, loaded_directory scope inside rest]

theorem exists_of_loadDirectory {above : Scope} {here : Path} {l : Loaded}
    (h : loadDirectory p t above here = some (.ok l)) :
    ∃ o, OfDirectory p t above here o ∧ l = o.loaded := by
  refine loadDirectory_induct (P := fun above here r => ∀ l, r = .ok l →
    ∃ o, OfDirectory p t above here o ∧ l = o.loaded) ?_ h l rfl
  intro descend hdescend above here r hr l hl
  rw [hl] at hr
  obtain ⟨⟨scope, entries⟩, henter, hrest⟩ := run_bind_eq_ok.1 hr
  obtain ⟨parts, hparts, hfold⟩ := run_bind_eq_ok.1 hrest
  cases hfold
  obtain ⟨inside, hinside, hloaded⟩ :=
    exists_of_parts (fun above here l h => hdescend above here _ h l rfl) (run_mapM_eq_ok.1 hparts)
  refine ⟨_, ⟨scope, entries, inside, run_inDirectory_ok.1 henter, hinside, rfl⟩, ?_⟩
  rw [foldl_append, hloaded, loaded_directory_done]

theorem loadDirectory_of_parts {above scope : Scope} {here : Path} {entries : List Yaml.Value}
    {parts : List Loaded} {inside : Outline}
    (henter : enterDirectory p t above here = .ok (scope, entries))
    (hparts : List.Forall₂ (fun v l => (loadEntry p t scope here v).run = some (.ok l)) entries parts)
    (hloaded : parts.foldl (· ++ ·) {} = inside.loaded) :
    loadDirectory p t above here = some (.ok (directory scope inside .done).loaded) := by
  rw [loadDirectory_eq, loadWith, run_bind_eq_ok]
  refine ⟨_, run_inDirectory_ok.2 henter, run_bind_eq_ok.2 ⟨parts, run_mapM_eq_ok.2 hparts, ?_⟩⟩
  rw [foldl_append, hloaded, loaded_directory_done]
  rfl

theorem Of.exists_parts {s : Scope} {vs : List Yaml.Value} {o : Outline} (h : Of p t s vs o) :
    ∃ parts, (∀ here, List.Forall₂ (fun v l => (loadEntry p t s here v).run = some (.ok l)) vs parts) ∧
      parts.foldl (· ++ ·) {} = o.loaded := by
  induction h with
  | done => exact ⟨[], fun _ => .nil, rfl⟩
  | @own s v vs steps rest hv _ ih =>
    obtain ⟨parts, hparts, hloaded⟩ := ih
    refine ⟨{ steps } :: parts, fun here => .cons ?_ (hparts here), ?_⟩
    · exact run_bind_eq_ok.2 ⟨_, run_inDirectory_ok.2 hv, rfl⟩
    · rw [List.foldl_cons, foldl_append, hloaded, Loaded.empty_append, loaded_own]
  | @directory s scope v vs entries dir inside rest hv henter _ _ ihinside ihrest =>
    obtain ⟨inner, hinner, hinside⟩ := ihinside
    obtain ⟨parts, hparts, hloaded⟩ := ihrest
    have hload := loadDirectory_of_parts henter (hinner dir) hinside
    refine ⟨(Outline.directory scope inside .done).loaded :: parts,
      fun here => .cons ?_ (hparts here), ?_⟩
    · exact run_bind_eq_ok.2 ⟨_, run_inDirectory_ok.2 hv, hload⟩
    · rw [List.foldl_cons, foldl_append, hloaded, Loaded.empty_append, ← loaded_directory]

theorem OfDirectory.load {above : Scope} {here : Path} {o : Outline}
    (h : OfDirectory p t above here o) : loadDirectory p t above here = some (.ok o.loaded) := by
  obtain ⟨scope, entries, inside, henter, hinside, rfl⟩ := h
  obtain ⟨parts, hparts, hloaded⟩ := hinside.exists_parts
  exact loadDirectory_of_parts henter (hparts here) hloaded

/-- Loading succeeds with what the outline of a directory declares, and only so. -/
theorem loadDirectory_eq_ok_iff {above : Scope} {here : Path} {l : Loaded} :
    loadDirectory p t above here = some (.ok l) ↔ ∃ o, OfDirectory p t above here o ∧ l = o.loaded := by
  constructor
  · exact exists_of_loadDirectory
  · rintro ⟨o, ho, rfl⟩
    exact ho.load

/-! ## Scopes -/

/-- Every directory has a lexical scope below the scope that it is named in. -/
def Scoped (p : Project) (t : Tree) (above : Scope) : Outline → Prop
  | done => True
  | own _ rest => rest.Scoped p t above
  | directory s inside rest => (∃ f, ConfigFile.read t (configPath s.here) = .ok f ∧
      Scope.Lexical p above s.here f s) ∧ inside.Scoped p t s ∧ rest.Scoped p t above

theorem lexical_of_enterDirectory {above s : Scope} {here : Path} {entries : List Yaml.Value}
    (h : enterDirectory p t above here = .ok (s, entries)) : s.here = here ∧
      ∃ f, ConfigFile.read t (configPath here) = .ok f ∧ Scope.Lexical p above here f s ∧
        entries = f.tasks := by
  obtain ⟨f, hf, h⟩ := bind_eq_ok.1 h
  obtain ⟨scope, hscope, h⟩ := bind_eq_ok.1 h
  cases h
  have hlexical := Scope.lexical_of_enter hscope
  exact ⟨hlexical.here_eq, f, hf, hlexical, rfl⟩

theorem Of.scoped {s : Scope} {vs : List Yaml.Value} {o : Outline} (h : Of p t s vs o) :
    o.Scoped p t s := by
  induction h with
  | done => trivial
  | own _ _ ih => exact ih
  | directory _ henter _ _ ihinside ihrest =>
    obtain ⟨rfl, f, hf, hlexical, -⟩ := lexical_of_enterDirectory henter
    exact ⟨⟨f, hf, hlexical⟩, ihinside, ihrest⟩

theorem OfDirectory.scoped {above : Scope} {here : Path} {o : Outline}
    (h : OfDirectory p t above here o) : o.Scoped p t above := by
  obtain ⟨scope, entries, inside, henter, hinside, rfl⟩ := h
  obtain ⟨rfl, f, hf, hlexical, -⟩ := lexical_of_enterDirectory henter
  exact ⟨⟨f, hf, hlexical⟩, hinside.scoped, trivial⟩

end Outline
end DocGraph
