import DocGraph.Proofs.Config.Outline
import DocGraph.Proofs.Plan.Prefix

/-!
# DocGraph.Proofs.Plan.Again

Writing a project once more, when nothing has changed.

* `Tree.Settles`          — files that have one place have one content.
* `writeAll_eq_self_iff`  — nothing is written exactly if every file holds its content.
* `held_iff_settles`      — behind a run that wrote all files, they do so exactly if the tree
  settles them, unless one of them stands where another waits until it is complete.
* `Plan.OfProject`, `ofProject_of_plan` — the build file and the kept files of a project have names
  by which this cannot happen.
* `write_again_iff`       — the consequence for projects.
* `write_again_replaces`  — a directory that is visited with different variables has one kept file
  with different contents, which every run replaces.
-/

namespace DocGraph

/-- Files that have one place have one content. -/
def Tree.Settles (t : Tree) (files : List KeptFile) : Prop :=
  ∀ f ∈ files, ∀ g ∈ files, ∀ loc, t.target? f.path = some loc → t.target? g.path = some loc →
    f.content = g.content

variable {t : Tree} {w : Written} {f : KeptFile} {files : List KeptFile} {loc : Location}

/-! ## Runs that write nothing -/

theorem Written.replaced_add (w : Written) (f : KeptFile) : w.replaced <+: (w.add f).replaced := by
  unfold add
  split
  · exact List.prefix_rfl
  · split
    · exact List.prefix_rfl
    · exact List.prefix_append _ _
    · exact List.prefix_rfl

theorem replaced_foldl (w : Written) (files : List KeptFile) :
    w.replaced <+: (files.foldl Written.add w).replaced := by
  induction files generalizing w with
  | nil => exact List.prefix_rfl
  | cons f files ih => exact (w.replaced_add f).trans (ih _)

theorem foldl_add_of_failed (h : w.failed.isSome = true) (files : List KeptFile) :
    files.foldl Written.add w = w := by
  induction files with
  | nil => rfl
  | cons f files ih => rw [List.foldl_cons, Written.add_of_failed h, ih]

theorem held_of_writeAll (hreplaced : (writeAll t files).replaced = [])
    (hfailed : (writeAll t files).failed = none) :
    ∀ f ∈ files, t.read? f.path = some f.content.toUTF8 := by
  induction files with
  | nil => exact nofun
  | cons f files ih =>
    have hrun : writeAll t (f :: files) =
        files.foldl Written.add (Written.add { tree := t } f) := rfl
    rw [hrun] at hreplaced hfailed
    have hcases := Written.add_cases (w := { tree := t }) rfl f
    obtain ⟨heq, hheld⟩ | ⟨t', heq, -⟩ | ⟨t', heq, -⟩ := hcases
    -- what is replaced or failed by the first file stays so, and thus the tree was left as it is
    · rw [heq] at hreplaced hfailed
      exact List.forall_mem_cons.2 ⟨hheld, ih hreplaced hfailed⟩
    · have hprefix := replaced_foldl (Written.add { tree := t } f) files
      rw [hreplaced, heq, List.prefix_nil] at hprefix
      cases hprefix
    · rw [heq, foldl_add_of_failed rfl] at hfailed
      cases hfailed

theorem writeAll_of_held (h : ∀ f ∈ files, t.read? f.path = some f.content.toUTF8) :
    writeAll t files = { tree := t } := by
  rw [writeAll]
  induction files with
  | nil => rfl
  | cons f files ih =>
    obtain ⟨hf, hfiles⟩ := List.forall_mem_cons.1 h
    have hadd : Written.add { tree := t } f = { tree := t } :=
      Written.add_of_held (w := { tree := t }) hf
    rw [List.foldl_cons, hadd, ih hfiles]

theorem writeAll_eq_self_iff : writeAll t files = { tree := t } ↔
    ∀ f ∈ files, t.read? f.path = some f.content.toUTF8 :=
  ⟨fun h => held_of_writeAll (by rw [h]) (by rw [h]), writeAll_of_held⟩

/-! ## Behind a run -/

theorem exists_lastContent? (hf : f ∈ files) (hloc : t.target? f.path = some loc) :
    ∃ g ∈ files, t.target? g.path = some loc ∧
      lastContent? t files loc = some g.content.toUTF8 := by
  have hne : (files.filter fun f => t.target? f.path = some loc) ≠ [] :=
    List.ne_nil_of_mem (List.mem_filter.2 ⟨hf, by simpa using hloc⟩)
  obtain ⟨g, hg⟩ := Option.ne_none_iff_exists'.1 (mt List.getLast?_eq_none_iff.1 hne)
  obtain ⟨hmem, hplace⟩ := List.mem_filter.1 (List.mem_of_getLast? hg)
  exact ⟨g, hmem, by simpa using hplace, by rw [lastContent?, hg]; rfl⟩

/-- Behind a run that wrote all files, each has a place there, which has the last content that was
brought to it. -/
theorem written_of_writeAll (hdone : (writeAll t files).failed = none)
    (hside : ∀ f ∈ files, ∀ loc, (writeAll t files).tree.target? f.path = some loc →
      ¬IsTemporary (writeAll t files).tree files loc) (hf : f ∈ files) :
    ∃ loc, (writeAll t files).tree.target? f.path = some loc ∧
      (writeAll t files).tree.contentAt? loc = lastContent? (writeAll t files).tree files loc := by
  have hall : files.take files.length = files := List.take_length
  have hdone' : (writeAll t (files.take files.length)).failed = none := by rwa [hall]
  obtain ⟨i, hi⟩ := List.mem_iff_getElem?.1 hf
  have hle : i + 1 ≤ files.length := (List.getElem?_eq_some_iff.1 hi).1
  have hread := read?_of_turn hi (failed_eq_none_of_le hle hdone')
  rw [Tree.read?_eq] at hread
  obtain ⟨loc, hplace, -⟩ := Option.bind_eq_some_iff.1 hread
  have hkeeps := keeps_writeAll t files hle
  rw [hall] at hkeeps
  have hlast := Tree.target?_mono hkeeps hplace
  refine ⟨loc, hlast, ?_⟩
  have hself :
      (writeAll t (files.take files.length)).tree.KeepsDirectories (writeAll t files).tree := by
    rw [hall]
    exact .refl _
  have hloc : ¬IsTemporary (writeAll t files).tree (files.take files.length) loc := by
    rw [hall]
    exact hside f hf loc hlast
  have hcontent := contentAt?_writeAll hdone' hself hloc
  obtain ⟨g, -, -, hg⟩ := exists_lastContent? hf hlast
  rw [hall, hg, Option.some_or] at hcontent
  rw [hcontent, hg]

/-- Behind a run that wrote all files, every one of them holds its content exactly if those with one
place have one content. -/
theorem held_iff_settles (hdone : (writeAll t files).failed = none)
    (hside : ∀ f ∈ files, ∀ loc, (writeAll t files).tree.target? f.path = some loc →
      ¬IsTemporary (writeAll t files).tree files loc) :
    (∀ f ∈ files, (writeAll t files).tree.read? f.path = some f.content.toUTF8) ↔
      (writeAll t files).tree.Settles files := by
  have hwritten := fun f hf => written_of_writeAll (f := f) hdone hside hf
  generalize (writeAll t files).tree = t' at hwritten
  constructor
  · intro hheld f hf g hg loc hfloc hgloc
    have hfcontent := hheld f hf
    have hgcontent := hheld g hg
    rw [Tree.read?_eq, hfloc, Option.bind_some] at hfcontent
    rw [Tree.read?_eq, hgloc, Option.bind_some] at hgcontent
    exact String.toByteArray_inj.1 (Option.some.inj (hfcontent.symm.trans hgcontent))
  · intro hsettles f hf
    obtain ⟨loc, hloc, hcontent⟩ := hwritten f hf
    obtain ⟨g, hg, hgloc, hlast⟩ := exists_lastContent? hf hloc
    rw [Tree.read?_eq, hloc, Option.bind_some, hcontent, hlast,
      hsettles f hf g hg loc hloc hgloc]

/-! ## Projects -/

/-- The name that every kept file of a project has. -/
def KeptFile.name : String := "variables.json"

theorem Scope.fileName?_kept (s : Scope) : s.kept.path.fileName? = some KeptFile.name := by
  have hlast : (s.here.join ⟨".paperweave/variables.json"⟩).pieces.getLast? =
      some KeptFile.name.toList := by
    rw [Path.getLast?_pieces_join]
    decide
  obtain ⟨before, hpieces⟩ := List.getLast?_eq_some_iff.1 hlast
  have hname : s.kept.path.components.getLast? = some (.name KeptFile.name) :=
    Path.getLast?_components_normalize (Path.getLast?_components hpieces (by decide))
  rw [Path.fileName?, hname]

theorem Outline.exists_scope_of_mem_kept {o : Outline} (h : f ∈ o.kept) :
    ∃ s : Scope, f = s.kept := by
  induction o with
  | done => cases h
  | own steps rest ih => exact ih h
  | directory scope inside rest ihinside ihrest =>
    rcases List.mem_cons.1 h with rfl | h
    · exact ⟨scope, rfl⟩
    · rcases List.mem_append.1 h with h | h
      · exact ihinside h
      · exact ihrest h

/-- The build file of a plan and its kept files have the names that those of a project have. -/
structure Plan.OfProject (plan : Plan) : Prop where
  buildFile : plan.settings.buildFile.fileName? = some "build.ninja"
  kept : ∀ f ∈ plan.kept, f.path.fileName? = some KeptFile.name

theorem Plan.ofProject_of_plan {p : Project} {plan : Plan} (h : p.plan t = .ok plan) :
    plan.OfProject := by
  obtain ⟨l, hl, rfl⟩ := map_eq_ok.1 h
  rw [Project.load] at hl
  cases hload : p.load? t with
  | none =>
    rw [hload] at hl
    cases hl
  | some r =>
    rw [hload, Option.getD_some] at hl
    rw [hl] at hload
    obtain ⟨o, -, rfl⟩ := Outline.loadDirectory_eq_ok_iff.1 hload
    have hname : ({} : Settings).buildFile.fileName? = some "build.ninja" := by decide
    refine ⟨hname, fun f hf => ?_⟩
    obtain ⟨s, rfl⟩ := Outline.exists_scope_of_mem_kept hf
    exact s.fileName?_kept

namespace Plan.OfProject

variable {plan : Plan} {file : BuildFile}

theorem fileName?_cases (h : plan.OfProject) (hf : f ∈ plan.targets file) :
    f.path.fileName? = some "build.ninja" ∨ f.path.fileName? = some KeptFile.name := by
  rcases List.mem_cons.1 hf with rfl | hf
  · exact .inl h.buildFile
  · exact .inr (h.kept f hf)

theorem not_isTemporary (h : plan.OfProject) (hf : f ∈ plan.targets file)
    (hloc : t.target? f.path = some loc) : ¬IsTemporary t (plan.targets file) loc := by
  rintro ⟨g, hg, htemporary⟩
  obtain ⟨s, -, hname, hlast⟩ := Tree.getLast?_pieces_of_target? hloc
  obtain ⟨s', hpieces, -, hlast'⟩ := Tree.getLast?_pieces_of_target? htemporary
  have hwaits : ∀ n : String, g.path.fileName? = some n → '/' ∉ n.toList →
      s = "." ++ n ++ ".tmp" := by
    intro n hn hslash
    rw [Tree.getLast?_pieces_temporary hn hslash, Option.some_inj, String.toList_inj] at hpieces
    rw [hpieces]
    exact Option.some.inj (hlast.symm.trans hlast')
  have hwaits' : s = "." ++ "build.ninja" ++ ".tmp" ∨ s = "." ++ KeptFile.name ++ ".tmp" :=
    (h.fileName?_cases hg).imp (hwaits "build.ninja" · (by decide))
      (hwaits KeptFile.name · (by decide))
  rcases h.fileName?_cases hf with hf | hf
  all_goals
    cases hname.symm.trans hf
    rcases hwaits' with heq | heq
    all_goals exact absurd heq (by decide)

theorem settles_targets_iff (h : plan.OfProject) :
    t.Settles (plan.targets file) ↔ t.Settles plan.kept := by
  have hother : ∀ f ∈ plan.kept, ∀ loc, t.target? f.path = some loc →
      t.target? plan.settings.buildFile ≠ some loc := by
    intro f hf loc hfloc hloc
    obtain ⟨s, -, hname, hlast⟩ := Tree.getLast?_pieces_of_target? hfloc
    obtain ⟨s', -, hname', hlast'⟩ := Tree.getLast?_pieces_of_target? hloc
    cases hname.symm.trans (h.kept f hf)
    cases hname'.symm.trans h.buildFile
    exact absurd (hlast.symm.trans hlast') (by decide)
  constructor
  · intro hsettles f hf g hg
    exact hsettles f (List.mem_cons_of_mem _ hf) g (List.mem_cons_of_mem _ hg)
  · intro hsettles f hf g hg loc hfloc hgloc
    rcases List.mem_cons.1 hf with rfl | hf
    · rcases List.mem_cons.1 hg with rfl | hg
      · rfl
      · exact absurd hfloc (hother g hg loc hgloc)
    · rcases List.mem_cons.1 hg with rfl | hg
      · exact absurd hgloc (hother f hf loc hfloc)
      · exact hsettles f hf g hg loc hfloc hgloc

end Plan.OfProject

theorem Plan.write_ok {plan : Plan} {around : Surroundings} {file : BuildFile}
    (h : plan.write around = (w, .ok file)) :
    w = writeAll around.tree (plan.targets file) ∧ w.failed = none := by
  unfold write at h
  split at h
  · cases h
  · dsimp only at h
    split at h
    · cases h
    · next hfailed =>
      cases h
      exact ⟨rfl, hfailed⟩

/-- A project that was written is written again with the same build file. Nothing is replaced then,
and nothing changes, exactly if kept files that have one place have one content. -/
theorem write_again_iff {p : Project} {plan : Plan} (hplan : p.plan t = .ok plan)
    {around again : Surroundings} {file : BuildFile}
    (hfirst : plan.write around = (w, .ok file)) (htree : again.tree = w.tree)
    (hagain : plan.assemble again = .ok file) :
    plan.write again = ({ tree := w.tree }, .ok file) ↔ w.tree.Settles plan.kept := by
  obtain ⟨rfl, hdone⟩ := Plan.write_ok hfirst
  have hproject := Plan.ofProject_of_plan hplan
  have hside : ∀ f ∈ plan.targets file, ∀ loc,
      (writeAll around.tree (plan.targets file)).tree.target? f.path = some loc →
        ¬IsTemporary (writeAll around.tree (plan.targets file)).tree (plan.targets file) loc :=
    fun f hf loc hloc => hproject.not_isTemporary hf hloc
  rw [← hproject.settles_targets_iff, ← held_iff_settles hdone hside,
    ← writeAll_eq_self_iff, ← htree]
  constructor
  · intro hwrite
    exact (Plan.write_ok hwrite).1.symm
  · intro hself
    rw [Plan.write, hagain]
    dsimp only
    rw [hself]

/-! ## A directory that is visited from two others -/

/-- The tree behind a run. -/
def Plan.treeBehind (plan : Plan) (t : Tree) : Tree := (plan.write ⟨t, none⟩).1.tree

/-- The project is written, and its graph is the same behind that. -/
def Plan.Repeats (plan : Plan) (t : Tree) : Prop :=
  (plan.write ⟨t, none⟩).2.isOk = true ∧
    (plan.assemble ⟨plan.treeBehind t, none⟩).toOption = (plan.write ⟨t, none⟩).2.toOption

instance (plan : Plan) (t : Tree) : Decidable (plan.Repeats t) :=
  inferInstanceAs (Decidable (_ ∧ _))

theorem Plan.Repeats.exists_file {plan : Plan} (h : plan.Repeats t) : ∃ file,
    plan.write ⟨t, none⟩ = ((plan.write ⟨t, none⟩).1, .ok file) ∧
      plan.assemble ⟨plan.treeBehind t, none⟩ = .ok file := by
  obtain ⟨hok, hsame⟩ := h
  cases hwrite : (plan.write ⟨t, none⟩).2 with
  | error e =>
    rw [hwrite] at hok
    cases hok
  | ok file =>
    rw [hwrite] at hsame
    refine ⟨file, Prod.ext rfl hwrite, ?_⟩
    cases hassemble : plan.assemble ⟨plan.treeBehind t, none⟩ with
    | error e =>
      rw [hassemble] at hsame
      cases hsame
    | ok file' =>
      rw [hassemble] at hsame
      exact congrArg Except.ok (Option.some.inj hsame)

theorem exists_plan_of_loadWithin {p : Project} {n : ℕ} {P : Plan → Prop} [DecidablePred P]
    (h : ((loadWithin p t n Project.outside ⟨"."⟩).bind Except.toOption).map
      (fun l => decide (P { steps := l.steps, kept := l.kept })) = some true) :
    ∃ plan, p.plan t = .ok plan ∧ P plan := by
  obtain ⟨l, hl, hP⟩ := load?_of_loadWithin h
  refine ⟨{ steps := l.steps, kept := l.kept }, ?_, of_decide_eq_true hP⟩
  rw [Project.plan, Project.load, hl]
  rfl

/-- A project in which a directory is visited from two others. One of them may declare variables. -/
def Tree.revisiting (declarations : String) : Tree :=
  [("paperweave.yaml", "tasks:\n- subdir: c\n- subdir: a\n"),
    ("a/paperweave.yaml", declarations ++ "tasks:\n- subdir: ../c\n"),
    ("c/paperweave.yaml", "")].foldl
    (fun t e => t.plant ⟨e.1⟩ (.file e.2.toUTF8)) (.bare ["project"])

/-- A declaration of one variable. -/
def Tree.languageDeclared : String := "variables:\n  lang: de\n"

/-- The file of the directory is kept twice, and written once if nothing is declared. -/
theorem write_again_iff_undeclared : ∃ (plan : Plan) (w : Written) (file : BuildFile),
    (⟨"/project", ∅, ∅⟩ : Project).plan (.revisiting "") = .ok plan ∧
    plan.write ⟨.revisiting "", none⟩ = (w, .ok file) ∧
    plan.assemble ⟨w.tree, none⟩ = .ok file ∧
    (plan.kept.filter (·.path = ⟨"c/.paperweave/variables.json"⟩)).length = 2 ∧
    plan.write ⟨w.tree, none⟩ = ({ tree := w.tree }, .ok file) := by
  obtain ⟨plan, hplan, hrepeats, htwice, hone⟩ := exists_plan_of_loadWithin
    (p := ⟨"/project", ∅, ∅⟩) (t := .revisiting "") (n := 3)
    (P := fun plan => plan.Repeats (.revisiting "") ∧
      (plan.kept.filter (·.path = ⟨"c/.paperweave/variables.json"⟩)).length = 2 ∧
      ∀ f ∈ plan.kept, ∀ g ∈ plan.kept,
        (plan.treeBehind (.revisiting "")).target? f.path =
          (plan.treeBehind (.revisiting "")).target? g.path → f.content = g.content)
    (by decide +kernel)
  have hsettles : (plan.treeBehind (.revisiting "")).Settles plan.kept :=
    fun f hf g hg _ hfloc hgloc => hone f hf g hg (hfloc.trans hgloc.symm)
  obtain ⟨file, hfirst, hagain⟩ := hrepeats.exists_file
  exact ⟨plan, _, file, hplan, hfirst, hagain, htwice,
    (write_again_iff hplan hfirst rfl hagain).2 hsettles⟩

/-- With a variable that only one of the visits has, every run writes the file of the directory
twice. -/
theorem write_again_replaces : ∃ (plan : Plan) (w : Written) (file : BuildFile),
    (⟨"/project", ∅, ∅⟩ : Project).plan (.revisiting Tree.languageDeclared) = .ok plan ∧
    plan.write ⟨.revisiting Tree.languageDeclared, none⟩ = (w, .ok file) ∧
    plan.assemble ⟨w.tree, none⟩ = .ok file ∧
    (plan.write ⟨w.tree, none⟩).1.replaced =
      [⟨"c/.paperweave/variables.json"⟩, ⟨"c/.paperweave/variables.json"⟩] := by
  obtain ⟨plan, hplan, hrepeats, hreplaced⟩ := exists_plan_of_loadWithin
    (p := ⟨"/project", ∅, ∅⟩) (t := .revisiting Tree.languageDeclared) (n := 3)
    (P := fun plan => plan.Repeats (.revisiting Tree.languageDeclared) ∧
      (plan.write ⟨plan.treeBehind (.revisiting Tree.languageDeclared), none⟩).1.replaced =
        [⟨"c/.paperweave/variables.json"⟩, ⟨"c/.paperweave/variables.json"⟩])
    (by decide +kernel)
  obtain ⟨file, hfirst, hagain⟩ := hrepeats.exists_file
  exact ⟨plan, _, file, hplan, hfirst, hagain, hreplaced⟩

end DocGraph
