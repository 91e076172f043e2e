import DocGraph.Proofs.Path.Canonical
import DocGraph.Proofs.Task.Variation
import DocGraph.Proofs.Text.Words

/-!
# DocGraph.Proofs.Task.Directories

Which directories the rule of a statement makes.

* `Statement.NeedsDirectory` — an output lives in the directory, and no input does.
* `mem_newDirectories`       — post-processing finds the directories that are needed.
* `normalize_of_expandPath`  — expanded paths are in normal form, so sorting them loses none.
* `needsDirectory_complete`  — hence a completed statement needs the same directories.
* `makes_directories_iff`    — its rule makes directories exactly if some are needed, and it makes
  exactly these if no name of them has a blank.
* `directory_is_split`       — of a name with a blank, two directories are made.
-/

namespace DocGraph

namespace Statement

/-- An output lives in the directory, which is not that of the project, and no input does. -/
structure NeedsDirectory (s : Statement) (dir : String) : Prop where
  output : ∃ p ∈ s.allOutputs, p.parentDir.text = dir
  ne_project : dir ≠ "."
  input : ∀ p ∈ s.inputs ++ s.implicit, p.parentDir.text ≠ dir

theorem NeedsDirectory.ne_empty {s : Statement} {dir : String} (h : s.NeedsDirectory dir) :
    dir ≠ "" := by
  obtain ⟨p, -, rfl⟩ := h.output
  exact p.text_parentDir_ne_empty

/-- Which directories are needed depends on what the outputs and inputs are, in any order. -/
theorem NeedsDirectory.congr {r s : Statement} {dir : String}
    (houtputs : ∀ p, p ∈ r.allOutputs ↔ p ∈ s.allOutputs)
    (hinputs : ∀ p, p ∈ r.inputs ++ r.implicit ↔ p ∈ s.inputs ++ s.implicit) :
    r.NeedsDirectory dir ↔ s.NeedsDirectory dir := by
  constructor
  · rintro ⟨⟨p, hp, hdir⟩, hne, hall⟩
    exact ⟨⟨p, (houtputs p).1 hp, hdir⟩, hne, fun q hq => hall q ((hinputs q).2 hq)⟩
  · rintro ⟨⟨p, hp, hdir⟩, hne, hall⟩
    exact ⟨⟨p, (houtputs p).2 hp, hdir⟩, hne, fun q hq => hall q ((hinputs q).1 hq)⟩

end Statement

namespace Task

variable {t : Task} {tree : Tree} {known : PathSet} {s e : Statement} {dir : String}

theorem mem_directories {paths : List Path} :
    dir ∈ directories paths ↔ ∃ p ∈ paths, p.parentDir.text = dir := by
  rw [directories, TextSet.mem_ofList, List.mem_map]

theorem mem_newDirectories : dir ∈ newDirectories s ↔ s.NeedsDirectory dir := by
  rw [newDirectories, ← SortedBy.mem_def, SortedBy.mem_diff, mem_directories,
    ← Bool.not_eq_true, SortedBy.contains_insert, ← TextSet.mem_iff_contains, mem_directories,
    not_or]
  constructor
  · rintro ⟨houtput, hinput, hne⟩
    exact ⟨houtput, Ne.symm hne, fun p hp hdir => hinput ⟨p, hp, hdir⟩⟩
  · rintro ⟨houtput, hne, hinput⟩
    exact ⟨houtput, fun ⟨p, hp, hdir⟩ => hinput p hp hdir, Ne.symm hne⟩

theorem newDirectories_eq_nil_iff : newDirectories s = [] ↔ ¬∃ dir, s.NeedsDirectory dir := by
  simp only [List.eq_nil_iff_forall_not_mem, mem_newDirectories, not_exists]

theorem normalize_of_expandPath {constants : Variables} {p q : Path}
    (h : expandPath constants p = .ok q) : q.normalize = q := by
  obtain ⟨text, -, h⟩ := bind_eq_ok.1 h
  cases h
  split
  · split
    · exact Path.normalize_relativeTo _ _
    · exact Path.normalize_normalize _
  · exact Path.normalize_normalize _

theorem normalize_of_forall₂ {constants : Variables} {l m : List Path}
    (h : List.Forall₂ (fun p q => expandPath constants p = .ok q) l m) :
    ∀ q ∈ m, q.normalize = q := by
  intro q hq
  obtain ⟨p, -, hp⟩ := forall₂_mem_right h hq
  exact normalize_of_expandPath hp

/-- Completing an expanded statement sorts some of its paths, but loses none. -/
theorem needsDirectory_complete {constants : Variables} (h : Expanded constants s e) :
    (t.complete e).NeedsDirectory dir ↔ e.NeedsDirectory dir := by
  refine Statement.NeedsDirectory.congr (fun p => ?_) fun p => ?_
  · rw [allOutputs_complete, Statement.allOutputs, Statement.allOutputs, List.mem_append,
      List.mem_append]
    exact or_congr_right (Path.mem_sorted_iff (normalize_of_forall₂ h.implicitOutputs))
  · rw [complete_inputs, complete_implicit, List.mem_append, List.mem_append,
      Path.mem_sorted_iff (normalize_of_forall₂ h.implicit)]

theorem complete_of_not_phony (h : e.rule ≠ Rule.phony) :
    (t.complete e).rule = (addDirectories e).rule ∧ (t.complete e).vars = (addDirectories e).vars := by
  rw [complete, if_neg h]
  exact ⟨rfl, rfl⟩

theorem append_mkdirSuffix_ne (rule : String) : rule ++ Rule.mkdirSuffix ≠ rule := by
  intro h
  have hlength := congrArg String.length h
  rw [String.length_append] at hlength
  have hsuffix : Rule.mkdirSuffix.length = 6 := by decide
  omega

theorem addDirectories_of_not_needed (h : ¬∃ dir, e.NeedsDirectory dir) : addDirectories e = e := by
  rw [addDirectories, newDirectories_eq_nil_iff.2 h]
  rfl

theorem addDirectories_of_needed (h : ∃ dir, e.NeedsDirectory dir) : addDirectories e = { e with
    rule := e.rule ++ Rule.mkdirSuffix
    vars := e.vars.set "dstdirs" (Text.spaced (newDirectories e)) } := by
  have hne : ¬(newDirectories e).isEmpty = true := by
    rw [List.isEmpty_iff, newDirectories_eq_nil_iff, not_not]
    exact h
  rw [addDirectories, if_neg hne]

/-- The words of the directories are the directories that are needed, unless a name of them has a
blank. -/
theorem words_newDirectories_iff {blank : Char → Bool} (hblank : blank ' ' = true) :
    (∀ dir, dir ∈ Text.wordsBy blank (Text.spaced (newDirectories e)) ↔ e.NeedsDirectory dir) ↔
      ∀ dir, e.NeedsDirectory dir → ∀ c ∈ dir.toList, blank c = false := by
  have hne : ∀ dir ∈ newDirectories e, dir ≠ "" := fun _ h => (mem_newDirectories.1 h).ne_empty
  have hwords := Text.mem_wordsBy_spaced_iff hblank hne
  simp only [mem_newDirectories] at hwords
  exact hwords

/-- What becomes of a statement, if it is neither an alias nor replaced. -/
theorem completed_of_postProcess {r : Statement} {d : Bool}
    (h : t.postProcess tree known s = .ok (.build r d)) (hrule : r.rule ≠ Rule.phony)
    (hplaceholder : ∀ e missing, missing ≠ [] → r ≠ placeholder e missing) :
    ∃ e, Expanded t.constants (overrideVariables t.constants s) e ∧ e.rule = s.rule ∧
      e.rule ≠ Rule.phony ∧ r = t.complete e := by
  obtain ⟨-, e, he, ⟨-, hr⟩ | ⟨hmissing, hr⟩⟩ := postProcess_ok h
  · cases hr
    refine ⟨e, expanded_of_expand he, (rule_of_expand he).trans rfl, ?_, rfl⟩
    intro hphony
    rcases rule_of_complete t e with hsame | ⟨hne, -⟩
    · exact hrule (hsame.trans hphony)
    · exact hne hphony
  · -- something is missing, so the statement is replaced
    cases hr
    exact absurd rfl (hplaceholder _ _ hmissing)

/-- A statement that is neither an alias nor replaced gets the rule that makes directories exactly if
some are needed. What is made is then read from a variable, word by word. It is what is needed
exactly if no directory that is needed has a blank in its name. -/
theorem makes_directories_iff {r : Statement} {d : Bool} {blank : Char → Bool}
    (h : t.postProcess tree known s = .ok (.build r d)) (hrule : r.rule ≠ Rule.phony)
    (hplaceholder : ∀ e missing, missing ≠ [] → r ≠ placeholder e missing)
    (hblank : blank ' ' = true) :
    (r.rule = s.rule ++ Rule.mkdirSuffix ↔ ∃ dir, r.NeedsDirectory dir) ∧
    ((¬∃ dir, r.NeedsDirectory dir) → r.rule = s.rule) ∧
    ((∃ dir, r.NeedsDirectory dir) → ∃ value, r.vars.get? "dstdirs" = some value ∧
      ((∀ dir, dir ∈ Text.wordsBy blank value ↔ r.NeedsDirectory dir) ↔
        ∀ dir, r.NeedsDirectory dir → ∀ c ∈ dir.toList, blank c = false)) := by
  obtain ⟨e, hexpanded, hsame, hphony, rfl⟩ := completed_of_postProcess h hrule hplaceholder
  obtain ⟨hcomplete, hvars⟩ := complete_of_not_phony (t := t) hphony
  simp only [needsDirectory_complete hexpanded]
  rw [hcomplete, hvars, ← hsame]
  by_cases hneeded : ∃ dir, e.NeedsDirectory dir
  · rw [addDirectories_of_needed hneeded]
    refine ⟨iff_of_true rfl hneeded, fun hnone => absurd hneeded hnone, fun _ => ?_⟩
    refine ⟨Text.spaced (newDirectories e), ?_, words_newDirectories_iff hblank⟩
    rw [Table.get?_set, if_pos rfl]
  · rw [addDirectories_of_not_needed hneeded]
    refine ⟨iff_of_false (append_mkdirSuffix_ne _).symm hneeded, fun _ => rfl, fun hsome => ?_⟩
    exact absurd hsome hneeded

theorem ne_placeholder {r : Statement} {missing : List Path} (h : r.rule ≠ Rule.errorMissing) :
    r ≠ placeholder e missing := by
  rintro rfl
  exact h rfl

/-- A task that puts a document away. -/
def archiving : Task where
  command := { name := "archive", rules := ∅, action? := fun _ => none }
  action := fun _ inputs outputs => .ok (.ofStatement { rule := "archive", outputs, inputs })
  inputs := []

/-- A statement that puts a document away under several names. -/
def archive (outputs : List Path) : Statement :=
  { rule := "archive", outputs, inputs := [⟨"doc/a.txt"⟩], implicit := [⟨"doc/img/b.png"⟩] }

/-- Of four directories with outputs, two are those of inputs. -/
theorem makes_directories_iff_archive :
    let s := archive [⟨"out/a.txt"⟩, ⟨"doc/./b.txt"⟩, ⟨"deep/../img/c.txt"⟩, ⟨"doc/img/d.txt"⟩]
    ∃ r, archiving.postProcess (.bare []) ∅ s = .ok (.build r true) ∧
      r.rule = s.rule ++ Rule.mkdirSuffix ∧ ∃ value, r.vars.get? "dstdirs" = some value ∧
        ∀ dir, dir ∈ Text.words value ↔ dir = "img" ∨ dir = "out" := by
  intro s
  let r : Statement := { archive [⟨"out/a.txt"⟩, ⟨"doc/b.txt"⟩, ⟨"img/c.txt"⟩, ⟨"doc/img/d.txt"⟩] with
    rule := "archive_mkdir"
    vars := .ofPairs [("dstdirs", "img out")] }
  have hpost : archiving.postProcess (.bare []) ∅ s = .ok (.build r true) := by decide +kernel
  have hplaceholder : ∀ e missing, missing ≠ [] → r ≠ placeholder e missing :=
    fun _ _ _ => ne_placeholder (by decide)
  have hblank : Text.isBlank ' ' = true := by decide
  have hneeds : ∀ dir, r.NeedsDirectory dir ↔ dir = "img" ∨ dir = "out" := by
    intro dir
    have hnew : newDirectories r = ["img", "out"] := by decide +kernel
    rw [← mem_newDirectories, hnew, List.mem_cons, List.mem_singleton]
  have hplain : ∀ dir, r.NeedsDirectory dir → ∀ c ∈ dir.toList, Text.isBlank c = false := by
    intro dir hdir
    rcases (hneeds dir).1 hdir with rfl | rfl
    · simp [Text.isBlank]
    · simp [Text.isBlank]
  obtain ⟨hmkdir, -, hvalue⟩ := makes_directories_iff hpost (by decide) hplaceholder hblank
  have hsome : ∃ dir, r.NeedsDirectory dir := ⟨"img", (hneeds _).2 (.inl rfl)⟩
  obtain ⟨value, hget, hwords⟩ := hvalue hsome
  refine ⟨r, hpost, hmkdir.2 hsome, value, hget, fun dir => ?_⟩
  rw [Text.words_eq, hwords.2 hplain, hneeds]

/-- The words of a directory with a blank in its name are two others. -/
theorem directory_is_split :
    ¬∀ (t : Task) (tree : Tree) (known : PathSet) (s r : Statement) (d : Bool),
      t.postProcess tree known s = .ok (.build r d) → r.rule ≠ Rule.phony →
      (∀ e missing, missing ≠ [] → r ≠ placeholder e missing) → (∃ dir, r.NeedsDirectory dir) →
      ∃ value, r.vars.get? "dstdirs" = some value ∧
        ∀ dir, dir ∈ Text.words value ↔ r.NeedsDirectory dir := by
  intro h
  let r : Statement := { archive [⟨"my dir/a.txt"⟩] with
    rule := "archive_mkdir"
    vars := .ofPairs [("dstdirs", "my dir")] }
  have hpost : archiving.postProcess (.bare []) ∅ (archive [⟨"my dir/a.txt"⟩]) =
      .ok (.build r true) := by decide +kernel
  have hneeds : r.NeedsDirectory "my dir" := by
    rw [← mem_newDirectories]
    decide +kernel
  obtain ⟨value, hget, hwords⟩ := h _ _ _ _ _ _ hpost (by decide)
    (fun _ _ _ => ne_placeholder (by decide)) ⟨_, hneeds⟩
  have hvalue : r.vars.get? "dstdirs" = some "my dir" := by decide +kernel
  rw [hvalue] at hget
  cases hget
  exact absurd ((hwords _).2 hneeds) (by decide)

end Task
end DocGraph
