import DocGraph.Proofs.Config.Outline
import DocGraph.Proofs.Tree.Replace

/-!
# DocGraph.Proofs.Config.Deletion

What becomes of loading when an entry that names a directory is taken out of a file.

* `Tree.Deletion`  — such an entry of a file in a tree, with a content without it.
* `Outline.without` — an outline without the entry at every visit of the file.
* `Outline.Of.without` — this is the outline in the tree after the deletion.
* `Loaded.Cut`     — what is left without blocks of steps and kept files.
* `Outline.OfDirectory.cut` — one block goes at every visit of the file that is left.
* `lexically_scoped` — the consequences for projects.
-/

namespace DocGraph

/-- What a content declares. -/
def ConfigFile.ofBytes? (content : ByteArray) : Option ConfigFile :=
  (Text.decode? content).bind ConfigFile.parse?

theorem ConfigFile.read_eq_ok {t : Tree} {path : Path} {content : ByteArray} {f : ConfigFile}
    (hread : t.read? path = some content) (hf : ofBytes? content = some f) :
    ConfigFile.read t path = .ok f := by
  obtain ⟨text, htext, hparse⟩ := Option.bind_eq_some_iff.1 hf
  rw [ConfigFile.read, hread, Option.bind_some, htext]
  dsimp only
  rw [hparse]

/-- An entry of a file that names a directory, and a content of the file without it. -/
structure Tree.Deletion (t : Tree) where
  loc : Location
  content : ByteArray
  file : ConfigFile
  i : ℕ
  entry : Yaml.Value
  newContent : ByteArray
  node?_loc : t.node? loc = some (.file content)
  declares : ConfigFile.ofBytes? content = some file
  tasks_i : file.tasks[i]? = some entry
  directory : ∃ path, ConfigEntry.read? entry = some (.directory path)
  newDeclares :
    ConfigFile.ofBytes? newContent = some { file with tasks := file.tasks.eraseIdx i }

namespace Tree.Deletion

variable {p : Project} {t : Tree} (d : t.Deletion)

/-- The tree after the deletion. -/
def result : Tree := t.put d.loc (.file d.newContent)

/-- Whether the entry stands in the file of a directory. -/
def Touches (here : Path) : Prop := t.locate? (configPath here) = some d.loc

instance (here : Path) : Decidable (d.Touches here) := inferInstanceAs (Decidable (_ = _))

/-- What is left of the entries of a directory. -/
def entriesLeft (here : Path) (entries : List Yaml.Value) : List Yaml.Value :=
  if d.Touches here then entries.eraseIdx d.i else entries

/-- What the directory of the entry declares, in some scope. -/
def Removed (p : Project) (l : Loaded) : Prop :=
  ∃ s here, Scope.declareEntry s d.entry = .ok (.directory here) ∧
    loadDirectory p t s here = some (.ok l)

variable {d} {above s : Scope} {here : Path} {entries : List Yaml.Value}

theorem tasks_of_touches (h : enterDirectory p t above here = .ok (s, entries))
    (htouches : d.Touches here) : entries = d.file.tasks := by
  obtain ⟨-, f, hf, -, rfl⟩ := Outline.lexical_of_enterDirectory h
  have hread := ConfigFile.read_eq_ok (read?_of_locate? d.node?_loc htouches) d.declares
  rw [hread] at hf
  cases hf
  rfl

theorem enterDirectory_result (h : enterDirectory p t above here = .ok (s, entries)) :
    enterDirectory p d.result above here =
      .ok (s, d.entriesLeft here entries) := by
  rw [entriesLeft]
  obtain ⟨f, hf, hrest⟩ := bind_eq_ok.1 h
  obtain ⟨scope, hscope, hpure⟩ := bind_eq_ok.1 hrest
  cases hpure
  have hread : d.result.read? (configPath here) =
      if d.Touches here then some d.newContent else t.read? (configPath here) :=
    read?_put_file d.node?_loc (configPath here)
  by_cases htouches : d.Touches here
  · have hold := ConfigFile.read_eq_ok (read?_of_locate? d.node?_loc htouches) d.declares
    rw [hold] at hf
    cases hf
    rw [if_pos htouches] at hread ⊢
    have hnew := ConfigFile.read_eq_ok hread d.newDeclares
    exact bind_eq_ok.2 ⟨_, hnew, bind_eq_ok.2 ⟨s, hscope, rfl⟩⟩
  · rw [if_neg htouches] at hread ⊢
    have hnew : ConfigFile.read d.result (configPath here) = .ok f := by
      rw [← hf, ConfigFile.read, ConfigFile.read, hread]
    exact bind_eq_ok.2 ⟨f, hnew, bind_eq_ok.2 ⟨s, hscope, rfl⟩⟩

end Tree.Deletion

/-! ## Outlines after a deletion -/

namespace Outline

/-- An outline without one of the entries. -/
def eraseIdx : Outline → ℕ → Outline
  | done, _ => done
  | own _ rest, 0 => rest
  | own steps rest, i + 1 => own steps (rest.eraseIdx i)
  | directory _ _ rest, 0 => rest
  | directory scope inside rest, i + 1 => directory scope inside (rest.eraseIdx i)

variable {p : Project} {t : Tree} {d : t.Deletion} {s : Scope} {vs : List Yaml.Value} {o : Outline}

/-- The outline of a directory without the deleted entry, if that stands in its file. -/
def withoutAt (d : t.Deletion) (here : Path) (o : Outline) : Outline :=
  if d.Touches here then o.eraseIdx d.i else o

/-- An outline without the deleted entry, wherever the file is visited. -/
def without (d : t.Deletion) : Outline → Outline
  | done => done
  | own steps rest => own steps (rest.without d)
  | directory scope inside rest =>
    directory scope ((inside.without d).withoutAt d scope.here) (rest.without d)

/-- How often the file is visited. -/
def visits (d : t.Deletion) : Outline → ℕ
  | done => 0
  | own _ rest => rest.visits d
  | directory scope inside rest =>
    (if d.Touches scope.here then 1 else 0) + inside.visits d + rest.visits d

theorem Of.eraseIdx (h : Of p t s vs o) (i : ℕ) : Of p t s (vs.eraseIdx i) (o.eraseIdx i) := by
  induction h generalizing i with
  | done => exact .done
  | own hv hrest ih =>
    cases i with
    | zero => exact hrest
    | succ i => exact .own hv (ih i)
  | directory hv henter hinside hrest _ ih =>
    cases i with
    | zero => exact hrest
    | succ i => exact .directory hv henter hinside (ih i)

theorem Of.withoutAt {t' : Tree} (h : Of p t' s vs o) (d : t.Deletion) (here : Path) :
    Of p t' s (d.entriesLeft here vs) (o.withoutAt d here) := by
  rw [Tree.Deletion.entriesLeft, Outline.withoutAt]
  split
  · exact h.eraseIdx d.i
  · exact h

theorem Of.without (h : Of p t s vs o) : Of p d.result s vs (o.without d) := by
  induction h with
  | done => exact .done
  | own hv _ ih => exact .own hv ih
  | directory hv henter _ _ ihinside ihrest =>
    obtain ⟨rfl, -⟩ := lexical_of_enterDirectory henter
    exact .directory hv (Tree.Deletion.enterDirectory_result henter) (ihinside.withoutAt d _) ihrest

theorem OfDirectory.without {above : Scope} {here : Path} (h : OfDirectory p t above here o) :
    OfDirectory p d.result above here (o.without d) := by
  obtain ⟨scope, entries, inside, henter, hinside, rfl⟩ := h
  obtain ⟨rfl, -⟩ := lexical_of_enterDirectory henter
  exact ⟨scope, _, _, Tree.Deletion.enterDirectory_result henter, hinside.without.withoutAt d _, rfl⟩

theorem visits_eraseIdx_le (o : Outline) (i : ℕ) : (o.eraseIdx i).visits d ≤ o.visits d := by
  induction o generalizing i with
  | done => exact le_rfl
  | own steps rest ih =>
    cases i with
    | zero => exact le_rfl
    | succ i => exact ih i
  | directory scope inside rest _ ih =>
    cases i with
    | zero =>
      rw [eraseIdx, visits]
      omega
    | succ i =>
      have hrest := ih i
      rw [eraseIdx, visits, visits]
      omega

theorem visits_withoutAt_le (o : Outline) (here : Path) :
    (o.withoutAt d here).visits d ≤ o.visits d := by
  rw [withoutAt]
  split
  · exact visits_eraseIdx_le o d.i
  · exact le_rfl

theorem visits_without_le (o : Outline) : (o.without d).visits d ≤ o.visits d := by
  induction o with
  | done => exact le_rfl
  | own steps rest ih => exact ih
  | directory scope inside rest ihinside ihrest =>
    have hinside := visits_withoutAt_le (d := d) (inside.without d) scope.here
    rw [Outline.without, visits, visits]
    omega

theorem visits_without_pos (h : 0 < o.visits d) : 0 < (o.without d).visits d := by
  induction o with
  | done => exact h
  | own steps rest ih => exact ih h
  | directory scope inside rest ihinside ihrest =>
    rw [Outline.without, visits]
    rw [visits] at h
    by_cases htouches : d.Touches scope.here
    · rw [if_pos htouches]
      omega
    · rw [if_neg htouches] at h ⊢
      rw [withoutAt, if_neg htouches]
      omega

end Outline

/-! ## Blocks -/

namespace Loaded

/-- The second is the first without some blocks, of which each has a property. -/
inductive Cut (P : Loaded → Prop) : ℕ → Loaded → Loaded → Prop
  | keep (l : Loaded) : Cut P 0 l l
  | cut {k : ℕ} {x l l' : Loaded} (a : Loaded) (hx : P x) (h : Cut P k l l') :
    Cut P (k + 1) (a ++ (x ++ l)) (a ++ l')

variable {P : Loaded → Prop} {k m : ℕ} {l l' r r' : Loaded}

theorem Cut.append_left (h : Cut P k l l') (a : Loaded) : Cut P k (a ++ l) (a ++ l') := by
  cases h with
  | keep => exact .keep _
  | cut b hx h =>
    rw [← append_assoc, ← append_assoc a b]
    exact .cut (a ++ b) hx h

theorem Cut.append (h : Cut P k l l') (hr : Cut P m r r') :
    Cut P (k + m) (l ++ r) (l' ++ r') := by
  induction h with
  | keep l =>
    rw [Nat.zero_add]
    exact hr.append_left l
  | cut a hx _ ih =>
    rw [append_assoc, append_assoc, append_assoc, Nat.add_right_comm]
    exact .cut a hx ih

theorem Cut.exists_of_one (h : Cut P 1 l l') :
    ∃ a x b, P x ∧ l = a ++ (x ++ b) ∧ l' = a ++ b := by
  obtain - | ⟨a, hx, h⟩ := h
  cases h
  exact ⟨a, _, _, hx, rfl, rfl⟩

end Loaded

namespace Outline

variable {p : Project} {t : Tree} {d : t.Deletion} {s : Scope} {vs : List Yaml.Value} {o : Outline}

theorem visits_directory (scope : Scope) (inside rest : Outline) :
    (directory scope inside rest).visits d =
      (directory scope inside .done).visits d + rest.visits d := by
  rw [visits, visits, visits, Nat.add_zero]

/-- One block goes at every visit of the file that is left. One more goes if the entry is deleted
from these entries, and visits in that block are not left. -/
def CutsAt (p : Project) (d : t.Deletion) (vs : List Yaml.Value) (o : Outline) : Prop :=
  Loaded.Cut (d.Removed p) ((o.without d).visits d) o.loaded (o.without d).loaded ∧
    ∀ i, vs[i]? = some d.entry →
      Loaded.Cut (d.Removed p) (((o.without d).eraseIdx i).visits d + 1) o.loaded
        ((o.without d).eraseIdx i).loaded

theorem CutsAt.directory {above scope : Scope} {here : Path} {entries : List Yaml.Value}
    {inside : Outline} (henter : enterDirectory p t above here = .ok (scope, entries))
    (h : CutsAt p d entries inside) :
    Loaded.Cut (d.Removed p)
      ((directory scope ((inside.without d).withoutAt d scope.here) .done).visits d)
      (directory scope inside .done).loaded
      (directory scope ((inside.without d).withoutAt d scope.here) .done).loaded := by
  obtain ⟨rfl, -⟩ := lexical_of_enterDirectory henter
  rw [loaded_directory_done, loaded_directory_done, visits, visits, Nat.add_zero]
  refine Loaded.Cut.append_left ?_ _
  by_cases htouches : d.Touches scope.here
  · have hentry : entries[d.i]? = some d.entry :=
      Tree.Deletion.tasks_of_touches henter htouches ▸ d.tasks_i
    rw [withoutAt, if_pos htouches, if_pos htouches, Nat.add_comm 1]
    exact h.2 d.i hentry
  · rw [withoutAt, if_neg htouches, if_neg htouches, Nat.zero_add]
    exact h.1

theorem Of.cutsAt (h : Of p t s vs o) : CutsAt p d vs o := by
  -- the entries of the edited file need the second half, all others the first
  induction h with
  | done => exact ⟨.keep _, nofun⟩
  | @own s v vs steps rest hv _ ih =>
    refine ⟨ih.1.append_left ⟨steps, []⟩, fun i hi => ?_⟩
    cases i with
    | zero =>
      -- an entry that names a directory declares no steps
      obtain ⟨path, hpath⟩ := d.directory
      cases hi
      rw [Scope.declareEntry, hpath] at hv
      obtain ⟨_, -, hv⟩ := map_eq_ok.1 hv
      cases hv
    | succ i => exact (ih.2 i hi).append_left ⟨steps, []⟩
  | @directory s scope v vs entries dir inside rest hv henter hinside _ ihinside ihrest =>
    have hnode := ihinside.directory henter
    rw [CutsAt, Outline.without, loaded_directory]
    refine ⟨?_, fun i hi => ?_⟩
    · rw [loaded_directory scope ((inside.without d).withoutAt d scope.here), visits_directory]
      exact hnode.append ihrest.1
    · cases i with
      | zero =>
        -- the block goes as a whole, whatever else is deleted in it
        cases hi
        have hremoved : d.Removed p (Outline.directory scope inside .done).loaded :=
          ⟨s, dir, hv, OfDirectory.load ⟨scope, entries, inside, henter, hinside, rfl⟩⟩
        exact .cut {} hremoved ihrest.1
      | succ i =>
        rw [Outline.eraseIdx, loaded_directory scope ((inside.without d).withoutAt d scope.here),
          visits_directory, Nat.add_assoc]
        exact hnode.append (ihrest.2 i hi)

theorem OfDirectory.cut {above : Scope} {here : Path} (h : OfDirectory p t above here o) :
    Loaded.Cut (d.Removed p) ((o.without d).visits d) o.loaded (o.without d).loaded := by
  obtain ⟨scope, entries, inside, henter, hinside, rfl⟩ := h
  exact hinside.cutsAt.directory henter

end Outline

/-! ## Projects -/

variable {p : Project} {t : Tree} {l : Loaded}

/-- Configuration is scoped along the directories. What a project declares is what its outline
declares, in which every scope is lexical. When an entry that names a directory is taken out of a
file, a block is lost at every visit of the file that is left, and nothing else. It is one block if
the file is visited once. -/
theorem lexically_scoped (h : p.load? t = some (.ok l)) :
    ∃ o, Outline.OfDirectory p t Project.outside ⟨"."⟩ o ∧ l = ⟨o.steps, o.kept⟩ ∧
      o.Scoped p t Project.outside ∧
      ∀ d : t.Deletion, p.load? d.result = some (.ok (o.without d).loaded) ∧
        l.Cut (d.Removed p) ((o.without d).visits d) (o.without d).loaded ∧
        (o.visits d = 1 → ∃ a x b, d.Removed p x ∧ l = a ++ (x ++ b) ∧
          (o.without d).loaded = a ++ b) := by
  obtain ⟨o, ho, rfl⟩ := Outline.loadDirectory_eq_ok_iff.1 h
  refine ⟨o, ho, rfl, ho.scoped, fun d => ?_⟩
  have hcut := ho.cut (d := d)
  refine ⟨ho.without.load, hcut, fun hone => Loaded.Cut.exists_of_one ?_⟩
  have hone' : (o.without d).visits d = 1 := by
    have hle := Outline.visits_without_le (d := d) o
    have hpos := Outline.visits_without_pos (d := d) (o := o) (by omega)
    omega
  rw [hone'] at hcut
  exact hcut

/-! ## A directory that is named twice -/

/-- The name of a barrier. -/
def Step.barrier? : Step → Option String
  | .barrier name => some name
  | .build _ => none

/-- A project in which one directory is named twice. Another one lies in it. -/
def Tree.twice : Tree :=
  [("paperweave.yaml", "tasks:\n- subdir: a\n- barrier: between\n- subdir: a\n"),
    ("a/paperweave.yaml", "tasks:\n- subdir: b\n"),
    ("a/b/paperweave.yaml", "tasks:\n- barrier: below\n")].foldl
    (fun t e => t.plant ⟨e.1⟩ (.file e.2.toUTF8)) (.bare ["project"])

/-- The file of the directory that is named twice. -/
def Location.ofTwice : Location := ["project", "a", ConfigFile.name]

theorem load?_twice : ∃ l, (⟨"/project", ∅, ∅⟩ : Project).load? .twice = some (.ok l) ∧
    l.steps.map Step.barrier? = [some "below", some "between", some "below"] :=
  load?_of_loadWithin (n := 3) (by decide +kernel)

/-- A blank file is left of one that only names a directory. -/
theorem exists_deletion_twice :
    ∃ d : Tree.twice.Deletion, d.loc = .ofTwice ∧ d.newContent = "".toUTF8 := by
  have hfile : (ConfigFile.ofBytes? "tasks:\n- subdir: b\n".toUTF8).map (fun f =>
      (f.imports, f.vars.length, f.tasks.map directoryOf?)) = some ([], 0, [some "b"]) := by
    decide +kernel
  obtain ⟨file, hfile, hcontent⟩ := Option.map_eq_some_iff.1 hfile
  obtain ⟨himports, hrest⟩ := Prod.mk.inj hcontent
  obtain ⟨hvars, htasks⟩ := Prod.mk.inj hrest
  obtain ⟨entry, hentries, hentry⟩ := List.map_eq_singleton_iff.1 htasks
  have hblank : ConfigFile.ofBytes? "".toUTF8 =
      some { file with tasks := file.tasks.eraseIdx 0 } := by
    rw [hentries, himports, List.length_eq_zero_iff.1 hvars]
    rfl
  exact ⟨{
    loc := .ofTwice
    content := "tasks:\n- subdir: b\n".toUTF8
    file
    i := 0
    entry
    newContent := "".toUTF8
    node?_loc := by decide +kernel
    declares := hfile
    tasks_i := by rw [hentries]; rfl
    directory := ⟨"b", read?_of_directoryOf? hentry⟩
    newDeclares := hblank }, rfl, rfl⟩

theorem lexically_scoped_twice : ∃ l o, (⟨"/project", ∅, ∅⟩ : Project).load? .twice = some (.ok l) ∧
    Outline.OfDirectory ⟨"/project", ∅, ∅⟩ .twice Project.outside ⟨"."⟩ o ∧
    l = ⟨o.steps, o.kept⟩ ∧ o.Scoped ⟨"/project", ∅, ∅⟩ .twice Project.outside ∧
    ∃ d : Tree.twice.Deletion, (⟨"/project", ∅, ∅⟩ : Project).load? d.result =
      some (.ok (o.without d).loaded) := by
  obtain ⟨l, hl, -⟩ := load?_twice
  obtain ⟨d, -⟩ := exists_deletion_twice
  obtain ⟨o, ho, hloaded, hscoped, hdeletion⟩ := lexically_scoped hl
  exact ⟨l, o, hl, ho, hloaded, hscoped, d, (hdeletion d).1⟩

/-- Two blocks are lost if an entry is deleted from a file that is visited twice. -/
theorem deletion_cuts_twice : ∃ (d : Tree.twice.Deletion) (l l' : Loaded),
    (⟨"/project", ∅, ∅⟩ : Project).load? .twice = some (.ok l) ∧
    (⟨"/project", ∅, ∅⟩ : Project).load? d.result = some (.ok l') ∧
    ¬∃ a x b : Loaded, l = a ++ (x ++ b) ∧ l' = a ++ b := by
  obtain ⟨d, hloc, hcontent⟩ := exists_deletion_twice
  obtain ⟨l, hl, hnames⟩ := load?_twice
  have hresult : d.result = Tree.twice.put .ofTwice (.file "".toUTF8) := by
    rw [Tree.Deletion.result, hloc, hcontent]
  have hleft : ∃ l, (⟨"/project", ∅, ∅⟩ : Project).load? d.result = some (.ok l) ∧
      l.steps.map Step.barrier? = [some "between"] :=
    load?_of_loadWithin (n := 3) (by rw [hresult]; decide +kernel)
  obtain ⟨l', hl', hnames'⟩ := hleft
  refine ⟨d, l, l', hl, hl', ?_⟩
  rintro ⟨a, x, b, rfl, rfl⟩
  have hsteps : ∀ a b : Loaded, (a ++ b).steps = a.steps ++ b.steps := fun _ _ => rfl
  rw [hsteps, hsteps, List.map_append, List.map_append] at hnames
  rw [hsteps, List.map_append] at hnames'
  -- the one step that is left is neither the first nor the last one
  obtain ⟨ha, hb⟩ | ⟨ha, hb⟩ := List.append_eq_singleton_iff.1 hnames'
  · rw [ha, hb] at hnames
    have hlast := congrArg List.getLast? hnames
    simp at hlast
  · rw [ha, hb] at hnames
    have hhead := congrArg List.head? hnames
    simp at hhead

end DocGraph
