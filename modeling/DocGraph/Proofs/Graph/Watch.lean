import DocGraph.Proofs.Graph.Producer
import DocGraph.Proofs.Tree.Directory

/-!
# DocGraph.Proofs.Graph.Watch

Every consulted path is watched, and Ninja accepts what is watched.

* `Task.Call`, `Calls`  — what the commands of a run give, call by call.
* `calls_of_foldlM`     — the paths that were consulted are those of all calls.
* `Calls.unique`        — there is one list of calls.
* `BuildFile.Has`       — a path is made by a statement, or there on disk.
* `BuildFile.Covers`    — a watched path tells when a consulted one changes or appears.
* `covers_watched`      — what is watched for a path covers it.
* `consulted_paths_watched` — the consequences for a build file.
-/

namespace DocGraph

/-! ## What is consulted -/

namespace Task

/-- What the command gives for one assignment. -/
def Call (t : Task) (around : Surroundings) (c : Correlation) (g : Generated) : Prop :=
  ∃ outputs, t.bindOutputs c.binding = .ok outputs ∧
    t.action around (c.paths.map Path.mk) outputs = .ok g

/-- What the command gives for all assignments, in order. -/
def Called (t : Task) (around : Surroundings) (known : PathSet) (gs : List Generated) : Prop :=
  ∃ found, t.matchInputs around.tree known = .ok found ∧ List.Forall₂ (t.Call around) found gs

variable {t : Task} {around : Surroundings} {known : PathSet} {c : Correlation} {out : TaskOutput}

theorem call_of_generateFor (h : t.generateFor around known c = .ok out) :
    ∃ g, t.Call around c g ∧ out.gendeps = g.gendeps := by
  obtain ⟨outputs, g, emitted, houtputs, hg, -, rfl⟩ := generateFor_ok h
  exact ⟨g, ⟨outputs, houtputs, hg⟩, rfl⟩

theorem calls_of_forall₂ {cs : List Correlation} {outs : List TaskOutput}
    (h : List.Forall₂ (fun c o => t.generateFor around known c = .ok o) cs outs) :
    ∃ gs, List.Forall₂ (t.Call around) cs gs ∧
      outs.flatMap TaskOutput.gendeps = gs.flatMap Generated.gendeps := by
  induction h with
  | nil => exact ⟨[], .nil, rfl⟩
  | cons hfirst _ ih =>
    obtain ⟨g, hg, hdeps⟩ := call_of_generateFor hfirst
    obtain ⟨gs, hgs, hdepss⟩ := ih
    refine ⟨g :: gs, .cons hg hgs, ?_⟩
    rw [List.flatMap_cons, List.flatMap_cons, hdeps, hdepss]

theorem called_of_generate (h : t.generate around known = .ok out) :
    ∃ gs, t.Called around known gs ∧ out.gendeps = gs.flatMap Generated.gendeps := by
  obtain ⟨found, outs, hfound, houts, hdeps, -⟩ := generate_ok h
  obtain ⟨gs, hgs, hdepss⟩ := calls_of_forall₂ houts
  exact ⟨gs, ⟨found, hfound, hgs⟩, hdeps.trans hdepss⟩

theorem Called.unique {gs gs' : List Generated} (h : t.Called around known gs)
    (h' : t.Called around known gs') : gs = gs' := by
  obtain ⟨found, hfound, hgs⟩ := h
  obtain ⟨found', hfound', hgs'⟩ := h'
  cases hfound.symm.trans hfound'
  have hright : Relator.RightUnique (t.Call around) := by
    rintro c g g' ⟨outputs, hout, hg⟩ ⟨outputs', hout', hg'⟩
    cases hout.symm.trans hout'
    exact Except.ok.inj (hg.symm.trans hg')
  exact hright.forall₂ hgs hgs'

end Task

/-- What the commands of all tasks give, call by call, on the way from `a` through some steps. -/
inductive Calls (around : Surroundings) : Assembly → List Step → List Generated → Prop where
  | nil {a : Assembly} : Calls around a [] []
  | build {a a' : Assembly} {t : Task} {steps : List Step} {here later : List Generated}
      (hcalled : t.Called around a.state.outputs here) (hadd : a.addTask around t = .ok a')
      (hlater : Calls around a' steps later) : Calls around a (.build t :: steps) (here ++ later)
  | barrier {a a' : Assembly} {name : String} {steps : List Step} {later : List Generated}
      (hadd : a.addBarrier name = .ok a') (hlater : Calls around a' steps later) :
      Calls around a (.barrier name :: steps) later

variable {around : Surroundings} {a a' : Assembly} {steps : List Step}

/-- There is one list of calls. -/
theorem Calls.unique {gs gs' : List Generated} (h : Calls around a steps gs)
    (h' : Calls around a steps gs') : gs = gs' := by
  induction h generalizing gs' with
  | nil =>
    cases h'
    rfl
  | build hcalled hadd _ ih =>
    cases h' with
    | build hcalled' hadd' hlater' =>
      cases hadd.symm.trans hadd'
      rw [hcalled.unique hcalled', ih hlater']
  | barrier hadd _ ih =>
    cases h' with
    | barrier hadd' hlater' =>
      cases hadd.symm.trans hadd'
      exact ih hlater'

/-- Statements add no consulted path, whether they are taken or not. -/
theorem addEmitted_gendeps {e : Emitted} (h : a.addEmitted e = .ok a') :
    a'.state.gendeps = a.state.gendeps := by
  rcases addEmitted_ok h with ⟨text, -, rfl⟩ | ⟨s, d, state, -, hc, rfl⟩ | ⟨s, d, -, -, rfl⟩
  · rfl
  · obtain ⟨-, rfl⟩ := GraphState.claim_accepted hc
    rfl
  · rfl

theorem foldlM_addEmitted_gendeps {es : List Emitted}
    (h : es.foldlM Assembly.addEmitted a = .ok a') : a'.state.gendeps = a.state.gendeps :=
  foldlM_induct (R := fun a a' => a'.state.gendeps = a.state.gendeps) (fun _ => rfl)
    (by intro _ _ _ h h'; exact h'.trans h) (fun _ _ _ => addEmitted_gendeps) h

theorem called_of_addTask {t : Task} (h : a.addTask around t = .ok a') :
    ∃ gs, t.Called around a.state.outputs gs ∧
      a'.state.gendeps = a.state.gendeps.insertMany (gs.flatMap Generated.gendeps) := by
  obtain ⟨⟨a₁, out⟩, hopen, h⟩ := bind_eq_ok.1 h
  obtain ⟨a₂, hadd, h⟩ := bind_eq_ok.1 h
  cases h
  have ho := Assembly.opened_of_openTask hopen
  obtain ⟨gs, hgs, hdeps⟩ := Task.called_of_generate ho.generated
  refine ⟨gs, hgs, ?_⟩
  rw [← hdeps, ← ho.state_eq, ← foldlM_addEmitted_gendeps hadd]
  rfl

/-- The paths that were consulted are those of all calls. -/
theorem calls_of_foldlM (h : steps.foldlM (Assembly.addStep around) a = .ok a') :
    ∃ gs, Calls around a steps gs ∧
      a'.state.gendeps = a.state.gendeps.insertMany (gs.flatMap Generated.gendeps) := by
  induction steps generalizing a with
  | nil =>
    cases h
    exact ⟨[], .nil, rfl⟩
  | cons step steps ih =>
    obtain ⟨a₁, hstep, hrest⟩ := foldlM_cons_ok.1 h
    obtain ⟨later, hlater, hdeps⟩ := ih hrest
    cases step with
    | build t =>
      obtain ⟨here, hhere, hdeps₁⟩ := called_of_addTask hstep
      refine ⟨here ++ later, .build hhere hstep hlater, ?_⟩
      rw [hdeps, hdeps₁, List.flatMap_append, SortedBy.insertMany_append]
    | barrier name =>
      refine ⟨later, .barrier hstep hlater, ?_⟩
      obtain ⟨-, rfl⟩ := Assembly.addBarrier_ok hstep
      exact hdeps

/-! ## What is watched -/

/-- A path is made by a statement, or there on disk. -/
def BuildFile.Has (file : BuildFile) (tree : Tree) (p : Path) : Prop :=
  (∃ s ∈ file.builds, s.makes p = true) ∨ tree.exists? p = true

/-- Watching `q` tells when `p` changes or appears. -/
inductive BuildFile.Covers (file : BuildFile) (tree : Tree) (p : Path) : Path → Prop where
  | itself {q : Path} (hp : file.Has tree p) (hq : q.Same p) : Covers file tree p q
  /-- An absent path cannot appear without a new entry in this directory. -/
  | nearest {q : Path} (hp : ¬file.Has tree p) (hq : tree.IsNearest q p) : Covers file tree p q
  | top {q : Path} (hp : ¬file.Has tree p)
      (hnone : ∀ d : Path, d.Above p → tree.isDirectory d = false) (hq : q.Same ⟨"."⟩) :
      Covers file tree p q

theorem Tree.IsNearest.congr {t : Tree} {d d' p : Path} (h : t.IsNearest d p) (hd : d'.Same d) :
    t.IsNearest d' p := by
  refine ⟨(t.isDirectory_congr hd).trans h.isDirectory, ?_, ?_⟩
  · rw [Path.Above, Path.Same, hd]
    exact h.above
  · intro e he
    refine h.between e ?_
    rw [Path.Above, Path.Same, ← hd]
    exact he

theorem BuildFile.Covers.congr {file : BuildFile} {tree : Tree} {p q q' : Path}
    (h : file.Covers tree p q) (hq : q'.Same q) : file.Covers tree p q' := by
  cases h with
  | itself hp h => exact .itself hp (hq.trans h)
  | nearest hp h => exact .nearest hp (h.congr hq)
  | top hp hnone h => exact .top hp hnone (hq.trans h)

variable {tree : Tree} {settings : Settings} {file : BuildFile}

/-- What is watched for a path covers it, and is there or made. -/
theorem covers_watched {known : PathSet}
    (hknown : ∀ p : Path, known.contains p.components = true ↔
      ∃ s ∈ file.builds, s.makes p = true) (p : Path) :
    file.Covers tree p (Assembly.watched tree known p) ∧
      file.Has tree (Assembly.watched tree known p) := by
  have hhas : file.Has tree p ↔ (known.contains p.components || tree.exists? p) = true := by
    rw [BuildFile.Has, ← hknown, Bool.or_eq_true]
  unfold Assembly.watched
  by_cases hp : (known.contains p.components || tree.exists? p) = true
  · rw [if_pos hp]
    exact ⟨.itself (hhas.2 hp) rfl, hhas.2 hp⟩
  · rw [if_neg hp]
    have hp := mt hhas.1 hp
    rcases tree.nearestDirectory_cases p with hd | ⟨hd, hnone⟩
    · exact ⟨.nearest hp hd, .inr (Tree.exists?_of_isDirectory hd.isDirectory)⟩
    · rw [hd]
      exact ⟨.top hp hnone rfl, .inr (Tree.exists?_of_isDirectory tree.isDirectory_here)⟩

/-- What stands in the statement that writes the build file again. -/
theorem regeneration_some {g : Rule × Statement} (h : a.regeneration tree settings = some g) :
    g.2.rule = BuildFile.regenerateName ∧ g.2.allOutputs = [settings.buildFile] := by
  unfold Assembly.regeneration at h
  split at h
  · cases h
  · cases h
    exact ⟨rfl, rfl⟩

/-- It watches what is to be watched for the consulted paths, in one spelling each. -/
theorem regeneration_implicit {rule : Rule} {s : Statement}
    (h : a.regeneration tree settings = some (rule, s)) :
    ∃ watched : PathSet, s.implicit = watched.toList ∧
      (∀ q ∈ watched, ∃ p ∈ a.state.gendeps, q = Assembly.watched tree a.state.outputs p) ∧
      ∀ p ∈ a.state.gendeps, ∃ q ∈ watched, q.Same (Assembly.watched tree a.state.outputs p) := by
  unfold Assembly.regeneration at h
  split at h
  · cases h
  · cases h
    refine ⟨_, rfl, ?_, ?_⟩
    · intro q hq
      rcases SortedBy.mem_of_mem_putMany hq with hq | hq
      · cases hq
      · obtain ⟨p, hp, rfl⟩ := List.mem_map.1 hq
        exact ⟨p, hp, rfl⟩
    · intro p hp
      exact SortedBy.contains_iff.1
        (SortedBy.contains_putMany.2 (.inr ⟨_, List.mem_map_of_mem hp, rfl⟩))

/-- Of a build file,
* the consulted paths are those that the commands of all tasks consulted in all calls, in order and
  without repetition, whatever became of the statements;
* there is a statement that writes the file again exactly if there is a consulted path;
* what this statement watches is in order and without repetition, and each path is made by a
  statement or there on disk;
* each consulted path is covered by a watched one, and a watched path covers some consulted one. -/
theorem consulted_paths_watched (h : assemble around settings steps = .ok file) :
    (∃ calls, (∀ gs, Calls around {} steps gs ↔ gs = calls) ∧
      file.gendeps = Path.sorted (calls.flatMap Generated.gendeps)) ∧
    (file.regenerate.isSome = true ↔ file.gendeps ≠ []) ∧
    ∀ rule s, file.regenerate = some (rule, s) →
      s.implicit.Pairwise (fun p q => compare p.components q.components = .lt) ∧
      (∀ q ∈ s.implicit, file.Has around.tree q) ∧
      (∀ p ∈ file.gendeps, ∃ q ∈ s.implicit, file.Covers around.tree p q) ∧
      ∀ q ∈ s.implicit, ∃ p ∈ file.gendeps, file.Covers around.tree p q := by
  obtain ⟨a, hsteps, hfinish⟩ := bind_eq_ok.1 h
  obtain ⟨m, hm, -, rfl⟩ := exists_over hsteps
  obtain ⟨rules, -, -, rfl⟩ := Assembly.finish_ok hfinish
  obtain ⟨calls, hcalls, hdeps⟩ := calls_of_foldlM hsteps
  let file := m.assembly.toFile around.tree settings rules
  have hcovers : ∀ p,
      file.Covers around.tree p (Assembly.watched around.tree m.assembly.state.outputs p) ∧
        file.Has around.tree (Assembly.watched around.tree m.assembly.state.outputs p) :=
    covers_watched fun p => hm.uniqueProducer.knows_iff
  refine ⟨⟨calls, fun gs => ⟨fun hgs => hgs.unique hcalls, fun hgs => hgs ▸ hcalls⟩, ?_⟩, ?_, ?_⟩
  · exact congrArg SortedBy.toList hdeps
  · rw [Assembly.toFile, Assembly.regeneration]
    cases hempty : m.assembly.state.gendeps.isEmpty with
    | true => exact ⟨nofun, fun hne => absurd (List.isEmpty_iff.1 hempty) hne⟩
    | false =>
      refine ⟨fun _ hnil => ?_, fun _ => rfl⟩
      rw [SortedBy.isEmpty, List.isEmpty_iff.2 hnil] at hempty
      cases hempty
  · intro rule s hs
    obtain ⟨watched, himplicit, hfrom, hto⟩ := regeneration_implicit hs
    rw [himplicit]
    refine ⟨watched.increasing, ?_, ?_, ?_⟩
    · intro q hq
      obtain ⟨p, hp, rfl⟩ := hfrom q hq
      exact (hcovers p).2
    · intro p hp
      obtain ⟨q, hq, hsame⟩ := hto p hp
      exact ⟨q, hq, (hcovers p).1.congr hsame⟩
    · intro q hq
      obtain ⟨p, hp, rfl⟩ := hfrom q hq
      exact ⟨p, hp, (hcovers p).1⟩

/-- A task that consults paths of all kinds: there, made, absent below a directory, and absent
below none. -/
def Task.consulting : Task where
  command := { name := "consult", rules := .ofPairs [("consult", .ofCommand "look ${out}")]
               action? := fun _ => none }
  action := fun _ _ _ => .ok ⟨[.build { rule := "consult", outputs := [⟨"out"⟩] }],
    [⟨"src/a.md"⟩, ⟨"out"⟩, ⟨"src/b/c.md"⟩, ⟨"none/d.md"⟩]⟩
  inputs := [⟨[.literal "start"], Pattern.readable_literal "start"⟩]
  builtInputsOnly := true

/-- A directory with one file. -/
def Tree.oneSource : Tree :=
  ((Tree.bare []).put ["src"] .directory).put ["src", "a.md"] (.file ByteArray.empty)

theorem consulted_paths_watched_kinds : ∃ file rule s,
    assemble ⟨.oneSource, none⟩ {} [.barrier "start", .build .consulting] = .ok file ∧
    file.gendeps = [⟨"none/d.md"⟩, ⟨"out"⟩, ⟨"src/a.md"⟩, ⟨"src/b/c.md"⟩] ∧
    file.regenerate = some (rule, s) ∧
    s.implicit = [⟨"."⟩, ⟨"out"⟩, ⟨"src"⟩, ⟨"src/a.md"⟩] ∧
    ∀ p ∈ file.gendeps, ∃ q ∈ s.implicit, file.Covers .oneSource p q := by
  have hout : (assemble ⟨.oneSource, none⟩ {} [.barrier "start", .build .consulting]).map
      (fun f => (f.gendeps, f.regenerate.map fun r => r.2.implicit)) =
        .ok ([⟨"none/d.md"⟩, ⟨"out"⟩, ⟨"src/a.md"⟩, ⟨"src/b/c.md"⟩],
          some [⟨"."⟩, ⟨"out"⟩, ⟨"src"⟩, ⟨"src/a.md"⟩]) := by decide +kernel
  obtain ⟨file, h, hout⟩ := map_eq_ok.1 hout
  obtain ⟨hdeps, hregenerate⟩ := Prod.mk.inj hout
  obtain ⟨⟨rule, s⟩, hs, himplicit⟩ := Option.map_eq_some_iff.1 hregenerate
  obtain ⟨-, -, hwatched⟩ := consulted_paths_watched h
  exact ⟨file, rule, s, h, hdeps, hs, himplicit, (hwatched rule s hs).2.2.1⟩

end DocGraph
