import DocGraph.Config.Loader
import DocGraph.Proofs.Outcome
import DocGraph.Proofs.Tree.Location
import Mathlib.Data.Fintype.Pigeonhole
import Mathlib.Data.Set.Finite.Basic
import Mathlib.Order.Interval.Set.Infinite
import Mathlib.Order.OrderIsoNat

/-!
# DocGraph.Proofs.Config.Loading

When the loading of configuration files comes to an end.

* `run_bind_eq_ok`, `run_mapM_eq_ok` — outcomes that may never come.
* `loadWith`       — one step of loading, and `loadDirectory_induct`, the induction over its steps.
* `loadWithin`     — loading up to some depth, which can be run.
* `Visit`          — a directory, and the scope above it. `Visit.Calls`: on the way through the
  entries of one, another is come to.
* `Visit.loadDirectory_ne_none_iff` — loading ends where calls do not go on for ever.
* `Visit.Endless.exists_location_again` — calls that do so come to the file at some location again
  and again.
* `endless_iff_circling` — the consequence for projects.
-/

namespace DocGraph

/-! ## Outcomes that may never come -/

section

variable {ε α β : Type}

theorem run_bind_eq_ok {x : ExceptT ε Option α} {f : α → ExceptT ε Option β} {b : β} :
    (x >>= f).run = some (.ok b) ↔ ∃ a, x.run = some (.ok a) ∧ (f a).run = some (.ok b) := by
  rw [ExceptT.run_bind]
  rcases x.run with _ | e | a
  · exact ⟨nofun, fun ⟨_, h, _⟩ => nomatch h⟩
  · exact ⟨nofun, fun ⟨_, h, _⟩ => nomatch h⟩
  · exact ⟨fun h => ⟨a, rfl, h⟩, fun ⟨_, h, hf⟩ => by cases h; exact hf⟩

theorem run_bind_eq_none {x : ExceptT ε Option α} {f : α → ExceptT ε Option β} :
    (x >>= f).run = none ↔ x.run = none ∨ ∃ a, x.run = some (.ok a) ∧ (f a).run = none := by
  rw [ExceptT.run_bind]
  rcases x.run with _ | e | a
  · exact ⟨fun _ => .inl rfl, fun _ => rfl⟩
  · exact ⟨nofun, fun h => by rcases h with h | ⟨_, h, _⟩ <;> cases h⟩
  · exact ⟨fun h => .inr ⟨a, rfl, h⟩, fun h => by rcases h with h | ⟨_, h, hf⟩ <;> cases h; exact hf⟩

theorem run_mapM_eq_ok {f : α → ExceptT ε Option β} {l : List α} {bs : List β} :
    (l.mapM f).run = some (.ok bs) ↔ List.Forall₂ (fun a b => (f a).run = some (.ok b)) l bs := by
  induction l generalizing bs with
  | nil =>
    constructor
    · rintro ⟨⟩
      exact .nil
    · rintro ⟨⟩
      rfl
  | cons a l ih =>
    rw [List.mapM_cons, run_bind_eq_ok]
    constructor
    · rintro ⟨b, hb, hrest⟩
      obtain ⟨bs', hbs, hpure⟩ := run_bind_eq_ok.1 hrest
      cases hpure
      exact .cons hb (ih.1 hbs)
    · rintro (_ | ⟨hb, hbs⟩)
      exact ⟨_, hb, run_bind_eq_ok.2 ⟨_, ih.2 hbs, rfl⟩⟩

theorem exists_of_run_mapM_eq_none {f : α → ExceptT ε Option β} {l : List α}
    (h : (l.mapM f).run = none) :
    ∃ before a after, l = before ++ a :: after ∧ (∀ c ∈ before, ∃ b, (f c).run = some (.ok b)) ∧
      (f a).run = none := by
  induction l with
  | nil => cases h
  | cons c l ih =>
    rw [List.mapM_cons, run_bind_eq_none] at h
    obtain hc | ⟨b, hc, hrest⟩ := h
    · exact ⟨[], c, l, rfl, nofun, hc⟩
    · obtain hl | ⟨_, -, hpure⟩ := run_bind_eq_none.1 hrest
      · obtain ⟨before, a, after, rfl, hbefore, ha⟩ := ih hl
        exact ⟨c :: before, a, after, rfl, List.forall_mem_cons.2 ⟨⟨b, hc⟩, hbefore⟩, ha⟩
      · cases hpure

/-- Whatever comes of the first comes of the second. -/
def Approximates (x y : ExceptT ε Option α) : Prop := ∀ r, x.run = some r → y.run = some r

theorem Approximates.refl (x : ExceptT ε Option α) : Approximates x x := fun _ h => h

theorem Approximates.bind {x y : ExceptT ε Option α} {f g : α → ExceptT ε Option β}
    (hxy : Approximates x y) (hfg : ∀ a, Approximates (f a) (g a)) :
    Approximates (x >>= f) (y >>= g) := by
  intro r h
  rw [ExceptT.run_bind] at h ⊢
  cases hx : x.run with
  | none =>
    rw [hx] at h
    cases h
  | some outcome =>
    rw [hx] at h
    rw [hxy outcome hx]
    cases outcome with
    | error e => exact h
    | ok a => exact hfg a r h

theorem Approximates.mapM {f g : α → ExceptT ε Option β} (h : ∀ a, Approximates (f a) (g a))
    (l : List α) : Approximates (l.mapM f) (l.mapM g) := by
  induction l with
  | nil => exact .refl _
  | cons a l ih =>
    rw [List.mapM_cons, List.mapM_cons]
    exact (h a).bind fun b => ih.bind fun bs => .refl _

theorem run_ne_none_of_mapM {f g : α → ExceptT ε Option β} (hfg : ∀ a, Approximates (f a) (g a))
    {before after : List α} {a : α} (h : ((before ++ a :: after).mapM f).run ≠ none)
    (hbefore : ∀ c ∈ before, ∃ b, (g c).run = some (.ok b)) : (f a).run ≠ none := by
  induction before with
  | nil =>
    intro ha
    rw [List.nil_append, List.mapM_cons] at h
    exact h (run_bind_eq_none.2 (.inl ha))
  | cons c before ih =>
    rw [List.forall_mem_cons] at hbefore
    obtain ⟨⟨b, hc⟩, hbefore⟩ := hbefore
    rw [List.cons_append, List.mapM_cons] at h
    refine ih ?_ hbefore
    intro hrest
    cases hfc : (f c).run with
    | none => exact h (run_bind_eq_none.2 (.inl hfc))
    | some outcome =>
      -- what comes of `c` is what goes well for `g`
      have hok : some outcome = some (.ok b) := (hfg c outcome hfc).symm.trans hc
      rw [hok] at hfc
      exact h (run_bind_eq_none.2 (.inr ⟨b, hfc, run_bind_eq_none.2 (.inl hrest)⟩))

end

theorem exists_again {α : Type} {f : ℕ → α} {l : List α} (h : ∀ n, f n ∈ l) :
    ∃ first, ∀ k, ∃ n, k ≤ n ∧ f n = f first := by
  have hfinite : Finite {a // a ∈ l} := l.finite_toSet.to_subtype
  let value (n : ℕ) : {a // a ∈ l} := ⟨f n, h n⟩
  obtain ⟨a, ha⟩ := Finite.exists_infinite_fiber value
  have hinfinite : (Set.preimage value {a}).Infinite := Set.infinite_coe_iff.1 ha
  obtain ⟨first, hfirst⟩ := hinfinite.nonempty
  refine ⟨first, fun k => ?_⟩
  obtain ⟨n, hn, hk⟩ := hinfinite.exists_gt k
  have hsame : value n = value first := hn.trans hfirst.symm
  exact ⟨n, hk.le, congrArg Subtype.val hsame⟩

/-! ## One step of loading -/

theorem run_inDirectory_ok {α : Type} {here : Path} {x : Except ConfigError α} {a : α} :
    (inDirectory here x).run = some (.ok a) ↔ x = .ok a := by
  rw [inDirectory, ExceptT.run_mk, Option.some_inj, mapError_eq_ok]

/-- What an entry declares in the scope of its directory, where `descend` loads directories. -/
def declareWith (descend : Descend) (scope : Scope) (here : Path) (v : Yaml.Value) :
    ExceptT ConfigError Option Loaded := do
  match ← inDirectory here (scope.declareEntry v) with
  | .steps steps => return { steps }
  | .directory dir => descend scope dir

/-- What a directory declares, where `descend` loads the directories in it. -/
def loadWith (p : Project) (t : Tree) (descend : Descend) (above : Scope) (here : Path) :
    ExceptT ConfigError Option Loaded := do
  let (scope, entries) ← inDirectory here (enterDirectory p t above here)
  let parts ← entries.mapM (declareWith descend scope here)
  return parts.foldl (· ++ ·) { kept := [scope.kept] }

variable {p : Project} {t : Tree}

theorem loadDirectory_eq (p : Project) (t : Tree) (above : Scope) (here : Path) :
    loadDirectory p t above here = (loadWith p t (loadDirectory p t) above here).run := by
  rw [loadDirectory.eq_def, loadWith]
  rfl

/-- What one step of loading keeps holds of everything that comes of loading. -/
theorem loadDirectory_induct {P : Scope → Path → Except ConfigError Loaded → Prop}
    (h : ∀ descend : Descend, (∀ above here r, descend above here = some r → P above here r) →
      ∀ above here r, (loadWith p t descend above here).run = some r → P above here r)
    {above : Scope} {here : Path} {r : Except ConfigError Loaded}
    (hr : loadDirectory p t above here = some r) : P above here r :=
  loadDirectory.partial_correctness p t P h above here r hr

/-- What an entry of a file declares. -/
def loadEntry (p : Project) (t : Tree) (scope : Scope) (here : Path) (v : Yaml.Value) :
    ExceptT ConfigError Option Loaded :=
  declareWith (loadDirectory p t) scope here v

theorem approximates_declareWith {descend descend' : Descend}
    (h : ∀ above here r, descend above here = some r → descend' above here = some r)
    (scope : Scope) (here : Path) (v : Yaml.Value) :
    Approximates (declareWith descend scope here v) (declareWith descend' scope here v) := by
  refine (Approximates.refl _).bind fun d => ?_
  cases d with
  | steps steps => exact .refl _
  | directory dir => exact h scope dir

theorem approximates_loadWith {descend descend' : Descend}
    (h : ∀ above here r, descend above here = some r → descend' above here = some r)
    (above : Scope) (here : Path) :
    Approximates (loadWith p t descend above here) (loadWith p t descend' above here) := by
  refine (Approximates.refl _).bind fun entered => ?_
  exact (Approximates.mapM (approximates_declareWith h entered.1 here) entered.2).bind fun _ =>
    .refl _

/-- Loading in which directories lie at most so deep in each other. -/
def loadWithin (p : Project) (t : Tree) : ℕ → Descend
  | 0 => fun _ _ => none
  | n + 1 => fun above here => (loadWith p t (loadWithin p t n) above here).run

theorem loadDirectory_of_loadWithin {n : ℕ} {above : Scope} {here : Path}
    {r : Except ConfigError Loaded} (h : loadWithin p t n above here = some r) :
    loadDirectory p t above here = some r := by
  induction n generalizing above here r with
  | zero => cases h
  | succ n ih =>
    rw [loadDirectory_eq]
    exact approximates_loadWith (fun _ _ _ h => ih h) above here r h

/-- A project of which something is found by loading up to some depth is loaded. -/
theorem load?_of_loadWithin {β : Type} {n : ℕ} {f : Loaded → β} {b : β}
    (h : ((loadWithin p t n Project.outside ⟨"."⟩).bind Except.toOption).map f = some b) :
    ∃ l, p.load? t = some (.ok l) ∧ f l = b := by
  obtain ⟨l, hl, hb⟩ := Option.map_eq_some_iff.1 h
  obtain ⟨r, hr, hok⟩ := Option.bind_eq_some_iff.1 hl
  cases r with
  | error e => cases hok
  | ok l' =>
    cases hok
    exact ⟨l, loadDirectory_of_loadWithin hr, hb⟩

/-! ## Visits -/

/-- A directory that is come to, and the scope above it. -/
structure Visit where
  above : Scope
  here : Path

namespace Visit

/-- On the way through the entries of one directory, another is come to. The entries in front have
gone well. -/
def Calls (p : Project) (t : Tree) (v w : Visit) : Prop :=
  ∃ before entry after, enterDirectory p t v.above v.here = .ok (w.above, before ++ entry :: after) ∧
    w.above.declareEntry entry = .ok (.directory w.here) ∧
    ∀ e ∈ before, ∃ l, (loadEntry p t w.above v.here e).run = some (.ok l)

/-- No endless chain of calls starts here. -/
def Ends (p : Project) (t : Tree) (v : Visit) : Prop := Acc (fun w v => Calls p t v w) v

theorem ends_of_loadDirectory {v : Visit} {r : Except ConfigError Loaded}
    (h : loadDirectory p t v.above v.here = some r) : v.Ends p t := by
  refine (loadDirectory_induct (P := fun above here r =>
    loadDirectory p t above here = some r ∧ Ends p t ⟨above, here⟩) ?_ h).2
  -- the calls of a step are those of loading because what comes of `descend` comes of loading
  intro descend hdescend above here r hr
  have happroximates : ∀ above here r, descend above here = some r →
      loadDirectory p t above here = some r := fun above here r h => (hdescend above here r h).1
  constructor
  · rw [loadDirectory_eq]
    exact approximates_loadWith happroximates above here r hr
  · refine .intro _ fun w hw => ?_
    obtain ⟨before, entry, after, henter, hentry, hbefore⟩ := hw
    have hentries :
        ((before ++ entry :: after).mapM (declareWith descend w.above here)).run ≠ none := by
      intro hnone
      have hload : (loadWith p t descend above here).run = none :=
        run_bind_eq_none.2 (.inr ⟨_, run_inDirectory_ok.2 henter,
          run_bind_eq_none.2 (.inl hnone)⟩)
      rw [hload] at hr
      cases hr
    have hdeclare : (declareWith descend w.above here entry).run ≠ none :=
      run_ne_none_of_mapM (approximates_declareWith happroximates w.above here) hentries hbefore
    cases hcalled : descend w.above w.here with
    | none =>
      have hnone : (declareWith descend w.above here entry).run = none := by
        rw [declareWith, run_bind_eq_none]
        exact .inr ⟨_, run_inDirectory_ok.2 hentry, hcalled⟩
      exact absurd hnone hdeclare
    | some outcome => exact (hdescend w.above w.here outcome hcalled).2

theorem exists_calls_of_none {v : Visit} (h : loadDirectory p t v.above v.here = none) :
    ∃ w, v.Calls p t w ∧ loadDirectory p t w.above w.here = none := by
  rw [loadDirectory_eq, loadWith, run_bind_eq_none] at h
  obtain h | ⟨⟨scope, entries⟩, henter, h⟩ := h
  · cases h
  · obtain h | ⟨parts, -, h⟩ := run_bind_eq_none.1 h
    · obtain ⟨before, entry, after, rfl, hbefore, hentry⟩ := exists_of_run_mapM_eq_none h
      rw [declareWith, run_bind_eq_none] at hentry
      obtain hentry | ⟨d, hd, hentry⟩ := hentry
      · cases hentry
      · cases d with
        | steps steps => cases hentry
        | directory dir =>
          exact ⟨⟨scope, dir⟩, ⟨before, entry, after, run_inDirectory_ok.1 henter,
            run_inDirectory_ok.1 hd, hbefore⟩, hentry⟩
    · cases h

theorem loadDirectory_ne_none_iff {v : Visit} :
    loadDirectory p t v.above v.here ≠ none ↔ v.Ends p t := by
  constructor
  · intro h
    obtain ⟨r, hr⟩ := Option.ne_none_iff_exists'.1 h
    exact ends_of_loadDirectory hr
  · intro h
    induction h with
    | intro v _ ih =>
      intro hnone
      obtain ⟨w, hw, hw'⟩ := exists_calls_of_none hnone
      exact ih w hw hw'

theorem loadDirectory_eq_none {S : Visit → Prop} (h : ∀ v, S v → ∃ w, v.Calls p t w ∧ S w) {v : Visit}
    (hv : S v) : loadDirectory p t v.above v.here = none := by
  by_contra hsome
  have hends : v.Ends p t := loadDirectory_ne_none_iff.1 hsome
  induction hends with
  | intro v _ ih =>
    obtain ⟨w, hw, hSw⟩ := h v hv
    have hcalled : loadDirectory p t w.above w.here ≠ none :=
      loadDirectory_ne_none_iff.2 ((loadDirectory_ne_none_iff.1 hsome).inv hw)
    exact ih w hw hSw hcalled

/-- Calls that go on for ever. -/
def Endless (p : Project) (t : Tree) (chain : ℕ → Visit) : Prop :=
  ∀ n, (chain n).Calls p t (chain (n + 1))

theorem not_ends_iff {v : Visit} : ¬v.Ends p t ↔ ∃ chain, chain 0 = v ∧ Endless p t chain := by
  rw [Ends, acc_iff_isEmpty_descending_chain, not_isEmpty_iff]
  constructor
  · rintro ⟨chain, hchain⟩
    exact ⟨chain, hchain⟩
  · rintro ⟨chain, hchain⟩
    exact ⟨chain, hchain⟩

/-- The configuration file of the directory. -/
def file (v : Visit) : Path := configPath v.here

/-- What calls has a file. -/
theorem Calls.exists_node {v w : Visit} (h : v.Calls p t w) :
    ∃ loc n, t.locate? v.file = some loc ∧ (loc, n) ∈ t.nodes := by
  obtain ⟨before, entry, after, henter, -⟩ := h
  obtain ⟨content, hread, -⟩ := bind_eq_ok.1 henter
  have hfile : (t.read? v.file).isSome := by
    refine Option.isSome_iff_ne_none.2 fun hnone => ?_
    rw [file] at hnone
    rw [ConfigFile.read, hnone] at hread
    cases hread
  obtain ⟨loc, n, hloc, hnode, -⟩ := Tree.exists_node_of_read? hfile
  exact ⟨loc, n, hloc, hnode⟩

/-- There are only finitely many files, so endless calls come to one of them again and again,
however it is named. -/
theorem Endless.exists_location_again {chain : ℕ → Visit} (h : Endless p t chain) :
    ∃ loc, ∀ k, ∃ n, k ≤ n ∧ t.locate? (chain n).file = some loc := by
  have hnodes : ∀ n, t.locate? (chain n).file ∈ t.nodes.toList.map fun e => some e.1 := by
    intro n
    obtain ⟨loc, node, hloc, hnode⟩ := (h n).exists_node
    exact List.mem_map.2 ⟨(loc, node), hnode, hloc.symm⟩
  obtain ⟨first, hagain⟩ := exists_again hnodes
  obtain ⟨loc, -, hloc, -⟩ := (h first).exists_node
  refine ⟨loc, fun k => ?_⟩
  obtain ⟨n, hn, hsame⟩ := hagain k
  exact ⟨n, hn, hsame.trans hloc⟩

/-- The working directory, where loading starts. -/
def first : Visit := ⟨Project.outside, ⟨"."⟩⟩

end Visit

theorem load?_eq_none_iff : p.load? t = none ↔ ¬Visit.first.Ends p t := by
  rw [← Visit.loadDirectory_ne_none_iff, not_not]
  rfl

/-- Loading never ends exactly if calls go on for ever from the working directory. Then the file at
one location is read again and again. -/
theorem endless_iff_circling (p : Project) (t : Tree) :
    p.load? t = none ↔ ∃ chain : ℕ → Visit, chain 0 = .first ∧ Visit.Endless p t chain ∧
      ∃ loc : Location, ∀ k, ∃ n, k ≤ n ∧ t.locate? (chain n).file = some loc := by
  rw [load?_eq_none_iff, Visit.not_ends_iff]
  constructor
  · rintro ⟨chain, hstart, hchain⟩
    exact ⟨chain, hstart, hchain, hchain.exists_location_again⟩
  · rintro ⟨chain, hstart, hchain, -⟩
    exact ⟨chain, hstart, hchain⟩

/-! ## A directory that names itself -/

/-- The directory that an entry names, as it is written. -/
def directoryOf? (v : Yaml.Value) : Option String :=
  match ConfigEntry.read? v with
  | some (.directory path) => some path
  | _ => none

theorem read?_of_directoryOf? {v : Yaml.Value} {path : String} (h : directoryOf? v = some path) :
    ConfigEntry.read? v = some (.directory path) := by
  rw [directoryOf?] at h
  split at h
  · next hread =>
    cases h
    exact hread
  · cases h

/-- A working directory whose only entry names itself. -/
def Tree.circle : Tree :=
  (Tree.bare ["project"]).put ["project", ConfigFile.name] (.file "tasks:\n- subdir: .\n".toUTF8)

theorem endless_circle : (⟨"/project", ∅, ∅⟩ : Project).load? .circle = none := by
  have hread : (ConfigFile.read .circle (configPath ⟨"."⟩)).map (fun f =>
      (f.imports, f.vars.length, f.tasks.map directoryOf?)) = .ok ([], 0, [some "."]) := by
    decide +kernel
  obtain ⟨file, hfile, hcontent⟩ := map_eq_ok.1 hread
  obtain ⟨himports, hrest⟩ := Prod.mk.inj hcontent
  obtain ⟨hvars, htasks⟩ := Prod.mk.inj hrest
  obtain ⟨entry, hentries, hentry⟩ := List.map_eq_singleton_iff.1 htasks
  -- the scope inside is that of every further visit
  let inner : Scope := ⟨⟨"."⟩, .ofPairs [("here", "."), ("root", "/project")], ∅⟩
  have hentered : ∀ above : Scope, above.commands = ∅ →
      Scope.variablesIn ⟨"/project", ∅, ∅⟩ ⟨"."⟩ above.vars [] = .ok inner.vars →
      enterDirectory ⟨"/project", ∅, ∅⟩ .circle above ⟨"."⟩ = .ok (inner, [entry]) := by
    intro above hcommands hscope
    refine bind_eq_ok.2 ⟨file, hfile, bind_eq_ok.2 ⟨inner, ?_, by rw [hentries]; rfl⟩⟩
    rw [Scope.enter, List.length_eq_zero_iff.1 hvars, hscope, himports, hcommands]
    rfl
  have hdeclare : inner.declareEntry entry = .ok (.directory ⟨"."⟩) := by
    have hresolve : BuildEntry.resolve inner.vars.lookup "." = .ok "." := by decide +kernel
    rw [Scope.declareEntry, read?_of_directoryOf? hentry]
    dsimp only
    rw [hresolve]
    rfl
  refine Visit.loadDirectory_eq_none (S := fun v => v.here = ⟨"."⟩ ∧ v.above.commands = ∅ ∧
    Scope.variablesIn ⟨"/project", ∅, ∅⟩ ⟨"."⟩ v.above.vars [] = .ok inner.vars) ?_
    (v := .first) ⟨rfl, rfl, by decide +kernel⟩
  rintro ⟨above, here⟩ ⟨rfl, hcommands, hscope⟩
  exact ⟨⟨inner, ⟨"."⟩⟩, ⟨[], entry, [], hentered above hcommands hscope, hdeclare, nofun⟩,
    rfl, rfl, by decide +kernel⟩

end DocGraph
