import DocGraph.Proofs.Graph.Addition
import DocGraph.Proofs.Graph.Cycle
import DocGraph.Proofs.Graph.Repetition
import DocGraph.Proofs.Graph.Rules
import DocGraph.Proofs.Task.Variation

/-!
# DocGraph.Proofs.Graph.Downgrade

The same steps with and without inputs that may be missing.

* `Step.strict`        — the step without such inputs. All of them must be there.
* `Emitted.Downgraded` — a statement stays as it is, or a placeholder takes its place.
* `Fate`               — an entry of the strict graph, and what becomes of it in the lenient one.
* `Relaxed`            — the strict and the lenient graph, both read off the fates of their entries.
* `Relaxed.addStep`    — they stay in this relation step by step.
* `downgrading_invisible` — the consequences for the build file.
-/

namespace DocGraph

/-- The task whose inputs must all be there. -/
def Task.strict (t : Task) : Task := t.forgiving []

def Step.strict : Step → Step
  | build t => .build t.strict
  | barrier name => .barrier name

/-! ## What a task generates -/

/-- What a task emits if all inputs must be there, and what it emits else. -/
inductive Emitted.Downgraded (t : Task) (tree : Tree) (known : PathSet) : Emitted → Emitted → Prop
    where
  | kept (e : Emitted) : Downgraded t tree known e e
  | replaced {s : Statement} (d : Bool) (hm : t.missingInputs tree known s ≠ []) :
      Downgraded t tree known (.build (t.complete s) d)
        (.build (Task.placeholder s (t.missingInputs tree known s)) false)

namespace Task

variable {t : Task} {around : Surroundings} {tree : Tree} {known : PathSet}

theorem postProcess_strict {s : Statement} {e : Emitted}
    (h : t.strict.postProcess tree known s = .ok e) :
    ∃ e', t.postProcess tree known s = .ok e' ∧ Emitted.Downgraded t tree known e e' := by
  obtain ⟨ho, s₁, hs₁, ⟨-, rfl⟩ | ⟨hm, -⟩⟩ := postProcess_ok h
  · refine ⟨_, postProcess_eq t tree known ho hs₁, ?_⟩
    split
    · exact .kept _
    · next hm =>
      exact .replaced _ hm
  · exact absurd (missingInputs_eq_nil rfl tree known s₁) hm

/-- A task goes through if it does so with all inputs, and emits the same or placeholders. -/
theorem generate_strict {out : TaskOutput} (h : t.strict.generate around known = .ok out) :
    ∃ out', t.generate around known = .ok out' ∧
      out.Related (Emitted.Downgraded t around.tree known) out' :=
  generate_related (t := t.strict) (l := t.ignoreMissing) (fun text => .kept (.comment text))
    (fun _ _ => postProcess_strict) rfl h

end Task

/-! ## The fates of entries -/

/-- What becomes of an entry of the graph if inputs may be missing. -/
inductive Fate where
  | kept (entry : Entry)
  /-- Some inputs of a statement of a task are missing. -/
  | replaced (task : Task) (statement : Statement) (missing : List Path)
  /-- A barrier does not wait for what takes part in no default build. -/
  | barrier (statement : Statement)

/-- Whether a path is none of some others. -/
def Path.isNoneOf (paths : List Path) (p : Path) : Bool := !paths.any fun o => decide (o.Same p)

namespace Fate

/-- The entry where all inputs must be there. -/
def strict : Fate → Entry
  | kept entry => entry
  | replaced task statement _ => .build (task.complete statement)
  | barrier statement => .build statement

/-- What becomes of it, where some outputs are those of placeholders. -/
def lenient (lost : List Path) : Fate → Entry
  | kept entry => entry
  | replaced _ statement missing => .build (Task.placeholder statement missing)
  | barrier statement =>
    .build { statement with inputs := statement.inputs.filter (Path.isNoneOf lost) }

/-- The outputs of the placeholder. -/
def lost : Fate → List Path
  | kept _ => []
  | replaced _ statement missing => (Task.placeholder statement missing).allOutputs
  | barrier _ => []

/-- Placeholders stand in for statements that lack an input, and only barriers lose inputs. -/
inductive Justified (around : Surroundings) (steps : List Step) : Fate → Prop where
  | kept (entry : Entry) : Justified around steps (kept entry)
  | replaced {t : Task} {s : Statement} {known : PathSet} (ht : .build t ∈ steps)
      (hm : t.missingInputs around.tree known s ≠ []) :
      Justified around steps (replaced t s (t.missingInputs around.tree known s))
  | barrier (a : Assembly) (name : String) :
      Justified around steps (barrier (a.barrierStatement name))

end Fate

/-- The outputs of all placeholders. -/
def lostOutputs (fates : List Fate) : List Path := fates.flatMap Fate.lost

theorem Path.isNoneOf_append {l m : List Path} {p : Path} :
    isNoneOf (l ++ m) p = (isNoneOf l p && isNoneOf m p) := by
  rw [isNoneOf, List.any_append, Bool.not_or, isNoneOf, isNoneOf]

theorem Path.isNoneOf_congr {l : List Path} {p q : Path} (h : p.components = q.components) :
    isNoneOf l p = isNoneOf l q := by
  simp only [isNoneOf, Path.Same, h]
  rfl

theorem Path.isNoneOf_eq_true {l : List Path} {p : Path} :
    isNoneOf l p = true ↔ ∀ o ∈ l, ¬o.Same p := by
  simp [isNoneOf]

/-! ## The two graphs -/

namespace Assembly

/-- The graph where all inputs must be there, and the one where some may be missing. -/
structure Relaxed (around : Surroundings) (steps : List Step) (fates : List Fate)
    (a b : Assembly) : Prop where
  outputs_eq : b.state.outputs = a.state.outputs
  gendeps_eq : b.state.gendeps = a.state.gendeps
  rules_eq : b.rules = a.rules
  pools_eq : b.pools = a.pools
  barriers_eq : b.barriers = a.barriers
  strict : a.entries = fates.map Fate.strict
  lenient : b.entries = fates.map (Fate.lenient (lostOutputs fates))
  defaults_eq : b.state.defaults = a.state.defaults.filter (Path.isNoneOf (lostOutputs fates))
  justified : ∀ x ∈ fates, x.Justified around steps
  lost : ∀ p ∈ lostOutputs fates, a.state.knows p = true
  held : ∀ s, .barrier s ∈ fates → ∀ p ∈ s.inputs, a.state.knows p = true
  defaults : ∀ p ∈ a.state.defaults, a.state.knows p = true

variable {around : Surroundings} {steps : List Step} {fates : List Fate} {a b a' : Assembly}

theorem Relaxed.start (around : Surroundings) (steps : List Step) :
    Relaxed around steps [] {} {} := by
  refine ⟨rfl, rfl, rfl, rfl, rfl, rfl, rfl, rfl, nofun, nofun, nofun, nofun⟩

theorem Relaxed.knows_eq (h : Relaxed around steps fates a b) (p : Path) :
    b.state.knows p = a.state.knows p := by
  rw [GraphState.knows, GraphState.knows, h.outputs_eq]

/-- Lost outputs that are new are not among known paths. -/
theorem isNoneOf_append_of_knows {lost new : List Path}
    (hnew : ∀ p ∈ new, a.state.knows p = false) {p : Path} (hp : a.state.knows p = true) :
    Path.isNoneOf (lost ++ new) p = Path.isNoneOf lost p := by
  have hnone : Path.isNoneOf new p = true := by
    rw [Path.isNoneOf_eq_true]
    intro o ho hsame
    rw [GraphState.knows_congr hsame.symm, hnew o ho] at hp
    cases hp
  rw [Path.isNoneOf_append, hnone, Bool.and_true]

/-- Outputs that get lost later change nothing for entries that are there. -/
theorem Relaxed.lenient_append (h : Relaxed around steps fates a b) {new : List Path}
    (hnew : ∀ p ∈ new, a.state.knows p = false) :
    fates.map (Fate.lenient (lostOutputs fates ++ new)) =
      fates.map (Fate.lenient (lostOutputs fates)) := by
  refine List.map_congr_left fun x hx => ?_
  cases x with
  | kept entry => rfl
  | replaced t s missing => rfl
  | barrier s =>
    have hfilter : s.inputs.filter (Path.isNoneOf (lostOutputs fates ++ new)) =
        s.inputs.filter (Path.isNoneOf (lostOutputs fates)) :=
      List.filter_congr fun p hp => isNoneOf_append_of_knows hnew (h.held s hx p hp)
    rw [Fate.lenient, Fate.lenient, hfilter]

/-- The graph with one more entry. -/
def push (a : Assembly) (outputs : List Path) (defaults : PathSet) (entry : Entry)
    (barriers : TextSet) : Assembly :=
  { a with
    state := { a.state with outputs := a.state.outputs.insertMany outputs, defaults := defaults }
    entries := a.entries ++ [entry]
    barriers := barriers }

theorem knows_push {outputs : List Path} {defaults : PathSet} {entry : Entry} {barriers : TextSet}
    {p : Path} : (a.push outputs defaults entry barriers).state.knows p = true ↔
      a.state.knows p = true ∨ ∃ o ∈ outputs, o.components = p.components :=
  SortedBy.contains_insertMany

theorem lostOutputs_concat (fates : List Fate) (x : Fate) :
    lostOutputs (fates ++ [x]) = lostOutputs fates ++ x.lost := by
  rw [lostOutputs, List.flatMap_append, List.flatMap_singleton, lostOutputs]

/-- One more entry, which the strict and the lenient graph have each in its own way. -/
theorem Relaxed.push (h : Relaxed around steps fates a b) {x : Fate} (outputs : List Path)
    (defaults : PathSet) (barriers : TextSet) (hx : x.Justified around steps)
    (hlost : ∀ p ∈ x.lost, p ∈ outputs ∧ a.state.knows p = false)
    (hheld : ∀ s, x = .barrier s → ∀ p ∈ s.inputs, a.state.knows p = true)
    (hdefaults : ∀ p ∈ defaults, a.state.knows p = true ∨ p ∈ outputs) :
    Relaxed around steps (fates ++ [x]) (a.push outputs defaults x.strict barriers)
      (b.push outputs (defaults.filter (Path.isNoneOf (lostOutputs fates ++ x.lost)))
        (x.lenient (lostOutputs fates)) barriers) := by
  have hkept : ∀ p, a.state.knows p = true →
      (a.push outputs defaults x.strict barriers).state.knows p = true := fun p hp =>
    knows_push.2 (.inl hp)
  have hlater : x.lenient (lostOutputs fates ++ x.lost) = x.lenient (lostOutputs fates) := by
    cases x with
    | kept entry => rfl
    | replaced t s missing => rfl
    | barrier s => rw [Fate.lost, List.append_nil]
  refine ⟨?_, h.gendeps_eq, h.rules_eq, h.pools_eq, rfl, ?_, ?_, ?_, ?_, ?_, ?_, ?_⟩
  · exact congrArg (fun s => SortedBy.insertMany s outputs) h.outputs_eq
  · rw [List.map_append, ← h.strict]
    rfl
  · rw [List.map_append, lostOutputs_concat, h.lenient_append fun p hp => (hlost p hp).2,
      ← h.lenient, List.map_singleton, hlater]
    rfl
  · rw [lostOutputs_concat]
    rfl
  · intro y hy
    rcases List.mem_append.1 hy with hy | hy
    · exact h.justified y hy
    · rw [List.mem_singleton.1 hy]
      exact hx
  · intro p hp
    rw [lostOutputs_concat] at hp
    rcases List.mem_append.1 hp with hp | hp
    · exact hkept p (h.lost p hp)
    · exact knows_push.2 (.inr ⟨p, (hlost p hp).1, rfl⟩)
  · intro s hs p hp
    rcases List.mem_append.1 hs with hs | hs
    · exact hkept p (h.held s hs p hp)
    · exact hkept p (hheld s (List.mem_singleton.1 hs).symm p hp)
  · intro p hp
    rcases hdefaults p hp with hp | hp
    · exact hkept p hp
    · exact knows_push.2 (.inr ⟨p, hp, rfl⟩)

/-- The graph with one more statement that makes nothing known. -/
def taking (a : Assembly) (s : Statement) (d : Bool) : Assembly :=
  a.push s.allOutputs (a.state.defaults.insertMany (if d then s.outputs else [])) (.build s)
    a.barriers

theorem accept_eq_taking (a : Assembly) (s : Statement) (d : Bool) :
    a.accept { a.state with outputs := a.state.outputs.insertMany s.allOutputs } s d =
      a.taking s d := by
  cases d with
  | false => rfl
  | true => rfl

theorem addEmitted_of_fresh {s : Statement} (d : Bool)
    (hfresh : ∀ p ∈ s.allOutputs, a.state.knows p = false) :
    a.addEmitted (.build s d) = .ok (a.taking s d) := by
  rw [addEmitted_accepted (GraphState.claim_of_fresh hfresh), accept_eq_taking]

/-- Some outputs are known already, and none of the new ones is lost. -/
theorem Relaxed.filter_defaults (h : Relaxed around steps fates a b) {new outputs : List Path}
    (hnew : ∀ p ∈ new, a.state.knows p = false) :
    (a.state.defaults.insertMany outputs).filter (Path.isNoneOf (lostOutputs fates ++ new)) =
      b.state.defaults.insertMany
        (outputs.filter (Path.isNoneOf (lostOutputs fates ++ new))) := by
  have hold : a.state.defaults.filter (Path.isNoneOf (lostOutputs fates ++ new)) =
      b.state.defaults := by
    rw [h.defaults_eq]
    refine SortedBy.ext_mem fun p => ?_
    rw [SortedBy.mem_filter, SortedBy.mem_filter]
    refine and_congr_right fun hp => ?_
    rw [isNoneOf_append_of_knows hnew (h.defaults p hp)]
  rw [SortedBy.filter_insertMany (fun _ _ => Path.isNoneOf_congr), hold]

/-- One more comment or statement of a task. -/
theorem Relaxed.extend (h : Relaxed around steps fates a b) {x : Fate} (outputs added : List Path)
    (hx : x.Justified around steps) (hlost : ∀ p ∈ x.lost, p ∈ outputs ∧ a.state.knows p = false)
    (htask : ∀ s, x ≠ .barrier s) (hadded : ∀ p ∈ added, p ∈ outputs) :
    Relaxed around steps (fates ++ [x])
      (a.push outputs (a.state.defaults.insertMany added) x.strict a.barriers)
      (b.push outputs (b.state.defaults.insertMany
          (added.filter (Path.isNoneOf (lostOutputs fates ++ x.lost))))
        (x.lenient (lostOutputs fates)) b.barriers) := by
  rw [← h.filter_defaults fun p hp => (hlost p hp).2, h.barriers_eq]
  refine h.push outputs _ a.barriers hx hlost (fun s hs => absurd hs (htask s)) fun p hp => ?_
  exact (SortedBy.mem_of_mem_insertMany hp).imp (h.defaults p) (hadded p)

theorem Relaxed.taking_kept (h : Relaxed around steps fates a b) {s : Statement} (d : Bool)
    (hfresh : ∀ p ∈ s.allOutputs, a.state.knows p = false) :
    Relaxed around steps (fates ++ [.kept (.build s)]) (a.taking s d) (b.taking s d) := by
  have hadded : ∀ p ∈ (if d then s.outputs else []), p ∈ s.allOutputs := by
    cases d with
    | false => exact nofun
    | true => exact fun p hp => List.mem_append_left _ hp
  have hfilter : (if d then s.outputs else []).filter
      (Path.isNoneOf (lostOutputs fates ++ (Fate.kept (.build s)).lost)) =
        if d then s.outputs else [] := by
    refine List.filter_eq_self.2 fun p hp => ?_
    rw [Fate.lost, List.append_nil, Path.isNoneOf_eq_true]
    intro o ho hsame
    have hknown := h.lost o ho
    rw [GraphState.knows_congr hsame, hfresh p (hadded p hp)] at hknown
    cases hknown
  have hextend := h.extend (x := .kept (.build s)) s.allOutputs _ (.kept _) nofun nofun hadded
  rw [hfilter] at hextend
  exact hextend

theorem Relaxed.taking_replaced (h : Relaxed around steps fates a b) {t : Task}
    (ht : .build t ∈ steps) {known : PathSet} {s : Statement} (d : Bool)
    (hm : t.missingInputs around.tree known s ≠ [])
    (hfresh : ∀ p ∈ (t.complete s).allOutputs, a.state.knows p = false) :
    Relaxed around steps (fates ++ [.replaced t s (t.missingInputs around.tree known s)])
      (a.taking (t.complete s) d)
      (b.taking (Task.placeholder s (t.missingInputs around.tree known s)) false) := by
  let x : Fate := .replaced t s (t.missingInputs around.tree known s)
  have hlost : x.lost = (t.complete s).allOutputs := (Task.allOutputs_complete t s).symm
  have hadded : ∀ p ∈ (if d then (t.complete s).outputs else []), p ∈ (t.complete s).allOutputs := by
    cases d with
    | false => exact nofun
    | true => exact fun p hp => List.mem_append_left _ hp
  have hfilter : (if d then (t.complete s).outputs else []).filter
      (Path.isNoneOf (lostOutputs fates ++ x.lost)) = [] := by
    refine List.filter_eq_nil_iff.2 fun p hp hnone => ?_
    rw [Path.isNoneOf_append, hlost, Bool.and_eq_true, Path.isNoneOf_eq_true,
      Path.isNoneOf_eq_true] at hnone
    exact hnone.2 p (hadded p hp) rfl
  have hextend := h.extend (x := x) (t.complete s).allOutputs _ (.replaced ht hm)
    (fun p hp => ⟨hlost ▸ hp, hfresh p (hlost ▸ hp)⟩) nofun hadded
  rw [hfilter] at hextend
  rw [taking, taking, Task.allOutputs_placeholder, ← Task.allOutputs_complete t s]
  exact hextend

/-- What the strict graph takes or drops, the lenient one does too, be it as a placeholder. -/
theorem Relaxed.addEmitted (h : Relaxed around steps fates a b) {t : Task} (ht : .build t ∈ steps)
    {known : PathSet} {e e' : Emitted} (he : Emitted.Downgraded t around.tree known e e')
    (ha : a.addEmitted e = .ok a') :
    ∃ fates' b', b.addEmitted e' = .ok b' ∧ Relaxed around steps fates' a' b' := by
  rcases addEmitted_ok ha with
    ⟨text, rfl, rfl⟩ | ⟨s, d, state, rfl, hc, rfl⟩ | ⟨s, d, rfl, hc, rfl⟩
  · cases he
    exact ⟨_, _, rfl, h.extend (x := .kept (.comment text)) [] [] (.kept _) nofun nofun nofun⟩
  · obtain ⟨hfresh, rfl⟩ := GraphState.claim_accepted hc
    have hfresh' : ∀ p ∈ s.allOutputs, b.state.knows p = false := fun p hp =>
      (h.knows_eq p).trans (hfresh p hp)
    rw [accept_eq_taking]
    cases he with
    | kept => exact ⟨_, _, addEmitted_of_fresh d hfresh', h.taking_kept d hfresh⟩
    | replaced _ hm =>
      rw [Task.allOutputs_complete] at hfresh'
      exact ⟨_, _, addEmitted_of_fresh false hfresh', h.taking_replaced ht d hm hfresh⟩
  · have hdrop : ∀ {s' d'}, s'.allOutputs = s.allOutputs →
        b.addEmitted (.build s' d') = .ok b := by
      intro s' d' hs'
      refine addEmitted_duplicate (GraphState.claim_of_known ?_ fun p hp => ?_)
      · rw [hs']
        exact GraphState.outputs_ne_nil_of_duplicate hc
      · rw [hs'] at hp
        exact (h.knows_eq p).trans (GraphState.claim_duplicate hc p hp)
    cases he with
    | kept => exact ⟨fates, b, hdrop rfl, h⟩
    | @replaced s _ hm => exact ⟨fates, b, hdrop (Task.allOutputs_complete t s).symm, h⟩

theorem Relaxed.addEmitteds (h : Relaxed around steps fates a b) {t : Task} (ht : .build t ∈ steps)
    {known : PathSet} {es es' : List Emitted}
    (hes : List.Forall₂ (Emitted.Downgraded t around.tree known) es es')
    (ha : es.foldlM Assembly.addEmitted a = .ok a') :
    ∃ fates' b', es'.foldlM Assembly.addEmitted b = .ok b' ∧
      Relaxed around steps fates' a' b' := by
  induction hes generalizing fates a b with
  | nil =>
    cases ha
    exact ⟨fates, b, rfl, h⟩
  | cons he _ ih =>
    obtain ⟨a₁, hfirst, hrest⟩ := foldlM_cons_ok.1 ha
    obtain ⟨fates₁, b₁, hb₁, h₁⟩ := h.addEmitted ht he hfirst
    obtain ⟨fates', b', hb', h'⟩ := ih h₁ hrest
    exact ⟨fates', b', foldlM_cons_ok.2 ⟨b₁, hb₁, hb'⟩, h'⟩

/-! ## Steps -/

theorem Relaxed.serving (h : Relaxed around steps fates a b) (c : Command) :
    Relaxed around steps fates (a.serving c) (b.serving c) :=
  { h with
    rules_eq := congrArg (fun r => SortedBy.union r c.rules) h.rules_eq
    pools_eq := congrArg (fun p => SortedBy.union p c.ownPools) h.pools_eq }

theorem Relaxed.consult (h : Relaxed around steps fates a b) (paths : List Path) :
    Relaxed around steps fates (a.consult paths) (b.consult paths) :=
  { h with gendeps_eq := congrArg (fun g => SortedBy.insertMany g paths) h.gendeps_eq }

theorem Relaxed.addTask (h : Relaxed around steps fates a b) {t : Task} (ht : .build t ∈ steps)
    (ha : a.addTask around t.strict = .ok a') :
    ∃ fates' b', b.addTask around t = .ok b' ∧ Relaxed around steps fates' a' b' := by
  obtain ⟨⟨a₁, out⟩, hopen, ha⟩ := bind_eq_ok.1 ha
  obtain ⟨a₂, hadd, ha⟩ := bind_eq_ok.1 ha
  cases ha
  have ho := opened_of_openTask hopen
  obtain ⟨hsuits, rfl⟩ := registerCommand_iff.1 ho.registered
  obtain ⟨out', hout', hrelated⟩ := Task.generate_strict ho.generated
  have hsuits' : b.Suits t.command := by
    refine ⟨?_, ?_⟩
    · rw [h.rules_eq]
      exact hsuits.rules
    · rw [h.pools_eq]
      exact hsuits.pools
  have hopen' : b.openTask around t = .ok (b.serving t.command, out') := by
    refine openTask_of (fun n hn => ?_) (registerCommand_iff.2 ⟨hsuits', rfl⟩) ?_
    · rw [h.barriers_eq]
      exact ho.declared n hn
    · rw [show (b.serving t.command).state.outputs = a.state.outputs from h.outputs_eq]
      exact hout'
  obtain ⟨fates', b₂, hadd', h₂⟩ := (h.serving t.command).addEmitteds ht hrelated.emitted hadd
  refine ⟨fates', b₂.consult out'.gendeps, ?_, ?_⟩
  · rw [Assembly.addTask, hopen', ok_bind]
    simp only [hadd', ok_bind]
    rfl
  · rw [hrelated.gendeps_eq]
    exact h₂.consult out.gendeps

theorem withBarrier_eq_push (a : Assembly) (name : String) : a.withBarrier name =
    ({ a with entries := a.entries ++ [.comment ("barrier: " ++ name)] } : Assembly).push [⟨name⟩]
      ((∅ : PathSet).insertMany [⟨name⟩]) (.build (a.barrierStatement name))
      (a.barriers.insert name) := by
  simp only [withBarrier, push, List.append_assoc]
  rfl

theorem Relaxed.withBarrier (h : Relaxed around steps fates a b) {name : String}
    (hfresh : a.state.knows ⟨name⟩ = false) :
    ∃ fates', Relaxed around steps fates' (a.withBarrier name) (b.withBarrier name) := by
  have hcomment : Relaxed around steps (fates ++ [.kept (.comment ("barrier: " ++ name))])
      { a with entries := a.entries ++ [.comment ("barrier: " ++ name)] }
      { b with entries := b.entries ++ [.comment ("barrier: " ++ name)] } :=
    h.extend (x := .kept (.comment ("barrier: " ++ name))) [] [] (.kept _) nofun nofun nofun
  have hbarrier := hcomment.push (x := .barrier (a.barrierStatement name)) [⟨name⟩]
    ((∅ : PathSet).insertMany [⟨name⟩]) (a.barriers.insert name) (.barrier a name) nofun
    (fun s hs p hp => by cases hs; exact h.defaults p hp)
    (fun p hp => (SortedBy.mem_of_mem_insertMany hp).imp nofun id)
  rw [lostOutputs_concat, Fate.lost, Fate.lost, List.append_nil, List.append_nil,
    SortedBy.filter_insertMany (fun _ _ => Path.isNoneOf_congr)] at hbarrier
  have hnone : Path.isNoneOf (lostOutputs fates) ⟨name⟩ = true := by
    rw [Path.isNoneOf_eq_true]
    intro o ho hsame
    have hknown := h.lost o ho
    rw [GraphState.knows_congr hsame, hfresh] at hknown
    cases hknown
  rw [List.filter_cons_of_pos hnone, List.filter_nil] at hbarrier
  have hstatement : { a.barrierStatement name with
      inputs := a.state.defaults.toList.filter (Path.isNoneOf (lostOutputs fates)) } =
        b.barrierStatement name := by
    rw [barrierStatement, barrierStatement, h.defaults_eq]
    rfl
  rw [withBarrier_eq_push, withBarrier_eq_push, ← hstatement, h.barriers_eq]
  exact ⟨_, hbarrier⟩

/-- One step more. -/
theorem Relaxed.addStep (h : Relaxed around steps fates a b) {step : Step} (hstep : step ∈ steps)
    (ha : a.addStep around step.strict = .ok a') :
    ∃ fates' b', b.addStep around step = .ok b' ∧ Relaxed around steps fates' a' b' := by
  cases step with
  | build t => exact h.addTask hstep ha
  | barrier name =>
    obtain ⟨hfresh, rfl⟩ := addBarrier_ok ha
    obtain ⟨fates', h'⟩ := h.withBarrier hfresh
    exact ⟨fates', _, addBarrier_of_fresh ((h.knows_eq _).trans hfresh), h'⟩

theorem Relaxed.foldlM_addStep {rest : List Step} (h : Relaxed around steps fates a b)
    (hrest : ∀ step ∈ rest, step ∈ steps)
    (ha : (rest.map Step.strict).foldlM (Assembly.addStep around) a = .ok a') :
    ∃ fates' b', rest.foldlM (Assembly.addStep around) b = .ok b' ∧
      Relaxed around steps fates' a' b' := by
  induction rest generalizing fates a b with
  | nil =>
    cases ha
    exact ⟨fates, b, rfl, h⟩
  | cons step rest ih =>
    rw [List.map_cons, foldlM_cons_ok] at ha
    obtain ⟨a₁, hfirst, ha⟩ := ha
    obtain ⟨fates₁, b₁, hb₁, h₁⟩ := h.addStep (hrest step List.mem_cons_self) hfirst
    obtain ⟨fates', b', hb', h'⟩ := ih h₁ (fun s hs => hrest s (List.mem_cons_of_mem _ hs)) ha
    exact ⟨fates', b', foldlM_cons_ok.2 ⟨b₁, hb₁, hb'⟩, h'⟩

/-! ## The build file -/

end Assembly

/-- The same comment, or statements with the same outputs. -/
inductive Entry.MakesSame : Entry → Entry → Prop where
  | comment (text : String) : MakesSame (.comment text) (.comment text)
  | build {s s' : Statement} (houtputs : s.outputs = s'.outputs)
      (himplicit : s.implicitOutputs = s'.implicitOutputs) : MakesSame (.build s) (.build s')

theorem Task.allInputs_placeholder (s : Statement) (missing : List Path) :
    (placeholder s missing).allInputs = [] := by
  rw [placeholder, Statement.tidy, Statement.allInputs]
  rfl

namespace Fate

/-- Placeholders and barriers make what they stand in for. -/
theorem makesSame (lost : List Path) (x : Fate) : (x.lenient lost).MakesSame x.strict := by
  cases x with
  | kept entry =>
    cases entry with
    | comment text => exact .comment text
    | build s => exact .build rfl rfl
  | replaced t s missing =>
    refine .build (Task.complete_outputs t s).symm ?_
    obtain ⟨_, _, hcomplete⟩ := t.complete_eq s
    rw [hcomplete]
    rfl
  | barrier s => exact .build rfl rfl

/-- What a statement waits for in the lenient graph, it waits for in the strict one. -/
theorem exists_strict {lost : List Path} {x : Fate} {s : Statement}
    (hs : (x.lenient lost).statement? = some s) :
    ∃ s', x.strict.statement? = some s' ∧ s'.allOutputs = s.allOutputs ∧
      ∀ p ∈ s.allInputs, p ∈ s'.allInputs := by
  cases x with
  | kept entry => exact ⟨s, hs, rfl, fun _ hp => hp⟩
  | replaced t s₁ missing =>
    cases hs
    refine ⟨_, rfl, Task.allOutputs_complete t s₁, ?_⟩
    rw [Task.allInputs_placeholder]
    exact nofun
  | barrier s₁ =>
    cases hs
    refine ⟨s₁, rfl, rfl, fun p hp => ?_⟩
    simp only [Statement.allInputs, List.mem_append, List.mem_filter] at hp ⊢
    exact hp.imp_left (Or.imp_left And.left)

end Fate

namespace Assembly

variable {around : Surroundings} {steps : List Step} {fates : List Fate} {a b : Assembly}

theorem Relaxed.acyclic (h : Relaxed around steps fates a b)
    (hacyclic : ¬∃ r, Graph.OnCycle a.builds r) : Graph.onCycle? b.builds = none := by
  refine Graph.onCycle?_of_acyclic Digraph.correct_toposort ?_
  rintro ⟨r, hr⟩
  refine hacyclic (hr.exists_of_covered fun s hs => ?_)
  rw [builds, h.lenient, List.filterMap_map, List.mem_filterMap] at hs
  obtain ⟨x, hx, hs⟩ := hs
  obtain ⟨s', hs', hcovered⟩ := Fate.exists_strict hs
  refine ⟨s', ?_, hcovered⟩
  rw [builds, h.strict, List.filterMap_map, List.mem_filterMap]
  exact ⟨x, hx, hs'⟩

end Assembly

/-- If commands use their own rules, and steps go through with all inputs there, they go through where
some may be missing, and the rest of the graph does not notice:
* before each step the same outputs are known;
* entries make the same one by one, and the same paths were consulted;
* an entry is the same unless it is a placeholder for a statement that lacks inputs, or a barrier. What
  a barrier waits for, and what is built by default, lacks the outputs of placeholders and nothing
  else. -/
theorem downgrading_invisible {around : Surroundings} {settings : Settings} {steps : List Step}
    {g : BuildFile} (hrules : ∀ t, .build t ∈ steps → t.UsesOwnRules around)
    (h : assemble around settings (steps.map Step.strict) = .ok g) :
    ∃ f, assemble around settings steps = .ok f ∧
      (∀ first rest, steps = first ++ rest →
        ∃ a b, (first.map Step.strict).foldlM (Assembly.addStep around) {} = .ok a ∧
          first.foldlM (Assembly.addStep around) {} = .ok b ∧ b.state.outputs = a.state.outputs) ∧
      List.Forall₂ Entry.MakesSame f.entries g.entries ∧
      f.gendeps = g.gendeps ∧
      ∃ fates, (∀ x ∈ fates, x.Justified around steps) ∧
        g.entries = fates.map Fate.strict ∧
        f.entries = fates.map (Fate.lenient (lostOutputs fates)) ∧
        f.defaults = g.defaults.filter (Path.isNoneOf (lostOutputs fates)) := by
  obtain ⟨a, ha, hg⟩ := bind_eq_ok.1 h
  have hacyclic := Assembly.acyclic_of_finish Digraph.correct_toposort ha hg
  obtain ⟨rules, -, -, rfl⟩ := Assembly.finish_ok hg
  obtain ⟨fates, b, hb, hrelaxed⟩ :=
    (Assembly.Relaxed.start around steps).foldlM_addStep (fun _ hs => hs) ha
  obtain ⟨rules', hrules'⟩ :=
    (Assembly.resolving_of_foldlM hrules Assembly.resolving_empty hb).exists_rules
  have hf : b.finish around.tree settings = .ok (b.toFile around.tree settings rules') :=
    Assembly.finish_of_acyclic hrules' (hrelaxed.acyclic hacyclic)
  refine ⟨_, bind_eq_ok.2 ⟨b, hb, hf⟩, ?_, ?_, ?_, fates, hrelaxed.justified, hrelaxed.strict,
    hrelaxed.lenient, ?_⟩
  · intro first rest hsplit
    rw [hsplit, List.map_append, foldlM_append_ok] at ha
    obtain ⟨a₁, hfirst, -⟩ := ha
    have hmem : ∀ step ∈ first, step ∈ steps := by
      intro step hs
      rw [hsplit]
      exact List.mem_append_left _ hs
    obtain ⟨_, b₁, hb₁, h₁⟩ := (Assembly.Relaxed.start around steps).foldlM_addStep hmem hfirst
    exact ⟨a₁, b₁, hfirst, hb₁, h₁.outputs_eq⟩
  · rw [Assembly.toFile, Assembly.toFile, hrelaxed.strict, hrelaxed.lenient,
      List.forall₂_map_left_iff, List.forall₂_map_right_iff, List.forall₂_same]
    exact fun x _ => x.makesSame _
  · exact congrArg SortedBy.toList hrelaxed.gendeps_eq
  · exact congrArg SortedBy.toList hrelaxed.defaults_eq

theorem Task.usesOwnRules_lenient (around : Surroundings) : Task.lenient.UsesOwnRules around := by
  intro inputs outputs g hg s hs
  cases hg
  cases List.mem_singleton.1 hs
  have hturn : (Task.lenient.command.rules.get? "turn").isSome = true := by decide +kernel
  exact .inr (Option.isSome_iff_exists.1 hturn)

theorem downgrading_invisible_lenient : ∃ f g,
    assemble ⟨.sources, none⟩ {} [.build .lenient, .barrier "hold"] = .ok f ∧
    assemble ⟨.sources, none⟩ {} ([.build .lenient, .barrier "hold"].map Step.strict) = .ok g ∧
    List.Forall₂ Entry.MakesSame f.entries g.entries ∧
    (f.builds.map fun s => (s.rule, s.inputs)) = [(Rule.errorMissing, []), (Rule.phony, [])] ∧
    (g.builds.map fun s => (s.rule, s.inputs)) =
      [("turn", [⟨"a.md"⟩]), (Rule.phony, [⟨"b.txt"⟩])] := by
  have hstrict : (assemble ⟨.sources, none⟩ {}
      ([.build .lenient, .barrier "hold"].map Step.strict)).map
        (fun g => g.builds.map fun s => (s.rule, s.inputs)) =
          .ok [("turn", [⟨"a.md"⟩]), (Rule.phony, [⟨"b.txt"⟩])] := by decide +kernel
  have hlenient : (assemble ⟨.sources, none⟩ {} [.build .lenient, .barrier "hold"]).map
      (fun f => f.builds.map fun s => (s.rule, s.inputs)) =
        .ok [(Rule.errorMissing, []), (Rule.phony, [])] := by decide +kernel
  obtain ⟨g, hg, hbuilds⟩ := map_eq_ok.1 hstrict
  have hrules : ∀ t, .build t ∈ [Step.build .lenient, .barrier "hold"] →
      t.UsesOwnRules ⟨.sources, none⟩ := by
    intro t ht
    rcases List.mem_cons.1 ht with h | h
    · cases h
      exact Task.usesOwnRules_lenient _
    · cases List.mem_singleton.1 h
  obtain ⟨f, hf, -, hsame, -⟩ := downgrading_invisible hrules hg
  rw [hf] at hlenient
  exact ⟨f, g, hf, hg, hsame, Except.ok.inj hlenient, hbuilds⟩

end DocGraph
