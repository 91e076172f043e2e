import DocGraph.Graph.Assembly
import DocGraph.Proofs.Graph.Claim
import DocGraph.Proofs.Task.Emission

/-!
# DocGraph.Proofs.Graph.Run

The run of a list of steps, one statement at a time.

* `Offer`           — a statement that a step offers to the graph, whether it is taken or not.
* `Moment`          — the graph at some point of a run, what is yet to come, and the offers so far.
* `Move`            — how one moment leads to the next.
* `Assembly.Opened`, `Assembly.withBarrier` — what opening a task and adding a barrier come to.
* `Reached around steps m` — a run of `steps` passes the moment `m`.
* `Reached.outcome_eq` — every moment that a run passes still leads to the outcome of the run.
* `Reached.exists_over` — a run with a result passes a last moment that holds this result.
* `Assembly.toFile`, `Assembly.finish_ok` — what becomes of the graph after the last step.
* `Reached.postProcessed` — what tasks offer, and have yet to offer, came out of post-processing.
-/

namespace DocGraph

/-- A statement that a step offers to the graph. -/
structure Offer where
  step : Step
  statement : Statement
  isDefault : Bool
  /-- Whether the graph takes the statement. -/
  accepted : Bool

/-- A point of a run. -/
structure Moment where
  assembly : Assembly
  /-- The task at hand, with what it has yet to add. -/
  current : Option (Task × TaskOutput)
  steps : List Step
  offers : List Offer

namespace Moment

/-- Where a run starts. -/
def start (steps : List Step) : Moment := ⟨{}, none, steps, []⟩

/-- Nothing is yet to come. -/
def IsOver (m : Moment) : Prop := m.current = none ∧ m.steps = []

/-- All statements that were offered so far, in order. -/
def offered (m : Moment) : List Statement := m.offers.map Offer.statement

/-- What comes out of the rest of the run. -/
def outcome (around : Surroundings) (m : Moment) : Except GraphError Assembly :=
  match m.current with
  | none => m.steps.foldlM (Assembly.addStep around) m.assembly
  | some (_, out) => do
    let a ← out.emitted.foldlM Assembly.addEmitted m.assembly
    m.steps.foldlM (Assembly.addStep around) (a.consult out.gendeps)

end Moment

/-- How one moment of a run leads to the next. -/
inductive Move (around : Surroundings) : Moment → Moment → Prop where
  | openTask {a a₁ : Assembly} {t : Task} {out : TaskOutput} {steps : List Step}
      {offers : List Offer} (h : a.openTask around t = .ok (a₁, out)) :
      Move around ⟨a, none, .build t :: steps, offers⟩ ⟨a₁, some (t, out), steps, offers⟩
  | comment {a : Assembly} {t : Task} {text : String} {es : List Emitted} {g : List Path}
      {steps : List Step} {offers : List Offer} :
      Move around ⟨a, some (t, ⟨.comment text :: es, g⟩), steps, offers⟩
        ⟨{ a with entries := a.entries ++ [.comment text] }, some (t, ⟨es, g⟩), steps, offers⟩
  | accept {a : Assembly} {t : Task} {s : Statement} {d : Bool} {es : List Emitted}
      {g : List Path} {steps : List Step} {offers : List Offer} {state : GraphState}
      (h : a.state.claim s = .ok (.accepted state)) :
      Move around ⟨a, some (t, ⟨.build s d :: es, g⟩), steps, offers⟩
        ⟨a.accept state s d, some (t, ⟨es, g⟩), steps, offers ++ [⟨.build t, s, d, true⟩]⟩
  | drop {a : Assembly} {t : Task} {s : Statement} {d : Bool} {es : List Emitted}
      {g : List Path} {steps : List Step} {offers : List Offer}
      (h : a.state.claim s = .ok .duplicate) :
      Move around ⟨a, some (t, ⟨.build s d :: es, g⟩), steps, offers⟩
        ⟨a, some (t, ⟨es, g⟩), steps, offers ++ [⟨.build t, s, d, false⟩]⟩
  | closeTask {a : Assembly} {t : Task} {g : List Path} {steps : List Step}
      {offers : List Offer} :
      Move around ⟨a, some (t, ⟨[], g⟩), steps, offers⟩ ⟨a.consult g, none, steps, offers⟩
  | barrier {a a₁ : Assembly} {name : String} {steps : List Step} {offers : List Offer}
      (h : a.addBarrier name = .ok a₁) :
      Move around ⟨a, none, .barrier name :: steps, offers⟩
        ⟨a₁, none, steps, offers ++ [⟨.barrier name, a.barrierStatement name, false, true⟩]⟩

/-- A run of `steps` passes a moment. -/
inductive Reached (around : Surroundings) (steps : List Step) : Moment → Prop where
  | start : Reached around steps (.start steps)
  | move {m m' : Moment} : Reached around steps m → Move around m m' → Reached around steps m'

/-- No files and no interpreter. -/
def Surroundings.bare : Surroundings := ⟨.bare [], none⟩

/-! ## What steps do to the graph -/

namespace Assembly

/-- What opening a task checks, and what it leaves alone. -/
structure Opened (around : Surroundings) (a : Assembly) (t : Task) (a₁ : Assembly)
    (out : TaskOutput) : Prop where
  declared : ∀ b ∈ t.after, a.barriers.contains b = true
  registered : a.registerCommand t.command = .ok a₁
  generated : t.generate around a.state.outputs = .ok out
  state_eq : a₁.state = a.state
  entries_eq : a₁.entries = a.entries
  barriers_eq : a₁.barriers = a.barriers

theorem registerCommand_ok {a a₁ : Assembly} {c : Command} (h : a.registerCommand c = .ok a₁) :
    a₁.state = a.state ∧ a₁.entries = a.entries ∧ a₁.barriers = a.barriers := by
  obtain ⟨rules, _, h⟩ := bind_eq_ok.1 h
  obtain ⟨pools, _, h⟩ := bind_eq_ok.1 h
  cases h
  exact ⟨rfl, rfl, rfl⟩

theorem opened_of_openTask {around : Surroundings} {a a₁ : Assembly} {t : Task}
    {out : TaskOutput} (h : a.openTask around t = .ok (a₁, out)) : a.Opened around t a₁ out := by
  unfold openTask at h
  split at h
  · cases h
  · next hfind =>
    obtain ⟨a₂, hreg, h⟩ := bind_eq_ok.1 h
    obtain ⟨out', hout, h⟩ := bind_eq_ok.1 h
    cases h
    obtain ⟨hstate, hentries, hbarriers⟩ := registerCommand_ok hreg
    rw [hstate] at hout
    refine ⟨?_, hreg, hout, hstate, hentries, hbarriers⟩
    intro b hb
    simpa using List.find?_eq_none.1 (Option.eq_none_iff_forall_ne_some.2 hfind) b hb

theorem openTask_of {around : Surroundings} {a a₁ : Assembly} {t : Task} {out : TaskOutput}
    (hdeclared : ∀ b ∈ t.after, a.barriers.contains b = true)
    (hregister : a.registerCommand t.command = .ok a₁)
    (hgenerate : t.generate around a₁.state.outputs = .ok out) :
    a.openTask around t = .ok (a₁, out) := by
  have hnone : (t.after.find? fun b => !a.barriers.contains b) = none := by
    rw [List.find?_eq_none]
    intro b hb
    simp [hdeclared b hb]
  unfold openTask
  rw [hnone]
  simp only [hregister, ok_bind, hgenerate]
  rfl

/-- The graph with one more barrier. -/
def withBarrier (a : Assembly) (name : String) : Assembly :=
  { a with
    state := { a.state with
      outputs := a.state.outputs.insert ⟨name⟩
      defaults := (∅ : PathSet).insert ⟨name⟩ }
    entries := a.entries ++ [.comment ("barrier: " ++ name), .build (a.barrierStatement name)]
    barriers := a.barriers.insert name }

theorem addBarrier_of_fresh {a : Assembly} {name : String} (h : a.state.knows ⟨name⟩ = false) :
    a.addBarrier name = .ok (a.withBarrier name) := by
  rw [addBarrier]
  exact if_neg (by simpa [GraphState.knows] using h)

theorem addBarrier_of_known {a : Assembly} {name : String} (h : a.state.knows ⟨name⟩ = true) :
    a.addBarrier name = .error (.ambiguous [] [⟨name⟩]) := by
  rw [addBarrier]
  exact if_pos h

theorem addBarrier_ok {a a₁ : Assembly} {name : String} (h : a.addBarrier name = .ok a₁) :
    a.state.knows ⟨name⟩ = false ∧ a₁ = a.withBarrier name := by
  cases hk : a.state.knows ⟨name⟩ with
  | false =>
    rw [addBarrier_of_fresh hk] at h
    cases h
    exact ⟨rfl, rfl⟩
  | true =>
    rw [addBarrier_of_known hk] at h
    cases h

theorem builds_withBarrier (a : Assembly) (name : String) :
    (a.withBarrier name).builds = a.builds ++ [a.barrierStatement name] := by
  rw [builds, withBarrier, List.filterMap_append]
  rfl

theorem builds_accept (a : Assembly) (state : GraphState) (s : Statement) (d : Bool) :
    (a.accept state s d).builds = a.builds ++ [s] := by
  rw [builds, accept, List.filterMap_append]
  rfl

theorem builds_comment (a : Assembly) (text : String) :
    ({ a with entries := a.entries ++ [.comment text] } : Assembly).builds = a.builds := by
  rw [builds, List.filterMap_append]
  exact List.append_nil _

theorem Opened.builds_eq {around : Surroundings} {a a₁ : Assembly} {t : Task} {out : TaskOutput}
    (h : a.Opened around t a₁ out) : a₁.builds = a.builds := by
  rw [builds, h.entries_eq, builds]

end Assembly

/-! ## Moments and outcomes -/

theorem addEmitted_accepted {a : Assembly} {s : Statement} {d : Bool} {state : GraphState}
    (h : a.state.claim s = .ok (.accepted state)) :
    a.addEmitted (.build s d) = .ok (a.accept state s d) := by
  simp only [Assembly.addEmitted, h]
  rfl

theorem addEmitted_duplicate {a : Assembly} {s : Statement} {d : Bool}
    (h : a.state.claim s = .ok .duplicate) : a.addEmitted (.build s d) = .ok a := by
  simp only [Assembly.addEmitted, h]
  rfl

theorem addEmitted_error {a : Assembly} {s : Statement} {d : Bool} {e : GraphError}
    (h : a.state.claim s = .error e) : a.addEmitted (.build s d) = .error e := by
  simp only [Assembly.addEmitted, h]
  rfl

/-- What one more comment or statement does to the graph. -/
theorem addEmitted_ok {a a' : Assembly} {e : Emitted} (h : a.addEmitted e = .ok a') :
    (∃ text, e = .comment text ∧ a' = { a with entries := a.entries ++ [.comment text] }) ∨
    (∃ s d state, e = .build s d ∧ a.state.claim s = .ok (.accepted state) ∧
      a' = a.accept state s d) ∨
    ∃ s d, e = .build s d ∧ a.state.claim s = .ok .duplicate ∧ a' = a := by
  cases e with
  | comment text =>
    cases h
    exact .inl ⟨text, rfl, rfl⟩
  | build s d =>
    cases hc : a.state.claim s with
    | error e =>
      rw [addEmitted_error hc] at h
      cases h
    | ok claim =>
      cases claim with
      | accepted state =>
        rw [addEmitted_accepted hc] at h
        cases h
        exact .inr (.inl ⟨s, d, state, rfl, hc, rfl⟩)
      | duplicate =>
        rw [addEmitted_duplicate hc] at h
        cases h
        exact .inr (.inr ⟨s, d, rfl, hc, rfl⟩)

theorem Move.outcome_eq {around : Surroundings} {m m' : Moment} (h : Move around m m') :
    m.outcome around = m'.outcome around := by
  cases h with
  | @openTask a a₁ t out steps offers h =>
    have ht : a.addTask around t =
        out.emitted.foldlM Assembly.addEmitted a₁ >>= fun a => .ok (a.consult out.gendeps) := by
      simp only [Assembly.addTask, h]
      rfl
    simp only [Moment.outcome, List.foldlM_cons, Assembly.addStep, ht]
    cases out.emitted.foldlM Assembly.addEmitted a₁ with
    | error e => rfl
    | ok a => rfl
  | comment => rfl
  | accept h =>
    simp only [Moment.outcome, List.foldlM_cons, addEmitted_accepted h]
    rfl
  | drop h =>
    simp only [Moment.outcome, List.foldlM_cons, addEmitted_duplicate h]
    rfl
  | closeTask => rfl
  | barrier h =>
    simp only [Moment.outcome, List.foldlM_cons, Assembly.addStep, h]
    rfl

/-- Every moment that a run passes still leads to the outcome of the run. -/
theorem Reached.outcome_eq {around : Surroundings} {steps : List Step} {m : Moment}
    (h : Reached around steps m) :
    m.outcome around = steps.foldlM (Assembly.addStep around) {} := by
  induction h with
  | start => rfl
  | move _ hm ih => rw [← hm.outcome_eq, ih]

theorem Reached.assemble_eq {around : Surroundings} {steps : List Step} {m : Moment}
    (h : Reached around steps m) (settings : Settings) :
    assemble around settings steps =
      m.outcome around >>= fun a => a.finish around.tree settings := by
  rw [h.outcome_eq]
  rfl

/-- A task that gets through all it has to add passes the moment after that. -/
theorem Reached.exists_emptied {around : Surroundings} {all steps : List Step} {t : Task}
    {g : List Path} {es : List Emitted} {a a' : Assembly} {offers : List Offer}
    (h : Reached around all ⟨a, some (t, ⟨es, g⟩), steps, offers⟩)
    (ha : es.foldlM Assembly.addEmitted a = .ok a') :
    ∃ offers', Reached around all ⟨a', some (t, ⟨[], g⟩), steps, offers'⟩ := by
  induction es generalizing a offers with
  | nil =>
    cases ha
    exact ⟨offers, h⟩
  | cons e es ih =>
    obtain ⟨a₁, ha₁, hrest⟩ := foldlM_cons_ok.1 ha
    rcases addEmitted_ok ha₁ with
      ⟨text, rfl, rfl⟩ | ⟨s, d, state, rfl, hc, rfl⟩ | ⟨s, d, rfl, hc, rfl⟩
    · exact ih (h.move .comment) hrest
    · exact ih (h.move (.accept hc)) hrest
    · exact ih (h.move (.drop hc)) hrest

theorem Reached.exists_over_of_steps {around : Surroundings} {all steps : List Step}
    {a a' : Assembly} {offers : List Offer} (h : Reached around all ⟨a, none, steps, offers⟩)
    (ha : steps.foldlM (Assembly.addStep around) a = .ok a') :
    ∃ offers', Reached around all ⟨a', none, [], offers'⟩ := by
  induction steps generalizing a offers with
  | nil =>
    cases ha
    exact ⟨offers, h⟩
  | cons step steps ih =>
    obtain ⟨a₁, ha₁, hrest⟩ := foldlM_cons_ok.1 ha
    cases step with
    | barrier name => exact ih (h.move (.barrier ha₁)) hrest
    | build t =>
      obtain ⟨⟨a₂, out⟩, hopen, ha₁⟩ := bind_eq_ok.1 ha₁
      obtain ⟨a₃, hadd, ha₁⟩ := bind_eq_ok.1 ha₁
      cases ha₁
      obtain ⟨offers', h'⟩ := (h.move (.openTask hopen)).exists_emptied hadd
      exact ih (h'.move .closeTask) hrest

/-- A run with a result passes a last moment that holds this result. -/
theorem exists_over {around : Surroundings} {steps : List Step} {a : Assembly}
    (h : steps.foldlM (Assembly.addStep around) {} = .ok a) :
    ∃ m, Reached around steps m ∧ m.IsOver ∧ m.assembly = a := by
  have hstart : Reached around steps (.start steps) := .start
  obtain ⟨offers, hr⟩ := hstart.exists_over_of_steps h
  exact ⟨_, hr, ⟨rfl, rfl⟩, rfl⟩

/-- A build file is finished from the last moment of its run. -/
theorem exists_over_of_assemble {around : Surroundings} {settings : Settings} {steps : List Step}
    {file : BuildFile} (h : assemble around settings steps = .ok file) :
    ∃ m, Reached around steps m ∧ m.IsOver ∧
      m.assembly.finish around.tree settings = .ok file := by
  obtain ⟨a, ha, hf⟩ := bind_eq_ok.1 h
  obtain ⟨m, hr, hover, rfl⟩ := exists_over ha
  exact ⟨m, hr, hover, hf⟩

/-! ## The last step -/

namespace Assembly

/-- The build file of a graph whose rules are complete. -/
def toFile (tree : Tree) (settings : Settings) (a : Assembly) (rules : Table Rule) : BuildFile where
  pools := a.pools
  rules := rules
  entries := a.entries
  defaults := a.state.defaults.toList
  gendeps := a.state.gendeps.toList
  regenerate := a.regeneration tree settings

variable {tree : Tree} {settings : Settings} {a : Assembly} {rules : Table Rule} {sort : Toposort}

theorem finish_of_cycle (hrules : a.used.toList.foldlM completeRule a.rules = .ok rules)
    {s : Statement} (h : Graph.onCycle? a.builds sort = some s) :
    a.finish tree settings sort = .error (.cycle (s.outputs.head?.getD ⟨""⟩)) := by
  rw [finish, hrules, ok_bind, h]
  rfl

theorem finish_of_acyclic (hrules : a.used.toList.foldlM completeRule a.rules = .ok rules)
    (h : Graph.onCycle? a.builds sort = none) :
    a.finish tree settings sort = .ok (a.toFile tree settings rules) := by
  rw [finish, hrules, ok_bind, h]
  rfl

theorem finish_ok {file : BuildFile} (h : a.finish tree settings sort = .ok file) :
    ∃ rules, a.used.toList.foldlM completeRule a.rules = .ok rules ∧
      Graph.onCycle? a.builds sort = none ∧ file = a.toFile tree settings rules := by
  obtain ⟨rules, hrules, -⟩ := bind_eq_ok.1 h
  cases hc : Graph.onCycle? a.builds sort with
  | some s =>
    rw [finish_of_cycle hrules hc] at h
    cases h
  | none =>
    rw [finish_of_acyclic hrules hc] at h
    cases h
    exact ⟨rules, hrules, rfl, rfl⟩

end Assembly

/-! ## What tasks offer -/

/-- What tasks offered, and what the one at hand has yet to offer, came out of post-processing. -/
structure Moment.PostProcessed (around : Surroundings) (m : Moment) : Prop where
  offers : ∀ o ∈ m.offers, ∀ t, o.step = .build t →
    t.PostProcessed around.tree o.statement o.isDefault
  current : ∀ t out, m.current = some (t, out) → ∀ s d, .build s d ∈ out.emitted →
    t.PostProcessed around.tree s d

/-- The next statement joins the offers, whatever becomes of it. -/
theorem Moment.PostProcessed.offer {around : Surroundings} {a a₁ : Assembly} {t : Task}
    {s : Statement} {d : Bool} {es : List Emitted} {g : List Path} {steps : List Step}
    {offers : List Offer}
    (h : Moment.PostProcessed around ⟨a, some (t, ⟨.build s d :: es, g⟩), steps, offers⟩)
    (accepted : Bool) : Moment.PostProcessed around
      ⟨a₁, some (t, ⟨es, g⟩), steps, offers ++ [⟨.build t, s, d, accepted⟩]⟩ := by
  refine ⟨?_, ?_⟩
  · intro o ho t' hstep
    rcases List.mem_append.1 ho with ho | ho
    · exact h.offers o ho t' hstep
    · cases List.mem_singleton.1 ho
      cases hstep
      exact h.current _ _ rfl _ _ List.mem_cons_self
  · intro t' out ht s' d' hs
    cases ht
    exact h.current _ _ rfl s' d' (List.mem_cons_of_mem _ hs)

theorem Move.postProcessed {around : Surroundings} {m m' : Moment} (h : Move around m m')
    (hp : m.PostProcessed around) : m'.PostProcessed around := by
  cases h with
  | openTask h =>
    refine ⟨hp.offers, ?_⟩
    intro t out ht s d hs
    cases ht
    exact Task.mem_emitted_of_generate (Assembly.opened_of_openTask h).generated hs
  | comment =>
    refine ⟨hp.offers, ?_⟩
    intro t out ht s d hs
    cases ht
    exact hp.current _ _ rfl s d (List.mem_cons_of_mem _ hs)
  | accept => exact hp.offer true
  | drop => exact hp.offer false
  | closeTask => exact ⟨hp.offers, fun t out ht => by cases ht⟩
  | barrier h =>
    refine ⟨?_, fun t out ht => by cases ht⟩
    intro o ho t hstep
    rcases List.mem_append.1 ho with ho | ho
    · exact hp.offers o ho t hstep
    · cases List.mem_singleton.1 ho
      cases hstep

theorem Reached.postProcessed {around : Surroundings} {steps : List Step} {m : Moment}
    (h : Reached around steps m) : m.PostProcessed around := by
  induction h with
  | start =>
    refine ⟨?_, ?_⟩
    · intro o ho
      cases ho
    · intro t out ht
      cases ht
  | move _ hm ih => exact hm.postProcessed ih

end DocGraph
