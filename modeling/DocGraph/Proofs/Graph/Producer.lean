import DocGraph.Proofs.Graph.Run

/-!
# DocGraph.Proofs.Graph.Producer

Every known path has one producer, the first statement that was offered for it.

* `UniqueProducer`      — the invariant of a run: known outputs are those of the statements, no two
  statements share one, defaults are known, and who makes a path among the statements also made it
  first among the offers.
* `Reached.uniqueProducer` — every moment of a run has it.
* `first_declaration_wins` — the invariant, and what becomes of the statement or barrier that is next.
-/

namespace DocGraph

/-- The outputs of statements. -/
def Graph.outputsOf (l : List Statement) : PathSet := .ofList (l.flatMap Statement.allOutputs)

/-- What holds of known outputs, statements, defaults and offers throughout a run. -/
structure UniqueProducer (a : Assembly) (offered : List Statement) : Prop where
  outputs_eq : a.state.outputs = Graph.outputsOf a.builds
  disjoint : a.builds.Pairwise fun r s => ∀ p, ¬(r.makes p = true ∧ s.makes p = true)
  defaults_known : ∀ p ∈ a.state.defaults, a.state.knows p = true
  first_offered : ∀ p, a.builds.find? (·.makes p) = offered.find? (·.makes p)

theorem contains_outputsOf {l : List Statement} {p : Path} :
    (Graph.outputsOf l).contains p.components = true ↔ ∃ s ∈ l, s.makes p = true := by
  rw [Graph.outputsOf, SortedBy.contains_ofList]
  simp only [List.mem_flatMap, Statement.makes_iff]
  constructor
  · rintro ⟨o, ⟨s, hs, ho⟩, hk⟩
    exact ⟨s, hs, o, ho, hk⟩
  · rintro ⟨s, hs, o, ho, hk⟩
    exact ⟨o, ⟨s, hs, ho⟩, hk⟩

theorem outputsOf_append (l : List Statement) (s : Statement) :
    Graph.outputsOf (l ++ [s]) = (Graph.outputsOf l).insertMany s.allOutputs := by
  simp only [Graph.outputsOf, SortedBy.ofList, List.flatMap_append, List.flatMap_singleton,
    SortedBy.insertMany_append]

namespace UniqueProducer

variable {a a₁ : Assembly} {offered : List Statement} {s : Statement}

/-- A path is known exactly if some statement makes it. -/
theorem knows_iff (h : UniqueProducer a offered) {p : Path} :
    a.state.knows p = true ↔ ∃ s ∈ a.builds, s.makes p = true := by
  rw [GraphState.knows, h.outputs_eq, contains_outputsOf]

/-- The invariant speaks of statements, known outputs and defaults only. -/
theorem congr (h : UniqueProducer a offered) (hs : a₁.state.outputs = a.state.outputs)
    (hd : a₁.state.defaults = a.state.defaults) (hb : a₁.builds = a.builds) :
    UniqueProducer a₁ offered := by
  refine ⟨by rw [hs, hb, h.outputs_eq], by rw [hb]; exact h.disjoint, ?_, ?_⟩
  · intro p hp
    rw [hd] at hp
    rw [GraphState.knows, hs]
    exact h.defaults_known p hp
  · intro p
    rw [hb]
    exact h.first_offered p

/-- A statement all of whose outputs were unknown joins the statements and the offers. -/
theorem push (h : UniqueProducer a offered) (hb : a₁.builds = a.builds ++ [s])
    (ho : a₁.state.outputs = a.state.outputs.insertMany s.allOutputs)
    (hfresh : ∀ p ∈ s.allOutputs, a.state.knows p = false)
    (hd : ∀ p ∈ a₁.state.defaults, p ∈ a.state.defaults ∨ p ∈ s.allOutputs) :
    UniqueProducer a₁ (offered ++ [s]) := by
  refine ⟨?_, ?_, ?_, ?_⟩
  · rw [ho, hb, outputsOf_append, h.outputs_eq]
  · rw [hb, List.pairwise_append]
    refine ⟨h.disjoint, List.pairwise_singleton _ _, ?_⟩
    intro r hr s' hs' p hrs
    cases List.mem_singleton.1 hs'
    obtain ⟨o, hos, hk⟩ := Statement.makes_iff.1 hrs.2
    have hknown : a.state.knows p = true := h.knows_iff.2 ⟨r, hr, hrs.1⟩
    rw [← GraphState.knows_congr hk, hfresh o hos] at hknown
    cases hknown
  · intro p hp
    rw [GraphState.knows, ho, SortedBy.contains_insertMany]
    rcases hd p hp with hp | hp
    · exact .inl (h.defaults_known p hp)
    · exact .inr ⟨p, hp, rfl⟩
  · intro p
    rw [hb, List.find?_append, List.find?_append, h.first_offered]

/-- An offer all of whose outputs are known changes no first offer. -/
theorem drop (h : UniqueProducer a offered) (hk : ∀ p ∈ s.allOutputs, a.state.knows p = true) :
    UniqueProducer a (offered ++ [s]) := by
  refine ⟨h.outputs_eq, h.disjoint, h.defaults_known, ?_⟩
  intro p
  rw [List.find?_append, ← h.first_offered]
  cases hb : a.builds.find? (·.makes p) with
  | some r => rfl
  | none =>
    have hnot : s.makes p = false := by
      rw [← Bool.not_eq_true]
      intro hs
      obtain ⟨o, ho, hc⟩ := Statement.makes_iff.1 hs
      obtain ⟨r, hr, hrp⟩ := h.knows_iff.1 (hk o ho)
      rw [Statement.makes_iff, hc, ← Statement.makes_iff] at hrp
      exact List.find?_eq_none.1 hb r hr hrp
    simp [hnot]

end UniqueProducer

theorem Move.uniqueProducer {around : Surroundings} {m m' : Moment} (h : Move around m m')
    (hu : UniqueProducer m.assembly m.offered) : UniqueProducer m'.assembly m'.offered := by
  cases h with
  | openTask h =>
    have ho := Assembly.opened_of_openTask h
    exact hu.congr (by rw [ho.state_eq]) (by rw [ho.state_eq]) ho.builds_eq
  | comment => exact hu.congr rfl rfl (Assembly.builds_comment _ _)
  | @accept a t s d es g steps offers state h =>
    obtain ⟨hfresh, rfl⟩ := GraphState.claim_accepted h
    rw [Moment.offered, List.map_append]
    refine hu.push (Assembly.builds_accept _ _ _ _) rfl hfresh ?_
    intro p hp
    cases d with
    | false => exact .inl hp
    | true =>
      rcases SortedBy.mem_of_mem_insertMany hp with hp | hp
      · exact .inl hp
      · exact .inr (List.mem_append_left _ hp)
  | drop h =>
    rw [Moment.offered, List.map_append]
    exact hu.drop (GraphState.claim_duplicate h)
  | closeTask => exact hu.congr rfl rfl rfl
  | barrier h =>
    obtain ⟨hfresh, rfl⟩ := Assembly.addBarrier_ok h
    rw [Moment.offered, List.map_append]
    refine hu.push (Assembly.builds_withBarrier _ _) rfl ?_ ?_
    · intro p hp
      cases List.mem_singleton.1 hp
      exact hfresh
    · intro p hp
      rcases SortedBy.mem_of_mem_insertMany (l := [_]) hp with hp | hp
      · cases hp
      · exact .inr hp

theorem Reached.uniqueProducer {around : Surroundings} {steps : List Step} {m : Moment}
    (h : Reached around steps m) : UniqueProducer m.assembly m.offered := by
  induction h with
  | start =>
    refine ⟨rfl, .nil, ?_, fun _ => rfl⟩
    intro p hp
    cases hp
  | move _ hm ih => exact hm.uniqueProducer ih

/-! ## The next statement -/

/-- A statement is dropped, and leaves the graph as it is, exactly if all its outputs are known. -/
theorem addEmitted_eq_self_iff {a : Assembly} {s : Statement} {d : Bool} (hne : s.outputs ≠ []) :
    a.addEmitted (.build s d) = .ok a ↔ ∀ p ∈ s.allOutputs, a.state.knows p = true := by
  have hne' : s.allOutputs ≠ [] := by
    intro hnil
    exact hne (List.append_eq_nil_iff.1 hnil).1
  constructor
  · intro h
    rcases a.state.fresh_or_known_or_mixed s with hf | ⟨_, hk⟩ | ⟨p, hp, hkp, q, hq, hkq⟩
    · rw [addEmitted_accepted (GraphState.claim_of_fresh hf), Except.ok.injEq] at h
      have hlen := congrArg (fun a => a.builds.length) h
      simp [Assembly.builds_accept] at hlen
    · exact hk
    · rw [addEmitted_error (GraphState.claim_of_mixed hp hkp hq hkq)] at h
      cases h
  · intro hk
    exact addEmitted_duplicate (GraphState.claim_of_known hne' hk)

/-- A statement with known and unknown outputs ends the run, and the error names both parts. -/
theorem Reached.assemble_of_mixed {around : Surroundings} {steps : List Step} {m : Moment}
    (h : Reached around steps m) {t : Task} {s : Statement} {d : Bool} {es : List Emitted}
    {g : List Path} (hm : m.current = some (t, ⟨.build s d :: es, g⟩))
    {p q : Path} (hp : p ∈ s.allOutputs) (hkp : m.assembly.state.knows p = true)
    (hq : q ∈ s.allOutputs) (hkq : m.assembly.state.knows q = false) (settings : Settings) :
    assemble around settings steps = .error (.ambiguous
      (Path.sorted (s.allOutputs.filter fun p => !m.assembly.state.knows p))
      (Path.sorted (s.allOutputs.filter m.assembly.state.knows))) := by
  have he := addEmitted_error (d := d) (GraphState.claim_of_mixed hp hkp hq hkq)
  rw [h.assemble_eq, Moment.outcome, hm]
  simp only [List.foldlM_cons, he]
  rfl

/-- A barrier whose name is known ends the run. -/
theorem Reached.assemble_of_known_barrier {around : Surroundings} {steps : List Step}
    {m : Moment} (h : Reached around steps m) (hm : m.current = none) {name : String}
    {rest : List Step} (hs : m.steps = .barrier name :: rest)
    (hk : m.assembly.state.knows ⟨name⟩ = true) (settings : Settings) :
    assemble around settings steps = .error (.ambiguous [] [⟨name⟩]) := by
  have he := Assembly.addBarrier_of_known hk
  rw [h.assemble_eq, Moment.outcome, hm, hs]
  simp only [List.foldlM_cons, Assembly.addStep, he]
  rfl

/-- At every moment of a run,
* the known outputs are those of the statements, and no two statements share one;
* defaults are known;
* a known path is made by the first statement that was offered for it;
* the next statement of a task is dropped without a trace exactly if all its outputs are known, and
  ends the run if some are, naming the unknown ones and the known ones;
* the next barrier ends the run if its name is known. -/
theorem first_declaration_wins {around : Surroundings} {steps : List Step} {m : Moment}
    (h : Reached around steps m) :
    m.assembly.state.outputs = Graph.outputsOf m.assembly.builds ∧
    m.assembly.builds.Pairwise (fun r s => ∀ p, ¬(r.makes p = true ∧ s.makes p = true)) ∧
    (∀ p ∈ m.assembly.state.defaults, m.assembly.state.knows p = true) ∧
    (∀ p, m.assembly.state.knows p = true → ∃ s,
      m.assembly.builds.find? (·.makes p) = some s ∧ m.offered.find? (·.makes p) = some s) ∧
    (∀ t s d es g, m.current = some (t, ⟨.build s d :: es, g⟩) →
      (m.assembly.addEmitted (.build s d) = .ok m.assembly ↔
        ∀ p ∈ s.allOutputs, m.assembly.state.knows p = true) ∧
      ((∃ p ∈ s.allOutputs, m.assembly.state.knows p = true) →
        (∃ p ∈ s.allOutputs, m.assembly.state.knows p = false) →
        ∀ settings, assemble around settings steps = .error (.ambiguous
          (Path.sorted (s.allOutputs.filter fun p => !m.assembly.state.knows p))
          (Path.sorted (s.allOutputs.filter m.assembly.state.knows))))) ∧
    (∀ name rest, m.current = none → m.steps = .barrier name :: rest →
      m.assembly.state.knows ⟨name⟩ = true →
      ∀ settings, assemble around settings steps = .error (.ambiguous [] [⟨name⟩])) := by
  have hu := h.uniqueProducer
  refine ⟨hu.outputs_eq, hu.disjoint, hu.defaults_known, ?_, ?_, ?_⟩
  · intro p hp
    obtain ⟨s, hs, hsp⟩ := hu.knows_iff.1 hp
    have hsome : (m.assembly.builds.find? (·.makes p)).isSome = true := by
      rw [List.find?_isSome]
      exact ⟨s, hs, hsp⟩
    obtain ⟨r, hr⟩ := Option.isSome_iff_exists.1 hsome
    exact ⟨r, hr, by rw [← hu.first_offered, hr]⟩
  · intro t s d es g hm
    obtain ⟨_, hf⟩ := (h.postProcessed.current t _ hm s d List.mem_cons_self).finished
    refine ⟨addEmitted_eq_self_iff hf.outputs_ne_nil, ?_⟩
    rintro ⟨p, hp, hkp⟩ ⟨q, hq, hkq⟩
    exact h.assemble_of_mixed hm hp hkp hq hkq
  · intro name rest hm hs hk
    exact h.assemble_of_known_barrier hm hs hk

/-- A task on the barrier `hold`. Its statements make something new, the barrier again, and both
something old and something new. -/
def Task.contested : Task where
  command := { name := "contested", rules := ∅, action? := fun _ => none }
  action := fun _ _ _ => .ok ⟨[
    .build { rule := Rule.phony, outputs := [⟨"a"⟩] },
    .build { rule := Rule.phony, outputs := [⟨"hold"⟩, ⟨"./hold"⟩] },
    .build { rule := Rule.phony, outputs := [⟨"c"⟩, ⟨"a"⟩] }], []⟩
  inputs := [⟨[.literal "hold"], Pattern.readable_literal "hold"⟩]
  builtInputsOnly := true

theorem first_declaration_wins_contested : ∃ m,
    Reached .bare [.barrier "hold", .build .contested] m ∧
    m.offers.map Offer.accepted = [true, true, false] ∧
    ∀ settings, assemble .bare settings [.barrier "hold", .build .contested] =
      .error (.ambiguous [⟨"c"⟩] [⟨"a"⟩]) := by
  have hopen : (({} : Assembly).withBarrier "hold").openTask .bare .contested =
      .ok (({} : Assembly).withBarrier "hold", ⟨[
        .comment "command: contested", .comment "inp: hold",
        .build { rule := Rule.phony, outputs := [⟨"a"⟩] } false,
        .build { rule := Rule.phony, outputs := [⟨"hold"⟩, ⟨"hold"⟩] } false,
        .build { rule := Rule.phony, outputs := [⟨"c"⟩, ⟨"a"⟩] } false], []⟩) := by
    decide +kernel
  have hstart : Reached .bare [.barrier "hold", .build .contested] (.start _) := .start
  have hbarrier := hstart.move (.barrier (Assembly.addBarrier_of_fresh (by decide)))
  have hcomments := ((hbarrier.move (.openTask hopen)).move .comment).move .comment
  have haccept := hcomments.move (.accept (GraphState.claim_of_fresh (by decide +kernel)))
  have hdrop := haccept.move (.drop (GraphState.claim_of_known (by decide) (by decide +kernel)))
  obtain ⟨-, -, -, -, hnext, -⟩ := first_declaration_wins hdrop
  exact ⟨_, hdrop, rfl, (hnext _ _ _ _ _ rfl).2 ⟨⟨"a"⟩, by decide +kernel⟩
    ⟨⟨"c"⟩, by decide +kernel⟩⟩

end DocGraph
