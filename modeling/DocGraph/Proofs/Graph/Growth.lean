import DocGraph.Proofs.Graph.Run

/-!
# DocGraph.Proofs.Graph.Growth

What only grows along a run.

* `Assembly.Extends`    — nothing known, consulted, registered or declared is lost.
* `Assembly.Registered` — the rules and pools of a command are registered as the command has them.
* `registerCommand_of_registered` — registering them once more changes nothing.
* `extends_of_addStep`, `extends_of_foldlM` — a step, and a run, extend the graph.
-/

namespace DocGraph

theorem TextSet.contains_insert_of_contains {s : TextSet} {k : String} (h : s.contains k = true)
    (name : String) : (s.insert name).contains k = true := by
  exact (SortedBy.contains_insertMany (l := [name])).2 (.inl h)

namespace Assembly

/-- Nothing that the first graph holds is lost in the second. -/
structure Extends (a b : Assembly) : Prop where
  outputs : ∀ p ∈ a.state.outputs, p ∈ b.state.outputs
  gendeps : ∀ p ∈ a.state.gendeps, p ∈ b.state.gendeps
  rules : ∀ name rule, a.rules.get? name = some rule → b.rules.get? name = some rule
  pools : ∀ name pool, a.pools.get? name = some pool → b.pools.get? name = some pool
  barriers : ∀ name, a.barriers.contains name = true → b.barriers.contains name = true

theorem Extends.refl (a : Assembly) : a.Extends a :=
  ⟨fun _ h => h, fun _ h => h, fun _ _ h => h, fun _ _ h => h, fun _ h => h⟩

theorem Extends.trans {a b c : Assembly} (h : a.Extends b) (h' : b.Extends c) : a.Extends c where
  outputs p hp := h'.outputs p (h.outputs p hp)
  gendeps p hp := h'.gendeps p (h.gendeps p hp)
  rules name rule hr := h'.rules name rule (h.rules name rule hr)
  pools name pool hp := h'.pools name pool (h.pools name pool hp)
  barriers name hb := h'.barriers name (h.barriers name hb)

theorem Extends.knows {a b : Assembly} (h : a.Extends b) {p : Path}
    (hp : a.state.knows p = true) : b.state.knows p = true := by
  obtain ⟨q, hq, hk⟩ := SortedBy.contains_iff.1 hp
  exact SortedBy.contains_iff.2 ⟨q, h.outputs q hq, hk⟩

/-! ## Rules and pools -/

section

variable {α : Type} [DecidableEq α] {conflict : String → GraphError} {known known' : Table α}

theorem register_ok {e : String × α} (h : register conflict known e = .ok known') :
    known'.get? e.1 = some e.2 ∧
      ∀ name v, known.get? name = some v → known'.get? name = some v := by
  unfold register at h
  split at h
  · next v hv =>
    split at h
    · next heq =>
      cases h
      exact ⟨heq ▸ hv, fun _ _ hn => hn⟩
    · cases h
  · next hnone =>
    cases h
    refine ⟨by rw [Table.get?_set, if_pos rfl], ?_⟩
    intro name v hv
    rw [Table.get?_set]
    split
    · next hname =>
      rw [hname, hnone] at hv
      cases hv
    · exact hv

theorem foldlM_register_ok {l : List (String × α)}
    (h : l.foldlM (register conflict) known = .ok known') :
    (∀ e ∈ l, known'.get? e.1 = some e.2) ∧
      ∀ name v, known.get? name = some v → known'.get? name = some v := by
  induction l generalizing known with
  | nil =>
    cases h
    exact ⟨nofun, fun _ _ hn => hn⟩
  | cons e l ih =>
    obtain ⟨known₁, he, hl⟩ := foldlM_cons_ok.1 h
    obtain ⟨hhere, hkept⟩ := register_ok he
    obtain ⟨hlater, hkept'⟩ := ih hl
    refine ⟨?_, fun name v hv => hkept' name v (hkept name v hv)⟩
    intro e' he'
    rcases List.mem_cons.1 he' with rfl | he'
    · exact hkept' _ _ hhere
    · exact hlater e' he'

theorem foldlM_register_of_known {l : List (String × α)}
    (h : ∀ e ∈ l, known.get? e.1 = some e.2) :
    l.foldlM (register conflict) known = .ok known := by
  induction l with
  | nil => rfl
  | cons e l ih =>
    have he : register conflict known e = .ok known := by
      rw [register, h e List.mem_cons_self]
      exact if_pos rfl
    rw [List.foldlM_cons, he, ok_bind, ih fun e' he' => h e' (List.mem_cons_of_mem _ he')]

end

/-- The rules and pools of a command are registered as the command has them. -/
structure Registered (a : Assembly) (c : Command) : Prop where
  rules : ∀ e ∈ c.rules.toList, a.rules.get? e.1 = some e.2
  pools : ∀ e ∈ c.pools.toList.filter fun e => e.1 != Pool.console, a.pools.get? e.1 = some e.2

variable {a b : Assembly} {c : Command}

theorem Registered.mono (h : a.Registered c) (hab : a.Extends b) : b.Registered c where
  rules e he := hab.rules _ _ (h.rules e he)
  pools e he := hab.pools _ _ (h.pools e he)

theorem registered_of_registerCommand (h : a.registerCommand c = .ok b) :
    b.Registered c ∧ a.Extends b := by
  obtain ⟨rules, hrules, h⟩ := bind_eq_ok.1 h
  obtain ⟨pools, hpools, h⟩ := bind_eq_ok.1 h
  cases h
  obtain ⟨hrule, hrulesKept⟩ := foldlM_register_ok hrules
  obtain ⟨hpool, hpoolsKept⟩ := foldlM_register_ok hpools
  exact ⟨⟨hrule, hpool⟩, fun _ h => h, fun _ h => h, hrulesKept, hpoolsKept, fun _ h => h⟩

theorem registerCommand_of_registered (h : a.Registered c) : a.registerCommand c = .ok a := by
  rw [registerCommand, foldlM_register_of_known h.rules, ok_bind,
    foldlM_register_of_known h.pools]
  rfl

/-! ## Steps and runs -/

variable {around : Surroundings}

theorem extends_of_addEmitted {e : Emitted} (h : a.addEmitted e = .ok b) : a.Extends b := by
  rcases addEmitted_ok h with ⟨text, -, rfl⟩ | ⟨s, d, state, -, hc, rfl⟩ | ⟨s, d, -, -, rfl⟩
  · exact ⟨fun _ h => h, fun _ h => h, fun _ _ h => h, fun _ _ h => h, fun _ h => h⟩
  · obtain ⟨-, rfl⟩ := GraphState.claim_accepted hc
    exact ⟨fun p hp => SortedBy.mem_insertMany_of_mem hp _, fun _ h => h, fun _ _ h => h,
      fun _ _ h => h, fun _ h => h⟩
  · exact .refl _

theorem extends_of_addEmitteds {es : List Emitted} (h : es.foldlM addEmitted a = .ok b) :
    a.Extends b :=
  foldlM_induct (R := Extends) .refl .trans (fun _ _ _ => extends_of_addEmitted) h

theorem extends_consult (a : Assembly) (paths : List Path) : a.Extends (a.consult paths) :=
  ⟨fun _ h => h, fun _ hp => SortedBy.mem_insertMany_of_mem hp _, fun _ _ h => h, fun _ _ h => h,
    fun _ h => h⟩

theorem extends_withBarrier (a : Assembly) (name : String) : a.Extends (a.withBarrier name) :=
  ⟨fun _ hp => SortedBy.mem_insertMany_of_mem hp [_], fun _ h => h, fun _ _ h => h,
    fun _ _ h => h, fun _ h => TextSet.contains_insert_of_contains h name⟩

theorem extends_of_addStep {step : Step} (h : a.addStep around step = .ok b) : a.Extends b := by
  cases step with
  | build t =>
    obtain ⟨⟨a₁, out⟩, hopen, h⟩ := bind_eq_ok.1 h
    obtain ⟨a₂, hadd, h⟩ := bind_eq_ok.1 h
    cases h
    obtain ⟨-, hregistered⟩ :=
      registered_of_registerCommand (opened_of_openTask hopen).registered
    exact (hregistered.trans (extends_of_addEmitteds hadd)).trans (extends_consult _ _)
  | barrier name =>
    obtain ⟨-, rfl⟩ := addBarrier_ok h
    exact extends_withBarrier a name

theorem extends_of_foldlM {steps : List Step} (h : steps.foldlM (addStep around) a = .ok b) :
    a.Extends b :=
  foldlM_induct (R := Extends) .refl .trans (fun _ _ _ => extends_of_addStep) h

end Assembly
end DocGraph
