import DocGraph.Proofs.Graph.Growth

/-!
# DocGraph.Proofs.Graph.Rules

The rules that statements use.

* `Rule.Resolves`     — a rule is known, or can be completed: the alias, the rule for missing inputs,
  and the variant of a known rule that creates directories.
* `foldlM_completeRule_of_resolves` — rules that resolve are completed.
* `Task.UsesOwnRules` — the command uses the rules that it brings along.
* `resolving_of_foldlM` — then whatever statements the graph has, their rules resolve.
-/

namespace DocGraph

theorem Text.stripSuffix?_append (s p : String) : stripSuffix? p (s ++ p) = some s := by
  have hlist : p.toList.isSuffixOf? (s ++ p).toList = some s.toList := by
    rw [String.toList_append, List.isSuffixOf?_eq_some_iff_append_eq]
  rw [stripSuffix?, hlist, Option.map_some, String.ofList_toList]

/-- A rule is known, or can be completed. -/
inductive Rule.Resolves (rules : Table Rule) : String → Prop where
  | phony : Resolves rules Rule.phony
  | errorMissing : Resolves rules Rule.errorMissing
  | known {name : String} {r : Rule} (h : rules.get? name = some r) : Resolves rules name
  | mkdir {base : String} {r : Rule} (h : rules.get? base = some r) :
      Resolves rules (base ++ Rule.mkdirSuffix)

theorem Rule.Resolves.mono {rules rules' : Table Rule} {name : String} (h : Resolves rules name)
    (hrules : ∀ n r, rules.get? n = some r → rules'.get? n = some r) : Resolves rules' name := by
  cases h with
  | phony => exact .phony
  | errorMissing => exact .errorMissing
  | known h => exact .known (hrules _ _ h)
  | mkdir h => exact .mkdir (hrules _ _ h)

/-- Each record of the command uses the alias or a rule of the command. -/
def Task.UsesOwnRules (around : Surroundings) (t : Task) : Prop :=
  ∀ inputs outputs g, t.action around inputs outputs = .ok g → ∀ s, .build s ∈ g.entries →
    s.rule = Rule.phony ∨ ∃ r, t.command.rules.get? s.rule = some r

namespace Assembly

/-! ## Completing rules -/

theorem contains_iff_get? {rules : Table Rule} {name : String} :
    rules.contains name = true ↔ ∃ r, rules.get? name = some r := by
  rw [SortedBy.contains_iff]
  constructor
  · rintro ⟨⟨_, r⟩, h, rfl⟩
    exact ⟨r, Table.get?_eq_some_iff.2 h⟩
  · rintro ⟨r, h⟩
    exact ⟨_, Table.get?_eq_some_iff.1 h, rfl⟩

/-- A rule that resolves is completed, and no other rule changes. -/
theorem completeRule_of_resolves {rules : Table Rule} {name : String}
    (h : Rule.Resolves rules name) (s : Statement) :
    ∃ rules', completeRule rules (name, s) = .ok rules' ∧
      ∀ n r, rules.get? n = some r → rules'.get? n = some r := by
  unfold completeRule
  dsimp only
  split
  · exact ⟨rules, rfl, fun _ _ hn => hn⟩
  · next hnew =>
    simp only [Bool.or_eq_true, decide_eq_true_eq, not_or, contains_iff_get?, not_exists] at hnew
    have hset : ∀ rule n r, rules.get? n = some r → (rules.set name rule).get? n = some r := by
      intro rule n r hn
      rw [Table.get?_set, if_neg, hn]
      rintro rfl
      exact hnew.2 r hn
    split
    · exact ⟨_, rfl, hset missingRule⟩
    · next hmissing =>
      cases h with
      | phony => exact absurd rfl hnew.1
      | errorMissing => exact absurd rfl hmissing
      | known h => exact absurd h (hnew.2 _)
      | mkdir h =>
        rw [Text.stripSuffix?_append, Option.bind_some, h]
        exact ⟨_, rfl, hset _⟩

theorem foldlM_completeRule_of_resolves {rules : Table Rule} {l : List (String × Statement)}
    (h : ∀ use ∈ l, Rule.Resolves rules use.1) : ∃ rules', l.foldlM completeRule rules = .ok rules' := by
  induction l generalizing rules with
  | nil => exact ⟨rules, rfl⟩
  | cons use l ih =>
    obtain ⟨rules₁, hfirst, hkept⟩ := completeRule_of_resolves (h use List.mem_cons_self) use.2
    obtain ⟨rules', hrest⟩ := ih fun use' huse => (h use' (List.mem_cons_of_mem _ huse)).mono hkept
    exact ⟨rules', foldlM_cons_ok.2 ⟨rules₁, hfirst, hrest⟩⟩

/-! ## Statements of a run -/

/-- The rules of all statements resolve. -/
def Resolving (a : Assembly) : Prop := ∀ s ∈ a.builds, Rule.Resolves a.rules s.rule

variable {around : Surroundings} {a b : Assembly}

theorem resolving_empty : ({} : Assembly).Resolving := by
  intro s hs
  cases hs

theorem Resolving.exists_rules (h : a.Resolving) :
    ∃ rules, a.used.toList.foldlM completeRule a.rules = .ok rules := by
  refine foldlM_completeRule_of_resolves fun use huse => ?_
  have hname : use.1 ∈ a.used.keys := List.mem_map_of_mem huse
  obtain ⟨pair, hpair, heq⟩ := List.mem_map.1 (Table.mem_keys_ofPairs.1 hname)
  obtain ⟨s, hs, rfl⟩ := List.mem_map.1 hpair
  rw [← heq]
  exact h s hs

theorem Resolving.mono (h : a.Resolving) (hextends : a.Extends b) (hbuilds : b.builds = a.builds) :
    b.Resolving := by
  intro s hs
  rw [hbuilds] at hs
  exact (h s hs).mono hextends.rules

theorem Resolving.addEmitted {e : Emitted} (h : a.Resolving)
    (he : ∀ s d, e = .build s d → Rule.Resolves a.rules s.rule) (hb : a.addEmitted e = .ok b) :
    b.Resolving ∧ b.rules = a.rules := by
  rcases addEmitted_ok hb with
    ⟨text, rfl, rfl⟩ | ⟨s, d, state, rfl, hc, rfl⟩ | ⟨s, d, rfl, hc, rfl⟩
  · refine ⟨fun s hs => ?_, rfl⟩
    rw [builds_comment] at hs
    exact h s hs
  · refine ⟨fun s' hs' => ?_, rfl⟩
    rw [builds_accept] at hs'
    rcases List.mem_append.1 hs' with hs' | hs'
    · exact h s' hs'
    · rw [List.mem_singleton.1 hs']
      exact he s d rfl
  · exact ⟨h, rfl⟩

theorem Resolving.addEmitteds {es : List Emitted} (h : a.Resolving)
    (hes : ∀ s d, .build s d ∈ es → Rule.Resolves a.rules s.rule)
    (hb : es.foldlM Assembly.addEmitted a = .ok b) : b.Resolving := by
  induction es generalizing a with
  | nil =>
    cases hb
    exact h
  | cons e es ih =>
    obtain ⟨a₁, hfirst, hrest⟩ := foldlM_cons_ok.1 hb
    obtain ⟨h₁, hrules⟩ := h.addEmitted (fun s d he => hes s d (he ▸ List.mem_cons_self)) hfirst
    refine ih h₁ (fun s d hs => ?_) hrest
    rw [hrules]
    exact hes s d (List.mem_cons_of_mem e hs)

theorem resolves_of_generate {t : Task} (ht : t.UsesOwnRules around) (hreg : a.Registered t.command)
    {known : PathSet} {out : TaskOutput} (hout : t.generate around known = .ok out) {s : Statement}
    {d : Bool} (hs : .build s d ∈ out.emitted) : Rule.Resolves a.rules s.rule := by
  obtain ⟨s₀, hs₀, inputs, outputs, g, hg, hmem⟩ := Task.source_of_generate hout hs
  have hown := ht inputs outputs g hg s₀ hmem
  have hknown : s₀.rule ≠ Rule.phony → ∃ r, a.rules.get? s₀.rule = some r := by
    intro hne
    obtain ⟨r, hr⟩ := hown.resolve_left hne
    exact ⟨r, hreg.rules (s₀.rule, r) (Table.get?_eq_some_iff.1 hr)⟩
  rcases Task.rule_of_postProcess hs₀ with hrule | hrule | ⟨hne, hrule⟩
  · rw [hrule]
    exact .errorMissing
  · rw [hrule]
    by_cases hphony : s₀.rule = Rule.phony
    · rw [hphony]
      exact .phony
    · obtain ⟨r, hr⟩ := hknown hphony
      exact .known hr
  · rw [hrule]
    obtain ⟨r, hr⟩ := hknown hne
    exact .mkdir hr

theorem Resolving.addStep {step : Step} (h : a.Resolving)
    (hstep : ∀ t, step = .build t → t.UsesOwnRules around) (hb : a.addStep around step = .ok b) :
    b.Resolving := by
  cases step with
  | build t =>
    obtain ⟨⟨a₁, out⟩, hopen, hb⟩ := bind_eq_ok.1 hb
    obtain ⟨a₂, hadd, hb⟩ := bind_eq_ok.1 hb
    cases hb
    have ho := opened_of_openTask hopen
    obtain ⟨hreg, hextends⟩ := registered_of_registerCommand ho.registered
    have hemitted := fun s d (hs : .build s d ∈ out.emitted) =>
      resolves_of_generate (hstep t rfl) hreg ho.generated hs
    have hadded : a₂.Resolving := (h.mono hextends ho.builds_eq).addEmitteds hemitted hadd
    exact hadded
  | barrier name =>
    obtain ⟨-, rfl⟩ := addBarrier_ok hb
    intro s hs
    rw [builds_withBarrier] at hs
    rcases List.mem_append.1 hs with hs | hs
    · exact h s hs
    · rw [List.mem_singleton.1 hs]
      exact .phony

/-- If commands use their own rules, the rules of all statements of a run resolve. -/
theorem resolving_of_foldlM {steps : List Step}
    (hsteps : ∀ t, .build t ∈ steps → t.UsesOwnRules around) (h : a.Resolving)
    (hb : steps.foldlM (Assembly.addStep around) a = .ok b) : b.Resolving := by
  induction steps generalizing a with
  | nil =>
    cases hb
    exact h
  | cons step steps ih =>
    obtain ⟨a₁, hfirst, hrest⟩ := foldlM_cons_ok.1 hb
    refine ih (fun t ht => hsteps t (List.mem_cons_of_mem _ ht)) (h.addStep ?_ hfirst) hrest
    rintro t rfl
    exact hsteps t List.mem_cons_self

end Assembly
end DocGraph
