import DocGraph.Proofs.Graph.Addition
import DocGraph.Proofs.Graph.Rules

/-!
# DocGraph.Proofs.Graph.RuleTable

The rules and pools of a build file.

* `DefinesRule`, `DefinesPool` — what the commands of a list of steps bring along.
* `Assembly.Gains`   — a run adds exactly that to the graph.
* `Rule.Derived`     — a rule that is made from those in a table: the one for missing inputs, and the
  variants that create directories.
* `completeRule_ok`, `Assembly.Completed` — completing adds derived rules that are used, and no others.
* `GraphError.isUnknownRule` — a rule is only found to be missing once all steps are done.
* `assemble_rules`   — conflicting definitions are refused, the rules of a build file are those of the
  commands and derived ones that are used, and no rule is missing if all of them can be derived.
-/

namespace DocGraph

/-- The command of one of the steps brings a rule along. -/
def DefinesRule (steps : List Step) (name : String) (r : Rule) : Prop :=
  ∃ t, .build t ∈ steps ∧ t.command.rules.get? name = some r

/-- The command of one of the steps brings a pool along, which Ninja does not provide. -/
def DefinesPool (steps : List Step) (name : String) (p : Pool) : Prop :=
  name ≠ Pool.console ∧ ∃ t, .build t ∈ steps ∧ t.command.pools.get? name = some p

theorem definesRule_cons (step : Step) (steps : List Step) (name : String) (r : Rule) :
    DefinesRule (step :: steps) name r ↔ DefinesRule [step] name r ∨ DefinesRule steps name r := by
  simp only [DefinesRule, List.mem_cons, List.not_mem_nil, or_false, or_and_right, exists_or]

theorem definesPool_cons (step : Step) (steps : List Step) (name : String) (p : Pool) :
    DefinesPool (step :: steps) name p ↔ DefinesPool [step] name p ∨ DefinesPool steps name p := by
  simp only [DefinesPool, List.mem_cons, List.not_mem_nil, or_false, or_and_right, exists_or,
    and_or_left]

/-- A rule that is made from the rules in a table. -/
inductive Rule.Derived (rules : Table Rule) : String → Rule → Prop where
  | missing : Derived rules Rule.errorMissing Assembly.missingRule
  | mkdir {base : String} {r : Rule} (h : rules.get? base = some r) :
      Derived rules (base ++ Rule.mkdirSuffix) r.withMkdir

theorem Rule.Derived.mono {rules rules' : Table Rule} {name : String} {r : Rule}
    (h : Derived rules name r)
    (hrules : ∀ n q, rules.get? n = some q → rules'.get? n = some q) : Derived rules' name r := by
  cases h with
  | missing => exact .missing
  | mkdir h => exact .mkdir (hrules _ _ h)

/-- The rules of a build file are the alias, those of the commands and derived ones that are used,
and its pools are those of the commands. -/
structure BuildFile.Faithful (steps : List Step) (f : BuildFile) : Prop where
  closed : ∀ s ∈ f.builds, s.rule = Rule.phony ∨ ∃ r, f.rules.get? s.rule = some r
  registered : ∀ name r, DefinesRule steps name r → f.rules.get? name = some r
  derived : ∀ name r, f.rules.get? name = some r → DefinesRule steps name r ∨
    (∃ s ∈ f.builds, s.rule = name) ∧ Rule.Derived f.rules name r
  pools : ∀ name p, f.pools.get? name = some p ↔ DefinesPool steps name p

/-! ## What a run registers -/

namespace Assembly

/-- One graph has the rules and pools of another one, and those that steps define. -/
structure Gains (steps : List Step) (a b : Assembly) : Prop where
  rules : ∀ name r, b.rules.get? name = some r ↔
    a.rules.get? name = some r ∨ DefinesRule steps name r
  pools : ∀ name p, b.pools.get? name = some p ↔
    a.pools.get? name = some p ∨ DefinesPool steps name p

variable {around : Surroundings} {a b c : Assembly} {step : Step} {steps : List Step}

theorem Gains.cons (h : Gains [step] a b) (h' : Gains steps b c) : Gains (step :: steps) a c where
  rules name r := by rw [h'.rules, h.rules, or_assoc, definesRule_cons step steps]
  pools name p := by rw [h'.pools, h.pools, or_assoc, definesPool_cons step steps]

theorem gains_of_addTask {t : Task} (h : a.addTask around t = .ok b) : Gains [.build t] a b := by
  obtain ⟨out, x, hjoins, rfl⟩ := addTask_iff.1 h
  have hone : ∀ u : Task, Step.build u ∈ [Step.build t] ↔ u = t := by simp
  constructor
  · intro name r
    simp only [Table.get?_eq_some_iff, DefinesRule, hone, exists_eq_left]
    exact hjoins.suits.rules.mem_union
  · intro name p
    simp only [Table.get?_eq_some_iff, DefinesPool, hone, exists_eq_left]
    refine hjoins.suits.pools.mem_union.trans (or_congr_right ?_)
    rw [Command.ownPools, SortedBy.mem_filter, and_comm, bne_iff_ne]

theorem gains_of_addStep (h : a.addStep around step = .ok b) : Gains [step] a b := by
  cases step with
  | build t => exact gains_of_addTask h
  | barrier name =>
    obtain ⟨-, rfl⟩ := addBarrier_ok h
    have hnone : ∀ u : Task, Step.build u ∉ [Step.barrier name] := by simp
    constructor
    · intro n r
      simp only [DefinesRule, hnone, false_and, exists_false, or_false]
      rfl
    · intro n p
      simp only [DefinesPool, hnone, false_and, exists_false, and_false, or_false]
      rfl

theorem gains_of_foldlM (h : steps.foldlM (addStep around) a = .ok b) : Gains steps a b := by
  induction steps generalizing a with
  | nil =>
    cases h
    exact ⟨by simp [DefinesRule], by simp [DefinesPool]⟩
  | cons step steps ih =>
    obtain ⟨a₁, hfirst, hrest⟩ := foldlM_cons_ok.1 h
    exact (gains_of_addStep hfirst).cons (ih hrest)

theorem rules_iff_of_run (h : steps.foldlM (addStep around) {} = .ok a) {name : String} {r : Rule} :
    a.rules.get? name = some r ↔ DefinesRule steps name r :=
  ((gains_of_foldlM h).rules name r).trans (or_iff_right nofun)

theorem pools_iff_of_run (h : steps.foldlM (addStep around) {} = .ok a) {name : String} {p : Pool} :
    a.pools.get? name = some p ↔ DefinesPool steps name p :=
  ((gains_of_foldlM h).pools name p).trans (or_iff_right nofun)

/-! ## Completing rules -/

theorem eq_append_of_stripSuffix? {p s stem : String} (h : Text.stripSuffix? p s = some stem) :
    s = stem ++ p := by
  obtain ⟨cs, hcs, rfl⟩ := Option.map_eq_some_iff.1 h
  rw [List.isSuffixOf?_eq_some_iff_append_eq] at hcs
  rw [← String.toList_inj, String.toList_append, String.toList_ofList, hcs]

theorem completeRule_ok {rules rules' : Table Rule} {use : String × Statement}
    (h : completeRule rules use = .ok rules') :
    (rules' = rules ∧ (use.1 = Rule.phony ∨ ∃ r, rules.get? use.1 = some r)) ∨
      rules.get? use.1 = none ∧ ∃ r, rules' = rules.set use.1 r ∧ Rule.Derived rules use.1 r := by
  obtain ⟨name, s⟩ := use
  unfold completeRule at h
  dsimp only at h ⊢
  split at h
  · next hknown =>
    cases h
    rw [Bool.or_eq_true, decide_eq_true_eq, contains_iff_get?] at hknown
    exact .inl ⟨rfl, hknown⟩
  · next hnew =>
    simp only [Bool.or_eq_true, decide_eq_true_eq, not_or, contains_iff_get?, not_exists] at hnew
    refine .inr ⟨Option.eq_none_iff_forall_ne_some.2 hnew.2, ?_⟩
    split at h
    · next hmissing =>
      cases h
      exact ⟨_, rfl, hmissing ▸ .missing⟩
    · split at h
      · next base hbase =>
        cases h
        obtain ⟨stem, hstem, hget⟩ := Option.bind_eq_some_iff.1 hbase
        rw [eq_append_of_stripSuffix? hstem]
        exact ⟨_, rfl, .mkdir hget⟩
      · cases h

/-- All uses have rules in the second table, which has those of the first and derived ones that are
used. -/
structure Completed (uses : List (String × Statement)) (rules rules' : Table Rule) : Prop where
  kept : ∀ n r, rules.get? n = some r → rules'.get? n = some r
  closed : ∀ use ∈ uses, use.1 = Rule.phony ∨ ∃ r, rules'.get? use.1 = some r
  introduced : ∀ n r, rules'.get? n = some r →
    rules.get? n = some r ∨ n ∈ uses.map Prod.fst ∧ Rule.Derived rules' n r

theorem completed_of_completeRule {rules rules' : Table Rule} {use : String × Statement}
    (h : completeRule rules use = .ok rules') : Completed [use] rules rules' := by
  rcases completeRule_ok h with ⟨rfl, hclosed⟩ | ⟨hnew, r, rfl, hderived⟩
  · exact ⟨fun _ _ hn => hn, fun u hu => List.mem_singleton.1 hu ▸ hclosed, fun _ _ hn => .inl hn⟩
  · have hkept : ∀ n q, rules.get? n = some q → (rules.set use.1 r).get? n = some q := by
      intro n q hn
      rw [Table.get?_set, if_neg, hn]
      rintro rfl
      rw [hnew] at hn
      cases hn
    refine ⟨hkept, ?_, ?_⟩
    · intro u hu
      rw [List.mem_singleton.1 hu, Table.get?_set, if_pos rfl]
      exact .inr ⟨r, rfl⟩
    · intro n q hn
      rw [Table.get?_set] at hn
      split at hn
      · next heq =>
        cases hn
        exact .inr ⟨List.mem_singleton.2 heq, heq ▸ hderived.mono hkept⟩
      · exact .inl hn

/-- A derived rule can be the base of the next one, so that the table that counts is the last. -/
theorem Completed.cons {use : String × Statement} {uses : List (String × Statement)}
    {r₀ r₁ r₂ : Table Rule} (h : Completed [use] r₀ r₁) (h' : Completed uses r₁ r₂) :
    Completed (use :: uses) r₀ r₂ where
  kept n r hn := h'.kept n r (h.kept n r hn)
  closed u hu := by
    rcases List.mem_cons.1 hu with rfl | hu
    · exact (h.closed u (List.mem_singleton_self u)).imp_right fun ⟨r, hr⟩ => ⟨r, h'.kept _ r hr⟩
    · exact h'.closed u hu
  introduced n r hn := by
    -- what was derived from the table between is derived from the last one, which keeps it
    rcases h'.introduced n r hn with hfirst | ⟨hlater, hderived⟩
    · refine (h.introduced n r hfirst).imp_right fun ⟨hmem, hderived⟩ => ?_
      rw [List.mem_singleton.1 hmem] at hderived ⊢
      exact ⟨List.mem_cons_self, hderived.mono h'.kept⟩
    · exact .inr ⟨List.mem_cons_of_mem _ hlater, hderived⟩

theorem completed_of_foldlM {uses : List (String × Statement)} {rules rules' : Table Rule}
    (h : uses.foldlM completeRule rules = .ok rules') : Completed uses rules rules' := by
  induction uses generalizing rules with
  | nil =>
    cases h
    exact ⟨fun _ _ hn => hn, nofun, fun _ _ hn => .inl hn⟩
  | cons use uses ih =>
    obtain ⟨r₁, hfirst, hrest⟩ := foldlM_cons_ok.1 h
    exact (completed_of_completeRule hfirst).cons (ih hrest)

theorem mem_used_iff {name : String} :
    name ∈ a.used.toList.map Prod.fst ↔ ∃ s ∈ a.builds, s.rule = name := by
  refine (Table.mem_keys_ofPairs (l := a.builds.map fun s => (s.rule, s))).trans ?_
  rw [List.map_map, List.mem_map]
  rfl

theorem faithful_of_finish {tree : Tree} {settings : Settings} {file : BuildFile}
    (h : steps.foldlM (addStep around) {} = .ok a) (hfile : a.finish tree settings = .ok file) :
    file.Faithful steps := by
  obtain ⟨rules, hrules, -, rfl⟩ := finish_ok hfile
  have hcompleted := completed_of_foldlM hrules
  constructor
  · intro s hs
    obtain ⟨use, huse, hname⟩ := List.mem_map.1 (mem_used_iff.2 ⟨s, hs, rfl⟩)
    rw [← hname]
    exact hcompleted.closed use huse
  · intro name r hr
    exact hcompleted.kept name r ((rules_iff_of_run h).2 hr)
  · intro name r hr
    refine (hcompleted.introduced name r hr).imp (rules_iff_of_run h).1 ?_
    rintro ⟨hused, hderived⟩
    exact ⟨mem_used_iff.1 hused, hderived⟩
  · intro name p
    exact pools_iff_of_run h

end Assembly

/-! ## Rules that are missing -/

/-- Whether an error is about a rule that is not known. -/
def GraphError.isUnknownRule : GraphError → Bool
  | unknownRule _ _ => true
  | _ => false

variable {around : Surroundings} {a : Assembly} {e : GraphError}

theorem isUnknownRule_of_mapError {α ε : Type} {x : Except ε α} {f : ε → TaskFault} {d : String}
    (h : (x.mapError fun e => GraphError.task d (f e)) = .error e) : e.isUnknownRule = false := by
  obtain ⟨fault, -, rfl⟩ := mapError_eq_error.1 h
  rfl

theorem Task.isUnknownRule_of_generateAll {t : Task} {known : PathSet} {cs : List Correlation}
    (h : t.generateAll around known cs = .error e) : e.isUnknownRule = false := by
  induction cs with
  | nil => cases h
  | cons c cs ih =>
    rcases bind_eq_error.1 h with h | ⟨first, -, h⟩
    · rcases bind_eq_error.1 h with h | ⟨outputs, -, h⟩
      · exact isUnknownRule_of_mapError h
      · exact isUnknownRule_of_mapError h
    · rcases bind_eq_error.1 h with h | ⟨rest, -, h⟩
      · exact ih h
      · cases h

theorem Task.isUnknownRule_of_generate {t : Task} {known : PathSet}
    (h : t.generate around known = .error e) : e.isUnknownRule = false := by
  rcases bind_eq_error.1 h with h | ⟨found, -, h⟩
  · exact isUnknownRule_of_mapError h
  · split at h
    · split at h
      · cases h
      · cases h
        rfl
    · exact isUnknownRule_of_generateAll h

namespace Assembly

theorem isUnknownRule_of_register {α : Type} [DecidableEq α] {conflict : String → GraphError}
    (hconflict : ∀ name, (conflict name).isUnknownRule = false) {known : Table α}
    {l : List (String × α)} (h : l.foldlM (register conflict) known = .error e) :
    e.isUnknownRule = false := by
  refine foldlM_eq_error (P := fun e => e.isUnknownRule = false) ?_ h
  intro known entry e he
  unfold register at he
  split at he
  · split at he
    · cases he
    · cases he
      exact hconflict _
  · cases he

theorem isUnknownRule_of_registerCommand {c : Command} (h : a.registerCommand c = .error e) :
    e.isUnknownRule = false := by
  rcases bind_eq_error.1 h with h | ⟨rules, -, h⟩
  · exact isUnknownRule_of_register (fun _ => rfl) h
  · rcases bind_eq_error.1 h with h | ⟨pools, -, h⟩
    · exact isUnknownRule_of_register (fun _ => rfl) h
    · cases h

theorem isUnknownRule_of_openTask {t : Task} (h : a.openTask around t = .error e) :
    e.isUnknownRule = false := by
  unfold openTask at h
  split at h
  · cases h
    rfl
  · rcases bind_eq_error.1 h with h | ⟨a₁, -, h⟩
    · exact isUnknownRule_of_registerCommand h
    · rcases bind_eq_error.1 h with h | ⟨out, -, h⟩
      · exact Task.isUnknownRule_of_generate h
      · cases h

theorem isUnknownRule_of_addEmitted {x : Emitted} (h : a.addEmitted x = .error e) :
    e.isUnknownRule = false := by
  cases x with
  | comment text => cases h
  | build s d =>
    rcases bind_eq_error.1 h with h | ⟨claim, -, h⟩
    · rw [GraphState.claim] at h
      split at h
      · cases h
      · split at h
        · cases h
        · cases h
          rfl
    · cases claim with
      | accepted => cases h
      | duplicate => cases h

/-- No step looks at whether the rules of its statements are known. -/
theorem isUnknownRule_of_addStep {step : Step} (h : a.addStep around step = .error e) :
    e.isUnknownRule = false := by
  cases step with
  | build t =>
    rcases bind_eq_error.1 h with h | ⟨⟨a₁, out⟩, -, h⟩
    · exact isUnknownRule_of_openTask h
    · rcases bind_eq_error.1 h with h | ⟨a₂, -, h⟩
      · exact foldlM_eq_error (P := fun e => e.isUnknownRule = false)
          (fun _ _ _ => isUnknownRule_of_addEmitted) h
      · cases h
  | barrier name =>
    rw [addStep, addBarrier] at h
    split at h
    · cases h
      rfl
    · cases h

theorem Resolving.isUnknownRule_of_finish {tree : Tree} {settings : Settings} (h : a.Resolving)
    (he : a.finish tree settings = .error e) : e.isUnknownRule = false := by
  -- only a cycle is left to refuse
  obtain ⟨rules, hrules⟩ := h.exists_rules
  cases hc : Graph.onCycle? a.builds with
  | some s =>
    rw [finish_of_cycle hrules hc] at he
    cases he
    rfl
  | none =>
    rw [finish_of_acyclic hrules hc] at he
    cases he

end Assembly

/-! ## Build files -/

/-- A rule that is the alias, the one for missing inputs, one of the commands or such a one that
creates directories. -/
inductive Derivable (steps : List Step) : String → Prop where
  | phony : Derivable steps Rule.phony
  | missing : Derivable steps Rule.errorMissing
  | registered {name : String} {r : Rule} (h : DefinesRule steps name r) : Derivable steps name
  | mkdir {base : String} {r : Rule} (h : DefinesRule steps base r) :
      Derivable steps (base ++ Rule.mkdirSuffix)

theorem resolving_of_derivable {steps : List Step}
    (h : steps.foldlM (Assembly.addStep around) {} = .ok a)
    (hrules : ∀ s ∈ a.builds, Derivable steps s.rule) : a.Resolving := by
  intro s hs
  have hderivable := hrules s hs
  generalize s.rule = name at hderivable
  cases hderivable with
  | phony => exact .phony
  | missing => exact .errorMissing
  | registered hr => exact .known ((Assembly.rules_iff_of_run h).2 hr)
  | mkdir hr => exact .mkdir ((Assembly.rules_iff_of_run h).2 hr)

/-- Two different definitions of one rule or pool are refused.

The rules of a build file are those of the commands, exactly as they are defined there, and derived
ones that are used; every rule that is used is among them or is the alias. Its pools are those of the
commands.

If each statement that the graph has after the last step uses a rule that can be derived from those of
the commands, no rule is found to be missing. -/
theorem assemble_rules (around : Surroundings) (settings : Settings) (steps : List Step) :
    (∀ name r r', DefinesRule steps name r → DefinesRule steps name r' → r ≠ r' →
      ∃ e, assemble around settings steps = .error e) ∧
    (∀ name p p', DefinesPool steps name p → DefinesPool steps name p' → p ≠ p' →
      ∃ e, assemble around settings steps = .error e) ∧
    (∀ file, assemble around settings steps = .ok file → file.Faithful steps) ∧
    ((∀ a, steps.foldlM (Assembly.addStep around) {} = .ok a →
        ∀ s ∈ a.builds, Derivable steps s.rule) →
      ∀ name output, assemble around settings steps ≠ .error (.unknownRule name output)) := by
  have hfaithful : ∀ file, assemble around settings steps = .ok file → file.Faithful steps := by
    intro file h
    obtain ⟨a, ha, hfinish⟩ := bind_eq_ok.1 h
    exact Assembly.faithful_of_finish ha hfinish
  refine ⟨?_, ?_, hfaithful, ?_⟩
  · intro name r r' hr hr' hne
    cases h : assemble around settings steps with
    | error e => exact ⟨e, rfl⟩
    | ok file =>
      have hfile := hfaithful file h
      have heq := (hfile.registered name r hr).symm.trans (hfile.registered name r' hr')
      exact absurd (Option.some.inj heq) hne
  · intro name p p' hp hp' hne
    cases h : assemble around settings steps with
    | error e => exact ⟨e, rfl⟩
    | ok file =>
      have hpools := (hfaithful file h).pools name
      have heq := ((hpools p).2 hp).symm.trans ((hpools p').2 hp')
      exact absurd (Option.some.inj heq) hne
  · intro hrules name output h
    have hknown : (GraphError.unknownRule name output).isUnknownRule = false := by
      rcases bind_eq_error.1 h with h | ⟨a, ha, h⟩
      · exact foldlM_eq_error (P := fun e => e.isUnknownRule = false)
          (fun _ _ _ => Assembly.isUnknownRule_of_addStep) h
      · exact (resolving_of_derivable ha (hrules a ha)).isUnknownRule_of_finish h
    cases hknown

/-- A task that compiles something into a directory of its own, by one rule. -/
def Task.compiling (shell : String) : Task where
  command := { name := "compile", rules := .ofPairs [("compile", .ofCommand shell)]
               action? := fun _ => none }
  action := fun _ _ _ => .ok ⟨[.build { rule := "compile", outputs := [⟨"out/start"⟩] }], []⟩
  inputs := [⟨[.literal "start"], Pattern.readable_literal "start"⟩]
  builtInputsOnly := true

theorem assemble_rules_compiling :
    (∃ file, assemble .bare {} [.barrier "start", .build (.compiling "cc")] = .ok file ∧
      file.rules.keys = ["compile", "compile_mkdir"] ∧
      file.Faithful [.barrier "start", .build (.compiling "cc")]) ∧
    ∃ e, assemble .bare {} [.barrier "start", .build (.compiling "cc"), .build (.compiling "c++")] =
      .error e := by
  constructor
  · have hrun : (assemble .bare {} [.barrier "start", .build (.compiling "cc")]).map
        (fun f => f.rules.keys) = .ok ["compile", "compile_mkdir"] := by decide +kernel
    obtain ⟨file, h, hkeys⟩ := map_eq_ok.1 hrun
    exact ⟨file, h, hkeys, (assemble_rules _ _ _).2.2.1 file h⟩
  · refine (assemble_rules _ _ _).1 "compile" (.ofCommand "cc") (.ofCommand "c++") ?_ ?_ (by decide)
    · exact ⟨.compiling "cc", by simp, by decide⟩
    · exact ⟨.compiling "c++", by simp, by decide⟩

end DocGraph
