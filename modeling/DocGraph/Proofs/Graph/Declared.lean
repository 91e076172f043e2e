import DocGraph.Proofs.Graph.Cycle
import DocGraph.Proofs.Graph.Watch

/-!
# DocGraph.Proofs.Graph.Declared

When a build file declares everything once, the rule and the statement that write it again
included. These two come last, behind all checks.

* `BuildFile.statements`, `BuildFile.ruleNames` — all that the file declares.
* `Graph.LeadsBack`     — a statement uses what it makes, or what is made from that.
* `acyclic_append_iff`  — one more statement makes a cycle exactly if it leads back.
* `disjoint_statements_iff`, `nodup_ruleNames_iff`, `acyclic_statements_iff` — what the steps must
  leave alone for the file to be in order.
* `declared_once_iff`   — the consequences for a build file.
-/

namespace DocGraph

namespace BuildFile

/-- All build statements, with the one for the build file itself at the end. -/
def statements (f : BuildFile) : List Statement := f.builds ++ f.regenerate.toList.map Prod.snd

/-- The names of all rules that are declared, in order. -/
def ruleNames (f : BuildFile) : List String :=
  f.rules.keys ++ f.regenerate.toList.map fun _ => regenerateName

variable {f : BuildFile} {g : Rule × Statement}

theorem statements_of_none (h : f.regenerate = none) : f.statements = f.builds := by
  rw [statements, h, Option.toList_none, List.map_nil, List.append_nil]

theorem statements_of_some (h : f.regenerate = some g) : f.statements = f.builds ++ [g.2] := by
  rw [statements, h, Option.toList_some, List.map_singleton]

end BuildFile

/-! ## One more statement -/

namespace Graph

/-- The statement uses what it makes, or what statements of `l` make from that. -/
def LeadsBack (l : List Statement) (w : Statement) : Prop :=
  (∃ p ∈ w.allInputs, w.makes p = true) ∨
  ∃ r ∈ l, ∃ q ∈ l, (∃ p ∈ r.allInputs, w.makes p = true) ∧
    Relation.ReflTransGen (Supplies l) r q ∧ ∃ p ∈ w.allInputs, q.makes p = true

variable {l : List Statement} {r s w : Statement}

theorem mem_concat_iff : s ∈ l ++ [w] ↔ s = w ∨ s ∈ l := by
  rw [List.mem_append, List.mem_singleton, or_comm]

theorem Supplies.concat (h : Supplies l r s) : Supplies (l ++ [w]) r s :=
  h.mono fun _ hs => List.mem_append_left _ hs

/-- A link that touches the last statement on neither side is there without it. -/
theorem Supplies.of_concat (h : Supplies (l ++ [w]) r s) (hr : r ≠ w) (hs : s ≠ w) :
    Supplies l r s :=
  ⟨(mem_concat_iff.1 h.1).resolve_left hr, (mem_concat_iff.1 h.2.1).resolve_left hs, h.2.2⟩

theorem onCycle_of_leadsBack (h : LeadsBack l w) : OnCycle (l ++ [w]) w := by
  have hw : w ∈ l ++ [w] := List.mem_append_right _ (List.mem_singleton_self w)
  have hl : ∀ s ∈ l, s ∈ l ++ [w] := fun _ hs => List.mem_append_left _ hs
  rcases h with hself | ⟨r, hr, q, hq, hwr, hrq, hqw⟩
  · exact .single ⟨hw, hw, hself⟩
  · have hchain : Relation.ReflTransGen (Supplies (l ++ [w])) r q :=
      Relation.ReflTransGen.mono (fun _ _ => Supplies.concat) r q hrq
    exact .tail' (.head ⟨hw, hl r hr, hwr⟩ hchain) ⟨hl q hq, hw, hqw⟩

/-- A chain of links is there without the last statement, or passes it. -/
theorem chain_cases (h : Relation.TransGen (Supplies (l ++ [w])) r s) :
    Relation.TransGen (Supplies l) r s ∨
      Relation.ReflTransGen (Supplies (l ++ [w])) r w ∧
        Relation.ReflTransGen (Supplies (l ++ [w])) w s := by
  by_cases hr : r = w
  · rw [hr] at h ⊢
    exact .inr ⟨.refl, h.to_reflTransGen⟩
  -- a link is an old one unless it touches the last statement, so the first such link decides
  · induction h with
    | @single s hrs =>
      by_cases hs : s = w
      · rw [hs] at hrs ⊢
        exact .inr ⟨.single hrs, .refl⟩
      · exact .inl (.single (hrs.of_concat hr hs))
    | @tail q s hrq hqs ih =>
      by_cases hs : s = w
      · rw [hs] at hqs ⊢
        exact .inr ⟨hrq.to_reflTransGen.tail hqs, .refl⟩
      · rcases ih with hold | ⟨hrw, hwq⟩
        · by_cases hq : q = w
          · rw [hq] at hrq hqs
            exact .inr ⟨hrq.to_reflTransGen, .single hqs⟩
          · exact .inl (hold.tail (hqs.of_concat hq hs))
        · exact .inr ⟨hrw, hwq.tail hqs⟩

/-- A chain to the last statement comes to it by one that supplies it. -/
theorem exists_supplier_of_chain (h : Relation.TransGen (Supplies (l ++ [w])) r w) (hr : r ≠ w) :
    ∃ q ∈ l, Relation.ReflTransGen (Supplies l) r q ∧ ∃ p ∈ w.allInputs, q.makes p = true := by
  induction h using Relation.TransGen.head_induction_on with
  | single hrw => exact ⟨_, (mem_concat_iff.1 hrw.1).resolve_left hr, .refl, hrw.2.2⟩
  | @head r s hrs _ ih =>
    by_cases hs : s = w
    · rw [hs] at hrs
      exact ⟨_, (mem_concat_iff.1 hrs.1).resolve_left hr, .refl, hrs.2.2⟩
    · obtain ⟨q, hq, hsq, hqw⟩ := ih hs
      exact ⟨q, hq, .head (hrs.of_concat hr hs) hsq, hqw⟩

theorem leadsBack_of_onCycle (h : OnCycle (l ++ [w]) w) : LeadsBack l w := by
  obtain ⟨s, hws, hsw⟩ := Relation.TransGen.head'_iff.1 h
  by_cases hs : s = w
  · rw [hs] at hws
    exact .inl hws.2.2
  · have hmem := (mem_concat_iff.1 hws.2.1).resolve_left hs
    rcases Relation.reflTransGen_iff_eq_or_transGen.1 hsw with he | hsw
    · exact absurd he.symm hs
    · obtain ⟨q, hq, hsq, hqw⟩ := exists_supplier_of_chain hsw hs
      exact .inr ⟨s, hmem, q, hq, hws.2.2, hsq, hqw⟩

/-- One more statement makes a cycle exactly if it leads back. -/
theorem acyclic_append_iff (h : ¬∃ r, OnCycle l r) :
    (¬∃ r, OnCycle (l ++ [w]) r) ↔ ¬LeadsBack l w := by
  refine not_congr ⟨?_, fun hw => ⟨w, onCycle_of_leadsBack hw⟩⟩
  rintro ⟨r, hr⟩
  rcases chain_cases hr with hold | ⟨hrw, hwr⟩
  · exact absurd ⟨r, hold⟩ h
  · exact leadsBack_of_onCycle ((Relation.TransGen.trans_right hwr hr).trans_left hrw)

end Graph

/-! ## The rule and the statement for the build file -/

variable {around : Surroundings} {settings : Settings} {steps : List Step} {file : BuildFile}

/-- No two statements of the whole file make the same exactly if none makes the build file. -/
theorem disjoint_statements_iff
    (hbuilds : file.builds.Pairwise fun r s => ∀ p, ¬(r.makes p = true ∧ s.makes p = true))
    (hpair : ∀ g, file.regenerate = some g → g.2.allOutputs = [settings.buildFile]) :
    (file.statements.Pairwise fun r s => ∀ p, ¬(r.makes p = true ∧ s.makes p = true)) ↔
      ∀ g, file.regenerate = some g → ∀ s ∈ file.builds, s.makes settings.buildFile = false := by
  cases hg : file.regenerate with
  | none =>
    rw [BuildFile.statements_of_none hg]
    exact ⟨fun _ _ h => (nomatch h), fun _ => hbuilds⟩
  | some g =>
    have hmakes : ∀ p, g.2.makes p = true ↔ settings.buildFile.Same p := by
      intro p
      rw [Statement.makes_iff, hpair g hg]
      simp [Path.Same]
    rw [BuildFile.statements_of_some hg, List.pairwise_append]
    constructor
    · rintro ⟨-, -, hlast⟩ _ _ s hs
      rw [← Bool.not_eq_true]
      intro hsp
      exact hlast s hs g.2 (List.mem_singleton_self _) _ ⟨hsp, (hmakes _).2 rfl⟩
    · intro h
      refine ⟨hbuilds, List.pairwise_singleton _ _, ?_⟩
      rintro s hs w hw p ⟨hsp, hwp⟩
      cases List.mem_singleton.1 hw
      rw [← Statement.makes_congr ((hmakes p).1 hwp), h g rfl s hs] at hsp
      cases hsp

/-- No rule is declared twice exactly if no other rule has the name of the last one. -/
theorem nodup_ruleNames_iff :
    file.ruleNames.Nodup ↔
      ∀ g, file.regenerate = some g → BuildFile.regenerateName ∉ file.rules.keys := by
  rw [BuildFile.ruleNames]
  cases file.regenerate with
  | none =>
    rw [Option.toList_none, List.map_nil, List.append_nil]
    exact ⟨fun _ _ h => (nomatch h), fun _ => file.rules.nodup_keys⟩
  | some g =>
    rw [Option.toList_some, List.map_singleton, ← List.concat_eq_append, List.nodup_concat]
    exact ⟨fun h _ _ => h.1, fun h => ⟨h g rfl, file.rules.nodup_keys⟩⟩

/-- The whole file is without a cycle exactly if writing it again does not lead back to it. -/
theorem acyclic_statements_iff (hbuilds : ¬∃ r, Graph.OnCycle file.builds r) :
    (¬∃ r, Graph.OnCycle file.statements r) ↔
      ∀ g, file.regenerate = some g → ¬Graph.LeadsBack file.builds g.2 := by
  cases hg : file.regenerate with
  | none =>
    rw [BuildFile.statements_of_none hg]
    exact ⟨fun _ _ h => (nomatch h), fun _ => hbuilds⟩
  | some g =>
    rw [BuildFile.statements_of_some hg, Graph.acyclic_append_iff hbuilds]
    refine ⟨?_, fun h => h g rfl⟩
    rintro h _ ⟨⟩
    exact h

/-- Of a build file, with the rule and the statement that write it again,
* the statement has the build file as its output;
* no two statements make the same exactly if, should the file be written again, no statement of a
  task makes it;
* no rule is declared twice exactly if, in this case, no command has a rule of this name;
* there is no cycle exactly if, in this case, no watched path is the build file or made from it. -/
theorem declared_once_iff (h : assemble around settings steps = .ok file) :
    (∀ g, file.regenerate = some g →
      g.2.rule = BuildFile.regenerateName ∧ g.2.allOutputs = [settings.buildFile]) ∧
    ((file.statements.Pairwise fun r s => ∀ p, ¬(r.makes p = true ∧ s.makes p = true)) ↔
      ∀ g, file.regenerate = some g → ∀ s ∈ file.builds, s.makes settings.buildFile = false) ∧
    (file.ruleNames.Nodup ↔
      ∀ g, file.regenerate = some g → BuildFile.regenerateName ∉ file.rules.keys) ∧
    ((¬∃ r, Graph.OnCycle file.statements r) ↔
      ∀ g, file.regenerate = some g → ¬Graph.LeadsBack file.builds g.2) := by
  obtain ⟨m, hm, -, hfinish⟩ := exists_over_of_assemble h
  obtain ⟨rules, -, hnone, rfl⟩ := Assembly.finish_ok hfinish
  have hacyclic := (Graph.onCycle?_eq_none Digraph.correct_toposort hm.uniqueProducer.disjoint).1 hnone
  have hpair : ∀ g, m.assembly.regeneration around.tree settings = some g →
      g.2.rule = BuildFile.regenerateName ∧ g.2.allOutputs = [settings.buildFile] :=
    fun _ => regeneration_some
  exact ⟨hpair, disjoint_statements_iff hm.uniqueProducer.disjoint fun g hg => (hpair g hg).2,
    nodup_ruleNames_iff, acyclic_statements_iff hacyclic⟩

theorem declared_once_iff_consulting : ∃ file,
    assemble ⟨.oneSource, none⟩ {} [.barrier "start", .build .consulting] = .ok file ∧
    file.regenerate.isSome = true ∧
    (file.statements.Pairwise fun r s => ∀ p, ¬(r.makes p = true ∧ s.makes p = true)) ∧
    file.ruleNames.Nodup ∧ ¬∃ r, Graph.OnCycle file.statements r := by
  have hrun : (assemble ⟨.oneSource, none⟩ {} [.barrier "start", .build .consulting]).map
      (fun f => (f.regenerate.isSome, f.builds.all fun s => !s.makes ⟨"build.ninja"⟩,
        f.builds.all fun s => s.allInputs.isEmpty, f.rules.keys,
        f.regenerate.all fun g => g.2.allInputs.all fun p => !g.2.makes p)) =
      .ok (true, true, true, ["consult"], true) := by decide +kernel
  obtain ⟨file, h, hfacts⟩ := map_eq_ok.1 hrun
  simp only [Prod.mk.injEq] at hfacts
  obtain ⟨hsome, hmakes, hinputs, hkeys, hself⟩ := hfacts
  obtain ⟨-, hdisjoint, hnodup, hacyclic⟩ := declared_once_iff h
  refine ⟨file, h, hsome, hdisjoint.2 ?_, hnodup.2 ?_, hacyclic.2 ?_⟩
  · intro g _ s hs
    simpa using List.all_eq_true.1 hmakes s hs
  · intro g _
    rw [hkeys]
    decide
  · rintro g hg (⟨p, hp, hgp⟩ | ⟨r, hr, -, -, ⟨p, hp, -⟩, -⟩)
    · rw [hg, Option.all_some, List.all_eq_true] at hself
      exact absurd hgp (by simpa using hself p hp)
    · rw [List.isEmpty_iff.1 (List.all_eq_true.1 hinputs r hr)] at hp
      cases hp

/-- A task that makes the build file by a rule of its own, and consults it. -/
def Task.overreaching : Task where
  command := { name := "overreach", rules := .ofPairs [("regenerate", .ofCommand "make")]
               action? := fun _ => none }
  action := fun _ _ _ => .ok ⟨[.build { rule := "regenerate", outputs := [⟨"build.ninja"⟩] }],
    [⟨"build.ninja"⟩]⟩
  inputs := [⟨[.literal "start"], Pattern.readable_literal "start"⟩]
  builtInputsOnly := true

/-- The statement that writes the build file again when this file itself is watched. -/
def Statement.watchingItself : Statement :=
  { rule := "regenerate", outputs := [⟨"build.ninja"⟩], implicit := [⟨"build.ninja"⟩] }

/-- A task can make the build file, declare the rule for it, and have it watched. -/
theorem declares_twice : ∃ file,
    assemble .bare {} [.barrier "start", .build .overreaching] = .ok file ∧
    ¬(file.statements.Pairwise fun r s => ∀ p, ¬(r.makes p = true ∧ s.makes p = true)) ∧
    ¬file.ruleNames.Nodup ∧ ∃ r, Graph.OnCycle file.statements r := by
  have hrun : (assemble .bare {} [.barrier "start", .build .overreaching]).map
      (fun f => (f.ruleNames, f.statements)) = .ok (["regenerate", "regenerate"], [
        { rule := "phony", outputs := [⟨"start"⟩] },
        { rule := "regenerate", outputs := [⟨"build.ninja"⟩] }, .watchingItself]) := by
    decide +kernel
  obtain ⟨file, h, hfacts⟩ := map_eq_ok.1 hrun
  obtain ⟨hnames, hstatements⟩ := Prod.mk.inj hfacts
  have hmem : .watchingItself ∈ file.statements := by
    rw [hstatements]
    exact .tail _ (.tail _ (.head _))
  refine ⟨file, h, ?_, ?_, .watchingItself, .single ⟨hmem, hmem, ⟨"build.ninja"⟩, ?_, ?_⟩⟩
  · rw [hstatements]
    intro hpairwise
    have hrest := (List.pairwise_cons.1 hpairwise).2
    have hlast := (List.pairwise_cons.1 hrest).1 _ List.mem_cons_self ⟨"build.ninja"⟩
    exact hlast ⟨by decide +kernel, by decide +kernel⟩
  · rw [hnames]
    decide
  · decide
  · decide +kernel

end DocGraph
