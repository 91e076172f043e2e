import DocGraph.Proofs.Graph.Addition
import DocGraph.Proofs.Graph.Cycle
import DocGraph.Proofs.Graph.Frame
import DocGraph.Proofs.Graph.Repetition

/-!
# DocGraph.Proofs.Graph.Commutation

Two tasks in either order.

* `Task.Independent`   — neither task makes what the other one matches or makes.
* `Joins.after_iff`    — so what the second one adds does not depend on the first, as long as their
  commands get along.
* `Joins.swap`         — which is the same from both sides.
* `bare_joined_joined` — no later step can tell the order. Only entries and the spelling of consulted
  paths show it.
* `Assembly.Twin`      — graphs that differ in nothing else. `Twin.finish`: they are finished alike.
* `SwapsBlocks`, `exists_twin` — two orders of the tasks lead to twins.
* `assemble_swapped`   — the consequences for the build file.
-/

namespace DocGraph

/-- Where some outputs are known, no output of the statements of one task matches an input of the
other one, and none is an output of both. -/
structure Task.Independent (around : Surroundings) (known : PathSet) (t u : Task) : Prop where
  right : ∀ out, t.generate around known = .ok out →
    ∀ o ∈ out.outputs, ∀ p ∈ u.inputs, p.isMatch o.text = false
  left : ∀ out, u.generate around known = .ok out →
    ∀ o ∈ out.outputs, ∀ p ∈ t.inputs, p.isMatch o.text = false
  apart : ∀ out out', t.generate around known = .ok out → u.generate around known = .ok out' →
    ∀ o ∈ out.outputs, ∀ o' ∈ out'.outputs, ¬o.Same o'

theorem Task.Independent.symm {around : Surroundings} {known : PathSet} {t u : Task}
    (h : t.Independent around known u) : u.Independent around known t where
  right := h.left
  left := h.right
  apart out out' hu ht o ho o' ho' hsame := h.apart out' out ht hu o' ho' o ho (Eq.symm hsame)

theorem Task.independent_of_outputs {around : Surroundings} {known : PathSet} {t u : Task}
    {l l' : List Path} (ht : (t.generate around known).map TaskOutput.outputs = .ok l)
    (hu : (u.generate around known).map TaskOutput.outputs = .ok l')
    (hright : ∀ o ∈ l, ∀ p ∈ u.inputs, p.isMatch o.text = false)
    (hleft : ∀ o ∈ l', ∀ p ∈ t.inputs, p.isMatch o.text = false)
    (hapart : ∀ o ∈ l, ∀ o' ∈ l', ¬o.Same o') : t.Independent around known u := by
  have houtputs : ∀ {v : Task} {l : List Path} {out : TaskOutput},
      (v.generate around known).map TaskOutput.outputs = .ok l →
        v.generate around known = .ok out → out.outputs = l := by
    intro v l out hl hout
    rw [hout] at hl
    exact Except.ok.inj hl
  refine ⟨fun out hout => ?_, fun out hout => ?_, fun out out' hout hout' => ?_⟩
  · rw [houtputs ht hout]
    exact hright
  · rw [houtputs hu hout]
    exact hleft
  · rw [houtputs ht hout, houtputs hu hout']
    exact hapart

/-- Paths that are consulted for both tasks are spelled alike. -/
def Task.SpellAlike (around : Surroundings) (known : PathSet) (t u : Task) : Prop :=
  ∀ out out', t.generate around known = .ok out → u.generate around known = .ok out' →
    ∀ p ∈ out.gendeps, ∀ q ∈ out'.gendeps, p.Same q → p = q

/-- Outputs that a task does not match make no difference to what it generates. -/
theorem Task.generate_insertMany {around : Surroundings} {t : Task} (hignore : t.ignoreMissing = [])
    (known : PathSet) {l : List Path} (h : ∀ o ∈ l, ∀ p ∈ t.inputs, p.isMatch o.text = false) :
    t.generate around (known.insertMany l) = t.generate around known := by
  refine (generate_of_matchInputs hignore (fun _ _ => rfl) ?_).symm
  refine matchInputs_of_known (fun p hp => SortedBy.mem_insertMany_of_mem hp l) ?_
  intro path hpath hnew
  exact h ⟨path⟩ ((SortedBy.mem_of_mem_insertMany hpath).resolve_left hnew)

/-- The rule and the statement that write the build file again, but for what is watched. -/
def BuildFile.rewriting (f : BuildFile) : Option (Rule × Statement) :=
  f.regenerate.map fun r => (r.1, { r.2 with implicit := [] })

/-- Two build files that differ in nothing but entries, the spelling of consulted paths, and what is
watched. -/
structure BuildFile.Resembles (f g : BuildFile) : Prop where
  rules_eq : f.rules = g.rules
  pools_eq : f.pools = g.pools
  defaults_eq : f.defaults = g.defaults
  gendeps : List.Forall₂ Path.Same f.gendeps g.gendeps
  rewriting_eq : f.rewriting = g.rewriting

/-! ## The swap -/

namespace Assembly

variable {around : Surroundings} {a : Assembly} {t u : Task} {out out' : TaskOutput}
  {x y : Addition}

/-- What a task adds after an independent one is what it would add before. -/
theorem Joins.after_iff (hu : u.ignoreMissing = [])
    (hind : t.Independent around a.state.outputs u) (ht : Joins around a t out x) :
    Joins around (a.joined t.command x out.gendeps) u out' y ↔
      Joins around a u out' y ∧ t.command.Fits u.command := by
  have hgenerate : u.generate around (a.state.outputs.insertMany x.outputs) =
      u.generate around a.state.outputs :=
    u.generate_insertMany hu _ fun o ho => hind.right out ht.generated o (ht.adds.outputs o ho)
  have hknown : u.generate around a.state.outputs = .ok out' → ∀ p ∈ out'.outputs,
      (a.state.outputs.insertMany x.outputs).contains p.components =
        a.state.outputs.contains p.components := by
    intro hout' p hp
    rw [Bool.eq_iff_iff, SortedBy.contains_insertMany, or_iff_left]
    rintro ⟨o, ho, hsame⟩
    exact hind.apart out out' ht.generated hout' o (ht.adds.outputs o ho) p hp hsame
  constructor
  · rintro ⟨hdeclared, hsuits, hout', hadds⟩
    obtain ⟨hsuits, hfits⟩ := ht.suits.joined_iff.1 hsuits
    have hout' := hgenerate.symm.trans hout'
    exact ⟨⟨hdeclared, hsuits, hout', hadds.of_agree (hknown hout')⟩, hfits⟩
  · rintro ⟨⟨hdeclared, hsuits, hout', hadds⟩, hfits⟩
    exact ⟨hdeclared, ht.suits.joined_iff.2 ⟨hsuits, hfits⟩, hgenerate.trans hout',
      hadds.of_agree fun p hp => (hknown hout' p hp).symm⟩

/-- If a task goes through after an independent one, they go through in the other order too, and add
the same. -/
theorem Joins.swap (hti : t.ignoreMissing = []) (hui : u.ignoreMissing = [])
    (hind : t.Independent around a.state.outputs u) (ht : Joins around a t out x)
    (hu : Joins around (a.joined t.command x out.gendeps) u out' y) :
    Joins around a u out' y ∧ Joins around (a.joined u.command y out'.gendeps) t out x ∧
      t.command.Fits u.command := by
  obtain ⟨hu, hfits⟩ := (ht.after_iff hui hind).1 hu
  exact ⟨hu, (hu.after_iff hti hind.symm).2 ⟨ht, hfits.symm⟩, hfits⟩

/-- No step can tell in which order two independent tasks were added. -/
theorem bare_joined_joined (hind : t.Independent around a.state.outputs u)
    (ht : Joins around a t out x) (hu : Joins around a u out' y)
    (hfits : t.command.Fits u.command) :
    ((a.joined t.command x out.gendeps).joined u.command y out'.gendeps).bare =
      ((a.joined u.command y out'.gendeps).joined t.command x out.gendeps).bare := by
  have hapart : ∀ o ∈ out.outputs, ∀ o' ∈ out'.outputs, o.components = o'.components → o = o' :=
    fun o ho o' ho' hsame => absurd hsame (hind.apart out out' ht.generated hu.generated o ho o' ho')
  have houtputs : (a.state.outputs.insertMany x.outputs).insertMany y.outputs =
      (a.state.outputs.insertMany y.outputs).insertMany x.outputs :=
    SortedBy.insertMany_comm _ fun o ho o' ho' =>
      hapart o (ht.adds.outputs o ho) o' (hu.adds.outputs o' ho')
  have hdefaults : (a.state.defaults.insertMany x.defaults).insertMany y.defaults =
      (a.state.defaults.insertMany y.defaults).insertMany x.defaults :=
    SortedBy.insertMany_comm _ fun o ho o' ho' =>
      hapart o (ht.adds.defaults o ho) o' (hu.adds.defaults o' ho')
  simp only [bare, joined, consult, plus, serving, houtputs, hdefaults,
    hfits.rules.union_right_comm, hfits.pools.union_right_comm]

/-! ## The last step -/

/-- Two graphs that only differ in the order of entries and in how consulted paths are spelled. -/
structure Twin (a b : Assembly) : Prop where
  outputs_eq : a.state.outputs = b.state.outputs
  defaults_eq : a.state.defaults = b.state.defaults
  rules_eq : a.rules = b.rules
  pools_eq : a.pools = b.pools
  gendeps : ∀ k, a.state.gendeps.contains k = b.state.gendeps.contains k
  builds : ∀ s, s ∈ a.builds ↔ s ∈ b.builds

variable {b : Assembly}

theorem completeRule_of_name {rules r : Table Rule} {name : String} {s : Statement}
    (h : completeRule rules (name, s) = .ok r) (s' : Statement) :
    completeRule rules (name, s') = .ok r := by
  unfold completeRule at h ⊢
  dsimp only at h ⊢
  split at h
  · next hknown =>
    rw [if_pos hknown, h]
  · next hknown =>
    rw [if_neg hknown]
    split at h
    · next hmissing =>
      rw [if_pos hmissing, h]
    · next hmissing =>
      rw [if_neg hmissing]
      split at h
      · exact h
      · cases h

/-- How rules are completed depends on the names of those in use only. -/
theorem foldlM_completeRule_of_names {rules r : Table Rule} {l l' : List (String × Statement)}
    (hl : l.map Prod.fst = l'.map Prod.fst) (h : l.foldlM completeRule rules = .ok r) :
    l'.foldlM completeRule rules = .ok r := by
  induction l generalizing l' rules with
  | nil =>
    rw [List.map_nil, eq_comm, List.map_eq_nil_iff] at hl
    rw [hl, h]
  | cons use l ih =>
    obtain ⟨⟨name, s'⟩, l', rfl, hname, htail⟩ := List.map_eq_cons_iff.1 hl.symm
    obtain ⟨rules₁, hfirst, hrest⟩ := foldlM_cons_ok.1 h
    cases hname
    exact foldlM_cons_ok.2 ⟨rules₁, completeRule_of_name hfirst s', ih htail.symm hrest⟩

theorem Twin.used_names (h : a.Twin b) : a.used.toList.map Prod.fst = b.used.toList.map Prod.fst := by
  refine SortedBy.map_key_eq fun name => ?_
  rw [Bool.eq_iff_iff, used, used, Table.ofPairs, Table.ofPairs, SortedBy.contains_putMany,
    SortedBy.contains_putMany]
  simp only [List.mem_map, h.builds]

theorem Twin.gendeps_components (h : a.Twin b) :
    a.state.gendeps.toList.map Path.components = b.state.gendeps.toList.map Path.components :=
  SortedBy.map_key_eq h.gendeps

theorem Twin.rewriting_eq (h : a.Twin b) (tree : Tree) (settings : Settings)
    (rules : Table Rule) :
    (a.toFile tree settings rules).rewriting = (b.toFile tree settings rules).rewriting := by
  have hempty : a.state.gendeps.isEmpty = b.state.gendeps.isEmpty := by
    have hlen := congrArg List.isEmpty h.gendeps_components
    rwa [List.isEmpty_map, List.isEmpty_map] at hlen
  unfold BuildFile.rewriting toFile regeneration
  rw [hempty]
  split
  · rfl
  · rfl

/-- Twins are finished alike. -/
theorem Twin.finish (h : a.Twin b) (hacyclic : ¬∃ r, Graph.OnCycle a.builds r) {tree : Tree}
    {settings : Settings} {f : BuildFile} (hf : a.finish tree settings = .ok f) :
    ∃ g, b.finish tree settings = .ok g ∧ f.Resembles g ∧
      f.entries = a.entries ∧ g.entries = b.entries ∧
      (a.state.gendeps = b.state.gendeps → f.gendeps = g.gendeps ∧ f.regenerate = g.regenerate) := by
  obtain ⟨rules, hrules, -, rfl⟩ := finish_ok hf
  have hb : b.finish tree settings = .ok (b.toFile tree settings rules) := by
    refine finish_of_acyclic ?_ ?_
    · rw [← h.rules_eq]
      exact foldlM_completeRule_of_names h.used_names hrules
    · refine Graph.onCycle?_of_acyclic Digraph.correct_toposort ?_
      rintro ⟨r, hr⟩
      exact hacyclic ⟨r, hr.mono fun s => (h.builds s).2⟩
  have hgendeps := h.gendeps_components
  rw [← List.forall₂_eq_eq_eq, List.forall₂_map_left_iff, List.forall₂_map_right_iff] at hgendeps
  refine ⟨_, hb, ⟨rfl, h.pools_eq, congrArg SortedBy.toList h.defaults_eq, hgendeps,
    h.rewriting_eq tree settings rules⟩, rfl, rfl, fun heq => ?_⟩
  refine ⟨congrArg SortedBy.toList heq, ?_⟩
  rw [toFile, toFile, regeneration, regeneration, heq, h.outputs_eq]

/-! ## Whole runs -/

/-- Two lists of entries differ only in the order of what two tasks add to a graph. -/
def SwapsBlocks (around : Surroundings) (a : Assembly) (t u : Task) (l l' : List Entry) : Prop :=
  ∃ aₜ aᵤ x y after, a.addTask around t = .ok aₜ ∧ aₜ.entries = a.entries ++ x ∧
    a.addTask around u = .ok aᵤ ∧ aᵤ.entries = a.entries ++ y ∧
    l = a.entries ++ x ++ y ++ after ∧ l' = a.entries ++ y ++ x ++ after

theorem SwapsBlocks.mem_iff {l l' : List Entry} (h : SwapsBlocks around a t u l l') (e : Entry) :
    e ∈ l ↔ e ∈ l' := by
  obtain ⟨_, _, x, y, after, -, -, -, -, rfl, rfl⟩ := h
  simp only [List.mem_append]
  tauto

theorem Twin.extend {c d : Assembly}
    (hgendeps : ∀ k, c.state.gendeps.contains k = d.state.gendeps.contains k)
    (hentries : ∀ e, e ∈ c.entries ↔ e ∈ d.entries) (rest : Assembly) :
    (c.extend rest).Twin (d.extend rest) := by
  refine ⟨rfl, rfl, rfl, rfl, fun k => ?_, fun s => ?_⟩
  · rw [Assembly.extend, Assembly.extend, Bool.eq_iff_iff, SortedBy.contains_union,
      SortedBy.contains_union, hgendeps]
  · simp only [Assembly.extend, Assembly.builds, List.mem_filterMap, List.mem_append, hentries]

/-- If two independent tasks go through one after the other, so they do in the other order, and the
graphs at the end of the run are twins. -/
theorem exists_twin {first rest : List Step} {c : Assembly} (hti : t.ignoreMissing = [])
    (hui : u.ignoreMissing = []) (ha : first.foldlM (addStep around) {} = .ok a)
    (hind : t.Independent around a.state.outputs u)
    (h : (first ++ [Step.build t, Step.build u] ++ rest).foldlM (addStep around) {} = .ok c) :
    ∃ d, (first ++ [Step.build u, Step.build t] ++ rest).foldlM (addStep around) {} = .ok d ∧
      c.Twin d ∧ SwapsBlocks around a t u c.entries d.entries ∧
      (t.SpellAlike around a.state.outputs u → c.state.gendeps = d.state.gendeps) := by
  rw [List.append_assoc, foldlM_append_ok] at h
  obtain ⟨_, hfirst, h⟩ := h
  cases hfirst.symm.trans ha
  obtain ⟨_, hadd, h⟩ := foldlM_cons_ok.1 h
  obtain ⟨_, hadd', hrest⟩ := foldlM_cons_ok.1 h
  obtain ⟨out, x, ht, rfl⟩ := addTask_iff.1 hadd
  obtain ⟨out', y, hu', rfl⟩ := addTask_iff.1 hadd'
  obtain ⟨hu, ht', hfits⟩ := ht.swap hti hui hind hu'
  -- the rest of the run puts the same behind either graph
  obtain ⟨e, rfl, hrest'⟩ := foldlM_addStep_of_bare (bare_joined_joined hind ht hu hfits) hrest
  have hblocks : SwapsBlocks around a t u (a.entries ++ x.entries ++ y.entries ++ e.entries)
      (a.entries ++ y.entries ++ x.entries ++ e.entries) :=
    ⟨_, _, x.entries, y.entries, e.entries, addTask_iff.2 ⟨out, x, ht, rfl⟩, rfl,
      addTask_iff.2 ⟨out', y, hu, rfl⟩, rfl, rfl, rfl⟩
  refine ⟨((a.joined u.command y out'.gendeps).joined t.command x out.gendeps).extend e, ?_,
    .extend ?_ ?_ e, hblocks, ?_⟩
  · rw [List.append_assoc, foldlM_append_ok]
    refine ⟨a, ha, foldlM_cons_ok.2 ⟨_, addTask_iff.2 ⟨out', y, hu, rfl⟩, ?_⟩⟩
    exact foldlM_cons_ok.2 ⟨_, addTask_iff.2 ⟨out, x, ht', rfl⟩, hrest'⟩
  · intro k
    rw [Bool.eq_iff_iff]
    simp only [joined, consult, plus, serving, SortedBy.contains_insertMany]
    exact or_right_comm
  · intro entry
    simp only [joined, consult, plus, serving, List.mem_append]
    exact or_right_comm
  · intro halike
    have hgendeps : (a.state.gendeps.insertMany out.gendeps).insertMany out'.gendeps =
        (a.state.gendeps.insertMany out'.gendeps).insertMany out.gendeps :=
      SortedBy.insertMany_comm _ (halike out out' ht.generated hu.generated)
    exact congrArg (fun s => SortedBy.union s e.state.gendeps) hgendeps

end Assembly

/-- Two tasks at their turn after some steps, whose build files differ in the order of the two. -/
structure Swapped (around : Surroundings) (first : List Step) (t u : Task) (f g : BuildFile) : Prop
    where
  resembles : f.Resembles g
  blocks : ∀ a, first.foldlM (Assembly.addStep around) {} = .ok a →
    Assembly.SwapsBlocks around a t u f.entries g.entries
  alike : (∀ a, first.foldlM (Assembly.addStep around) {} = .ok a →
    t.SpellAlike around a.state.outputs u) → f.gendeps = g.gendeps ∧ f.regenerate = g.regenerate

section

variable {around : Surroundings} {first : List Step} {t u : Task}

theorem exists_swapped {settings : Settings} {rest : List Step} {f : BuildFile}
    (hti : t.ignoreMissing = []) (hui : u.ignoreMissing = [])
    (hind : ∀ a, first.foldlM (Assembly.addStep around) {} = .ok a →
      t.Independent around a.state.outputs u)
    (h : assemble around settings (first ++ [.build t, .build u] ++ rest) = .ok f) :
    ∃ g, assemble around settings (first ++ [.build u, .build t] ++ rest) = .ok g ∧
      Swapped around first t u f g := by
  obtain ⟨c, hc, hf⟩ := bind_eq_ok.1 h
  obtain ⟨_, hpair, -⟩ := foldlM_append_ok.1 hc
  obtain ⟨a, ha, -⟩ := foldlM_append_ok.1 hpair
  obtain ⟨d, hd, htwin, hblocks, halike⟩ := Assembly.exists_twin hti hui ha (hind a ha) hc
  have hacyclic := Assembly.acyclic_of_finish Digraph.correct_toposort hc hf
  obtain ⟨g, hg, hresembles, hfe, hge, heq⟩ := htwin.finish hacyclic hf
  refine ⟨g, bind_eq_ok.2 ⟨d, hd, hg⟩, hresembles, fun a' ha' => ?_, fun hspell => ?_⟩
  · cases ha.symm.trans ha'
    rw [hfe, hge]
    exact hblocks
  · exact heq (halike (hspell a ha))

/-- Two tasks whose inputs must be there, and none of which makes what the other one matches or makes
at its turn, can be swapped. If one order gives a build file, so does the other, and these differ in
nothing but
* the order of the two blocks of entries that the tasks add;
* the spelling of consulted paths, and with it what the statement watches that writes the build file
  again. Of a path that is consulted for both tasks the first spelling counts, so there is no such
  difference if they spell it alike. -/
theorem assemble_swapped (settings : Settings) (rest : List Step) (hti : t.ignoreMissing = [])
    (hui : u.ignoreMissing = [])
    (hind : ∀ a, first.foldlM (Assembly.addStep around) {} = .ok a →
      t.Independent around a.state.outputs u) :
    ((∃ f, assemble around settings (first ++ [.build t, .build u] ++ rest) = .ok f) ↔
      ∃ g, assemble around settings (first ++ [.build u, .build t] ++ rest) = .ok g) ∧
    ∀ f g, assemble around settings (first ++ [.build t, .build u] ++ rest) = .ok f →
      assemble around settings (first ++ [.build u, .build t] ++ rest) = .ok g →
      Swapped around first t u f g := by
  refine ⟨⟨?_, ?_⟩, ?_⟩
  · rintro ⟨f, hf⟩
    obtain ⟨g, hg, -⟩ := exists_swapped hti hui hind hf
    exact ⟨g, hg⟩
  · rintro ⟨g, hg⟩
    obtain ⟨f, hf, -⟩ := exists_swapped hui hti (fun a ha => (hind a ha).symm) hg
    exact ⟨f, hf⟩
  · intro f g hf hg
    obtain ⟨g', hg', hswapped⟩ := exists_swapped hti hui hind hf
    cases hg.symm.trans hg'
    exact hswapped

end

/-- A task that makes one file of another, and consults one path. -/
def Task.noting (input output path : String) : Task :=
  { Task.turning input output with
    action := fun _ inputs outputs =>
      .ok ⟨[.build { rule := "turn", outputs, inputs }], [⟨path⟩]⟩ }

theorem Task.independent_noting (a : Assembly)
    (ha : ([] : List Step).foldlM (Assembly.addStep ⟨.sources, none⟩) {} = .ok a) :
    (Task.noting "a.md" "b.txt" "a.md").Independent ⟨.sources, none⟩ a.state.outputs
      (.noting "a.md" "c.txt" "a.md/") := by
  cases ha
  have hb : ((Task.noting "a.md" "b.txt" "a.md").generate ⟨.sources, none⟩ ∅).map
      TaskOutput.outputs = .ok [⟨"b.txt"⟩] := by decide +kernel
  have hc : ((Task.noting "a.md" "c.txt" "a.md/").generate ⟨.sources, none⟩ ∅).map
      TaskOutput.outputs = .ok [⟨"c.txt"⟩] := by decide +kernel
  exact independent_of_outputs hb hc (by decide +kernel) (by decide +kernel) (by decide +kernel)

theorem assemble_swapped_noting : ∃ f g,
    assemble ⟨.sources, none⟩ {} ([] ++ [.build (.noting "a.md" "b.txt" "a.md"),
      .build (.noting "a.md" "c.txt" "a.md/")] ++ [.barrier "all"]) = .ok f ∧
    assemble ⟨.sources, none⟩ {} ([] ++ [.build (.noting "a.md" "c.txt" "a.md/"),
      .build (.noting "a.md" "b.txt" "a.md")] ++ [.barrier "all"]) = .ok g ∧
    Swapped ⟨.sources, none⟩ [] (.noting "a.md" "b.txt" "a.md")
      (.noting "a.md" "c.txt" "a.md/") f g := by
  have hok : ((assemble ⟨.sources, none⟩ {} ([] ++ [.build (.noting "a.md" "b.txt" "a.md"),
      .build (.noting "a.md" "c.txt" "a.md/")] ++ [.barrier "all"])).map BuildFile.defaults) =
        .ok [⟨"all"⟩] := by decide +kernel
  obtain ⟨f, hf, -⟩ := map_eq_ok.1 hok
  obtain ⟨hiff, hswapped⟩ := assemble_swapped {} [.barrier "all"] rfl rfl Task.independent_noting
  obtain ⟨g, hg⟩ := hiff.1 ⟨f, hf⟩
  exact ⟨f, g, hf, hg, hswapped f g hf hg⟩

/-- Of two spellings the first one counts, also in what the build file watches: only without the slash
it is the file. -/
theorem assemble_swapped_spelling :
    (∀ a, ([] : List Step).foldlM (Assembly.addStep ⟨.sources, none⟩) {} = .ok a →
      (Task.noting "a.md" "b.txt" "a.md").Independent ⟨.sources, none⟩ a.state.outputs
        (.noting "a.md" "c.txt" "a.md/")) ∧
    ∃ f g, assemble ⟨.sources, none⟩ {} [.build (.noting "a.md" "b.txt" "a.md"),
        .build (.noting "a.md" "c.txt" "a.md/")] = .ok f ∧
      assemble ⟨.sources, none⟩ {} [.build (.noting "a.md" "c.txt" "a.md/"),
        .build (.noting "a.md" "b.txt" "a.md")] = .ok g ∧
      f.regenerate ≠ g.regenerate := by
  have hf : (assemble ⟨.sources, none⟩ {} [.build (.noting "a.md" "b.txt" "a.md"),
      .build (.noting "a.md" "c.txt" "a.md/")]).map
        (fun f => f.regenerate.map fun r => r.2.implicit) = .ok (some [⟨"a.md"⟩]) := by
    decide +kernel
  have hg : (assemble ⟨.sources, none⟩ {} [.build (.noting "a.md" "c.txt" "a.md/"),
      .build (.noting "a.md" "b.txt" "a.md")]).map
        (fun f => f.regenerate.map fun r => r.2.implicit) = .ok (some [⟨"."⟩]) := by
    decide +kernel
  obtain ⟨f, hf, hfile⟩ := map_eq_ok.1 hf
  obtain ⟨g, hg, hdir⟩ := map_eq_ok.1 hg
  refine ⟨Task.independent_noting, f, g, hf, hg, fun heq => ?_⟩
  rw [heq, hdir] at hfile
  exact absurd hfile (by decide)

end DocGraph
