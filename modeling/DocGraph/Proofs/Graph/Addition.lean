import DocGraph.Proofs.Graph.Growth

/-!
# DocGraph.Proofs.Graph.Addition

What a task adds to the graph, taken by itself.

* `Addition`, `Assembly.plus` — entries, outputs and defaults, and the graph with them.
* `Adds`            — statements and comments add the same to every graph that knows as much about
  their outputs.
* `exists_addition` — whatever goes through adds something in this sense.
* `SortedBy.Fits`, `Assembly.serving` — tables without a conflict, and the graph with the rules and pools
  of a command. `registerCommand_iff`: registering comes to this exactly if they fit.
* `Joins`, `Assembly.joined` — what a task checks and adds, and the graph afterwards.
* `addTask_iff`     — adding a task comes to nothing else.
-/

namespace DocGraph

/-! ## Statements and comments -/

/-- What comes to a graph: entries, and outputs of statements among them. -/
structure Addition where
  entries : List Entry := []
  outputs : List Path := []
  defaults : List Path := []

/-- The outputs of something that a task emits. -/
def Emitted.outputs : Emitted → List Path
  | comment _ => []
  | build s _ => s.allOutputs

/-- The outputs of all statements that a task adds or offers in vain. -/
def TaskOutput.outputs (out : TaskOutput) : List Path := out.emitted.flatMap Emitted.outputs

namespace Assembly

def plus (a : Assembly) (x : Addition) : Assembly :=
  { a with
    state := { a.state with
      outputs := a.state.outputs.insertMany x.outputs
      defaults := a.state.defaults.insertMany x.defaults }
    entries := a.entries ++ x.entries }

variable {a b : Assembly} {es : List Emitted} {x : Addition} {known known' : PathSet}

/-- Statements and comments add `x` to every graph that knows those of their outputs which are
among `known`. -/
structure Adds (known : PathSet) (es : List Emitted) (x : Addition) : Prop where
  outputs : ∀ p ∈ x.outputs, p ∈ es.flatMap Emitted.outputs
  defaults : ∀ p ∈ x.defaults, p ∈ es.flatMap Emitted.outputs
  adds : ∀ a : Assembly,
    (∀ p ∈ es.flatMap Emitted.outputs, a.state.knows p = known.contains p.components) →
      es.foldlM addEmitted a = .ok (a.plus x)

theorem Adds.of_agree (h : Adds known es x)
    (hknown : ∀ p ∈ es.flatMap Emitted.outputs,
      known.contains p.components = known'.contains p.components) : Adds known' es x :=
  ⟨h.outputs, h.defaults, fun a ha => h.adds a fun p hp => (ha p hp).trans (hknown p hp).symm⟩

theorem Adds.nil (known : PathSet) : Adds known [] {} := by
  refine ⟨nofun, nofun, fun a _ => ?_⟩
  rw [plus, List.append_nil]
  rfl

theorem Adds.comment (h : Adds known es x) (text : String) :
    Adds known (.comment text :: es) { x with entries := .comment text :: x.entries } := by
  refine ⟨h.outputs, h.defaults, fun a ha => ?_⟩
  have hrest := h.adds { a with entries := a.entries ++ [.comment text] } ha
  rw [List.foldlM_cons, addEmitted, ok_bind, hrest]
  simp only [plus, List.append_assoc]
  rfl

theorem Adds.accept {s : Statement} (d : Bool)
    (hfresh : ∀ p ∈ s.allOutputs, known.contains p.components = false)
    (h : Adds (known.insertMany s.allOutputs) es x) :
    Adds known (.build s d :: es)
      { entries := .build s :: x.entries
        outputs := s.allOutputs ++ x.outputs
        defaults := (if d then s.outputs else []) ++ x.defaults } := by
  refine ⟨?_, ?_, ?_⟩
  · exact fun p hp => List.mem_append.2 ((List.mem_append.1 hp).imp id (h.outputs p))
  · intro p hp
    rcases List.mem_append.1 hp with hp | hp
    · cases d with
      | false => cases hp
      | true => exact List.mem_append_left _ (List.mem_append_left _ hp)
    · exact List.mem_append_right _ (h.defaults p hp)
  · intro a ha
    have hclaim : a.state.claim s = .ok (.accepted
        { a.state with outputs := a.state.outputs.insertMany s.allOutputs }) := by
      refine GraphState.claim_of_fresh fun p hp => ?_
      rw [ha p (List.mem_append_left _ hp), hfresh p hp]
    rw [List.foldlM_cons, addEmitted_accepted hclaim, ok_bind, h.adds]
    · simp only [plus, Assembly.accept, List.append_assoc, SortedBy.insertMany_append]
      cases d with
      | false => rfl
      | true => rfl
    · intro p hp
      have hp := ha p (List.mem_append_right _ hp)
      simp only [GraphState.knows, Assembly.accept] at hp ⊢
      rw [Bool.eq_iff_iff, SortedBy.contains_insertMany, SortedBy.contains_insertMany, hp]

theorem Adds.drop {s : Statement} (d : Bool) (hne : s.allOutputs ≠ [])
    (hknown : ∀ p ∈ s.allOutputs, known.contains p.components = true) (h : Adds known es x) :
    Adds known (.build s d :: es) x := by
  have hlater : ∀ p ∈ es.flatMap Emitted.outputs,
      p ∈ (Emitted.build s d :: es).flatMap Emitted.outputs := fun p =>
    List.mem_append_right s.allOutputs
  refine ⟨fun p hp => hlater p (h.outputs p hp), fun p hp => hlater p (h.defaults p hp), ?_⟩
  intro a ha
  have hclaim : a.state.claim s = .ok .duplicate := by
    refine GraphState.claim_of_known hne fun p hp => ?_
    rw [ha p (List.mem_append_left _ hp), hknown p hp]
  rw [List.foldlM_cons, addEmitted_duplicate hclaim, ok_bind]
  exact h.adds a fun p hp => ha p (hlater p hp)

/-- Whatever goes through adds something. -/
theorem exists_addition (h : es.foldlM addEmitted a = .ok b) : ∃ x, Adds a.state.outputs es x := by
  induction es generalizing a with
  | nil => exact ⟨{}, .nil _⟩
  | cons e es ih =>
    obtain ⟨a₁, he, hes⟩ := foldlM_cons_ok.1 h
    obtain ⟨x, hx⟩ := ih hes
    rcases addEmitted_ok he with
      ⟨text, rfl, rfl⟩ | ⟨s, d, state, rfl, hc, rfl⟩ | ⟨s, d, rfl, hc, rfl⟩
    · exact ⟨_, hx.comment text⟩
    · obtain ⟨hfresh, rfl⟩ := GraphState.claim_accepted hc
      exact ⟨_, hx.accept d hfresh⟩
    · exact ⟨x, hx.drop d (GraphState.outputs_ne_nil_of_duplicate hc) (GraphState.claim_duplicate hc)⟩

end Assembly

/-! ## Rules and pools -/

namespace SortedBy

section

variable {α κ : Type} [Ord κ] {key : α → κ} {s t u : SortedBy key}

/-- Elements of equal keys are equal. -/
def Fits (s t : SortedBy key) : Prop := ∀ a ∈ s, ∀ b ∈ t, key a = key b → a = b

theorem Fits.symm (h : s.Fits t) : t.Fits s := fun b hb a ha hk => (h a ha b hb hk.symm).symm

variable [Std.LawfulEqOrd κ] [Std.TransOrd κ]

theorem Fits.mem_union (h : s.Fits t) {a : α} : a ∈ s.union t ↔ a ∈ s ∨ a ∈ t := by
  refine ⟨mem_of_mem_insertMany, ?_⟩
  rintro (ha | ha)
  · exact mem_insertMany_of_mem ha _
  · have hfound : s.contains (key a) = true ∨ ∃ b ∈ t.toList, key b = key a := .inr ⟨a, ha, rfl⟩
    obtain ⟨b, hb, hk⟩ := contains_iff.1 (contains_insertMany.2 hfound)
    rcases mem_of_mem_insertMany hb with hbs | hbt
    · rw [← h b hbs a ha hk]
      exact hb
    · rw [← eq_of_mem hbt ha hk]
      exact hb

theorem Fits.union_iff (h : s.Fits t) : (s.union t).Fits u ↔ s.Fits u ∧ t.Fits u := by
  simp only [Fits, h.mem_union, or_imp, forall_and]

theorem Fits.union_right_comm (h : t.Fits u) : (s.union t).union u = (s.union u).union t :=
  insertMany_comm s h

end

end SortedBy

namespace Assembly

section

variable {α : Type} [DecidableEq α] {conflict : String → GraphError} {known r : Table α}

theorem register_iff {e : String × α} : register conflict known e = .ok r ↔
    (∀ a ∈ known, a.1 = e.1 → a = e) ∧ r = known.insertMany [e] := by
  rw [register]
  cases hk : known.get? e.1 with
  | none =>
    have hnone : ∀ a ∈ known, a.1 ≠ e.1 := by
      intro a ha he
      rw [← he, Table.get?_eq_some_iff.2 ha] at hk
      cases hk
    have hset : known.set e.1 e.2 = known.insertMany [e] := by
      refine SortedBy.ext_mem fun a => ?_
      rw [show known.insertMany [e] = known.insert e from rfl, SortedBy.mem_insert, Table.set,
        SortedBy.mem_put, or_comm]
      exact or_congr (and_iff_left_of_imp (hnone a)) (and_iff_left hnone).symm
    rw [← hset]
    exact ⟨fun h => ⟨fun a ha he => absurd he (hnone a ha), by cases h; rfl⟩, fun h => by rw [h.2]⟩
  | some v =>
    have hmem := Table.get?_eq_some_iff.1 hk
    have hkept : known.insertMany [e] = known := by
      refine SortedBy.insertMany_of_contains fun e' he' => ?_
      rw [List.mem_singleton.1 he']
      exact SortedBy.contains_iff.2 ⟨_, hmem, rfl⟩
    rw [hkept]
    dsimp only
    split
    · next hv =>
      refine ⟨fun h => ⟨?_, by cases h; rfl⟩, fun h => by rw [h.2]⟩
      rintro a ha he
      rw [SortedBy.eq_of_mem ha hmem he, hv]
    · next hv =>
      exact ⟨fun h => (by cases h), fun h => absurd (congrArg Prod.snd (h.1 _ hmem rfl)) hv⟩

theorem foldlM_register_iff {l : List (String × α)} (hl : (l.map Prod.fst).Nodup) :
    l.foldlM (register conflict) known = .ok r ↔
      (∀ a ∈ known, ∀ e ∈ l, a.1 = e.1 → a = e) ∧ r = known.insertMany l := by
  induction l generalizing known with
  | nil => exact ⟨fun h => ⟨nofun, by cases h; rfl⟩, fun h => by rw [h.2]; rfl⟩
  | cons e l ih =>
    obtain ⟨he, hl⟩ := List.nodup_cons.1 hl
    simp only [foldlM_cons_ok, register_iff, ih hl]
    constructor
    · rintro ⟨_, ⟨hfirst, rfl⟩, hrest, rfl⟩
      refine ⟨fun a ha e' he' => ?_, rfl⟩
      rcases List.mem_cons.1 he' with rfl | he'
      · exact hfirst a ha
      · exact hrest a (SortedBy.mem_insertMany_of_mem ha _) e' he'
    · rintro ⟨h, rfl⟩
      refine ⟨_, ⟨fun a ha => h a ha e List.mem_cons_self, rfl⟩, fun a ha e' he' hk => ?_, rfl⟩
      rcases SortedBy.mem_of_mem_insertMany ha with ha | ha
      · exact h a ha e' (List.mem_cons_of_mem _ he') hk
      · -- the definitions of one table have different names
        rw [List.mem_singleton.1 ha] at hk
        exact absurd (hk ▸ List.mem_map_of_mem he') he

/-- Definitions are registered exactly if none of them differs from a known one. -/
theorem foldlM_register_table_iff {t : Table α} :
    t.toList.foldlM (register conflict) known = .ok r ↔ known.Fits t ∧ r = known.union t :=
  foldlM_register_iff t.nodup_keys

end

end Assembly

/-- The pools of a command that Ninja does not provide. -/
def Command.ownPools (c : Command) : Table Pool := c.pools.filter fun e => e.1 != Pool.console

/-- No rule and no pool of one command differs from one of the other by anything but its name. -/
structure Command.Fits (c d : Command) : Prop where
  rules : c.rules.Fits d.rules
  pools : c.ownPools.Fits d.ownPools

theorem Command.Fits.symm {c d : Command} (h : c.Fits d) : d.Fits c := ⟨h.rules.symm, h.pools.symm⟩

namespace Assembly

structure Suits (a : Assembly) (c : Command) : Prop where
  rules : a.rules.Fits c.rules
  pools : a.pools.Fits c.ownPools

/-- The graph with the rules and pools of a command. -/
def serving (a : Assembly) (c : Command) : Assembly :=
  { a with rules := a.rules.union c.rules, pools := a.pools.union c.ownPools }

variable {a b : Assembly} {c d : Command}

theorem registerCommand_iff : a.registerCommand c = .ok b ↔ a.Suits c ∧ b = a.serving c := by
  have hpools : ∀ pools, (c.pools.toList.filter fun e => e.1 != Pool.console).foldlM
      (register .poolConflict) a.pools = .ok pools ↔
        a.pools.Fits c.ownPools ∧ pools = a.pools.union c.ownPools := fun _ =>
    foldlM_register_table_iff (t := c.ownPools)
  simp only [registerCommand, bind_eq_ok, foldlM_register_table_iff, hpools]
  constructor
  · rintro ⟨_, ⟨hr, rfl⟩, _, ⟨hp, rfl⟩, h⟩
    cases h
    exact ⟨⟨hr, hp⟩, rfl⟩
  · rintro ⟨⟨hr, hp⟩, rfl⟩
    exact ⟨_, ⟨hr, rfl⟩, _, ⟨hp, rfl⟩, rfl⟩

/-! ## Tasks -/

/-- The graph with the rules and pools of a command, what its task adds, and the paths that were
consulted for it. -/
def joined (a : Assembly) (c : Command) (x : Addition) (gendeps : List Path) : Assembly :=
  ((a.serving c).plus x).consult gendeps

theorem Suits.joined_iff (h : a.Suits c) {x : Addition} {gendeps : List Path} :
    (a.joined c x gendeps).Suits d ↔ a.Suits d ∧ c.Fits d := by
  constructor
  · rintro ⟨hr, hp⟩
    exact ⟨⟨(h.rules.union_iff.1 hr).1, (h.pools.union_iff.1 hp).1⟩,
      ⟨(h.rules.union_iff.1 hr).2, (h.pools.union_iff.1 hp).2⟩⟩
  · rintro ⟨ha, hc⟩
    exact ⟨h.rules.union_iff.2 ⟨ha.rules, hc.rules⟩, h.pools.union_iff.2 ⟨ha.pools, hc.pools⟩⟩

/-- A task passes its checks, and adds `x`. -/
structure Joins (around : Surroundings) (a : Assembly) (t : Task) (out : TaskOutput)
    (x : Addition) : Prop where
  declared : ∀ b ∈ t.after, a.barriers.contains b = true
  suits : a.Suits t.command
  generated : t.generate around a.state.outputs = .ok out
  adds : Adds a.state.outputs out.emitted x

/-- What adding a task comes to. -/
theorem addTask_iff {around : Surroundings} {t : Task} : a.addTask around t = .ok b ↔
    ∃ out x, Joins around a t out x ∧ b = a.joined t.command x out.gendeps := by
  constructor
  · intro h
    obtain ⟨⟨a₁, out⟩, hopen, h⟩ := bind_eq_ok.1 h
    obtain ⟨a₂, hadd, h⟩ := bind_eq_ok.1 h
    cases h
    have ho := opened_of_openTask hopen
    obtain ⟨hsuits, rfl⟩ := registerCommand_iff.1 ho.registered
    obtain ⟨x, hx⟩ := exists_addition hadd
    refine ⟨out, x, ⟨ho.declared, hsuits, ho.generated, hx⟩, ?_⟩
    rw [hx.adds _ fun _ _ => rfl] at hadd
    cases hadd
    rfl
  · rintro ⟨out, x, hj, rfl⟩
    have hopen := openTask_of hj.declared (registerCommand_iff.2 ⟨hj.suits, rfl⟩) hj.generated
    rw [addTask, hopen, ok_bind]
    simp only [hj.adds.adds (a.serving t.command) fun _ _ => rfl, ok_bind]
    rfl

end Assembly
end DocGraph
