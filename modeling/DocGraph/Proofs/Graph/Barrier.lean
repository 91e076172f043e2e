import DocGraph.Proofs.Graph.Digraph
import DocGraph.Proofs.Graph.Run
import Mathlib.Data.List.DropRight

/-!
# DocGraph.Proofs.Graph.Barrier

What barriers wait for, and what waits for them.

* `Moment.taken`  — the offers that were taken, in order.
* `pending`       — what the next barrier would wait for: the last barrier and the default outputs
  since.
* `Feeds`, `Reaches` — a path is an input of a barrier, or of one that the barrier waits for in turn.
* `Promises`      — the invariant of a run: defaults are what is pending, and every barrier waits
  for what was pending when it was added.
* `pending_or_reaches` — no default output is lost: it is pending, or a pending barrier waits for it.
* `barriers_keep_promises` — the consequences for a run with a result.
-/

namespace DocGraph

/-- The name of the barrier that makes an offer. -/
def Offer.barrier? (o : Offer) : Option String :=
  match o.step with
  | .build _ => none
  | .barrier name => some name

/-- The outputs of an offer that are built by default. -/
def Offer.promised (o : Offer) : List Path := if o.isDefault then o.statement.outputs else []

/-- The offers that were taken, in order. -/
def Moment.taken (m : Moment) : List Offer := m.offers.filter Offer.accepted

/-- The last barrier and the default outputs since. -/
def pending (l : List Offer) : List Path :=
  ((l.filterMap Offer.barrier?).getLast?.map Path.mk).toList ++
    (l.rtakeWhile (·.barrier?.isNone)).flatMap Offer.promised

/-- Some barrier has `p` among its inputs and goes by the name `q`. -/
def Feeds (l : List Offer) (p q : Path) : Prop :=
  ∃ o ∈ l, ∃ name, o.step = .barrier name ∧ (∃ i ∈ o.statement.inputs, i.Same p) ∧ q.Same ⟨name⟩

/-- A chain of barrier inputs leads from `p` to `q`. -/
def Reaches (l : List Offer) : Path → Path → Prop := Relation.TransGen (Feeds l)

/-- Every statement stands behind those that make its inputs. -/
def RespectsInputs (order : List Statement) : Prop :=
  ∀ r ∈ order, ∀ s ∈ order, ∀ p ∈ s.allInputs, r.makes p = true → Precedes order r s

/-! ## What is pending -/

theorem barrier?_eq_some {o : Offer} {name : String} (h : o.step = .barrier name) :
    o.barrier? = some name := by
  rw [Offer.barrier?, h]

theorem barrier?_eq_none {o : Offer} {t : Task} (h : o.step = .build t) : o.barrier? = none := by
  rw [Offer.barrier?, h]

/-- A barrier takes the place of everything that was pending. -/
theorem pending_concat_barrier {o : Offer} {name : String} (h : o.step = .barrier name)
    (l : List Offer) : pending (l ++ [o]) = [⟨name⟩] := by
  have hb := barrier?_eq_some h
  have hsince : (l ++ [o]).rtakeWhile (·.barrier?.isNone) = [] := by
    rw [List.rtakeWhile_concat_neg]
    simp [hb]
  simp [pending, hsince, hb]

theorem pending_concat_build {o : Offer} {t : Task} (h : o.step = .build t) (l : List Offer) :
    pending (l ++ [o]) = pending l ++ o.promised := by
  have hb := barrier?_eq_none h
  have hsince : (l ++ [o]).rtakeWhile (·.barrier?.isNone) =
      l.rtakeWhile (·.barrier?.isNone) ++ [o] := by
    rw [List.rtakeWhile_concat_pos]
    simp [hb]
  simp [pending, hsince, hb]

/-! ## The invariant -/

/-- Every barrier waits for what was pending when it was added. -/
def Collects (l : List Offer) : Prop :=
  ∀ before o after name, l = before ++ o :: after → o.step = .barrier name →
    o.isDefault = false ∧ o.statement.outputs = [⟨name⟩] ∧
      o.statement.inputs = Path.sorted (pending before)

theorem Collects.of_concat {l : List Offer} {o : Offer} (h : Collects (l ++ [o])) :
    Collects l := by
  intro before u after name hl
  refine h before u (after ++ [o]) name ?_
  rw [hl, List.append_assoc, List.cons_append]

theorem Collects.concat {l : List Offer} {o : Offer} (h : Collects l)
    (ho : ∀ name, o.step = .barrier name → o.isDefault = false ∧
      o.statement.outputs = [⟨name⟩] ∧ o.statement.inputs = Path.sorted (pending l)) :
    Collects (l ++ [o]) := by
  intro before u after name hl hu
  rcases List.eq_nil_or_concat' after with rfl | ⟨after', x, rfl⟩
  · obtain ⟨rfl, hx⟩ := List.append_inj' hl rfl
    cases hx
    exact ho name hu
  · rw [← List.cons_append, ← List.append_assoc] at hl
    obtain ⟨hl, -⟩ := List.append_inj' hl rfl
    exact h before u after' name hl hu

/-- What holds of the taken offers throughout a run. -/
structure Promises (a : Assembly) (taken : List Offer) : Prop where
  builds_eq : taken.map Offer.statement = a.builds
  defaults_eq : a.state.defaults = .ofList (pending taken)
  collects : Collects taken

namespace Promises

variable {a a₁ : Assembly} {taken : List Offer}

/-- The invariant speaks of statements and defaults only. -/
theorem congr (h : Promises a taken) (hd : a₁.state.defaults = a.state.defaults)
    (hb : a₁.builds = a.builds) : Promises a₁ taken :=
  ⟨by rw [hb, h.builds_eq], by rw [hd, h.defaults_eq], h.collects⟩

theorem accept (h : Promises a taken) {state : GraphState} {t : Task} {s : Statement} {d : Bool}
    (hs : state.defaults = a.state.defaults) :
    Promises (a.accept state s d) (taken ++ [⟨.build t, s, d, true⟩]) := by
  refine ⟨?_, ?_, ?_⟩
  · rw [List.map_append, h.builds_eq, Assembly.builds_accept]
    rfl
  · rw [pending_concat_build rfl, SortedBy.ofList, SortedBy.insertMany_append, ← SortedBy.ofList,
      ← h.defaults_eq, ← hs]
    cases d with
    | false => rfl
    | true => rfl
  · refine h.collects.concat ?_
    intro name hname
    cases hname

theorem barrier (h : Promises a taken) (name : String) : Promises (a.withBarrier name)
    (taken ++ [⟨.barrier name, a.barrierStatement name, false, true⟩]) := by
  refine ⟨?_, ?_, ?_⟩
  · rw [List.map_append, h.builds_eq, Assembly.builds_withBarrier]
    rfl
  · rw [pending_concat_barrier rfl]
    rfl
  · refine h.collects.concat ?_
    intro name' hname
    cases hname
    refine ⟨rfl, rfl, ?_⟩
    rw [Path.sorted, ← h.defaults_eq]
    rfl

end Promises

theorem taken_concat (a : Assembly) (current : Option (Task × TaskOutput)) (steps : List Step)
    (offers : List Offer) (o : Offer) :
    Moment.taken ⟨a, current, steps, offers ++ [o]⟩ =
      offers.filter Offer.accepted ++ if o.accepted then [o] else [] := by
  rw [Moment.taken, List.filter_append, List.filter_singleton]
  cases o.accepted with
  | false => rfl
  | true => rfl

theorem Move.promises {around : Surroundings} {m m' : Moment} (h : Move around m m')
    (hp : Promises m.assembly m.taken) : Promises m'.assembly m'.taken := by
  cases h with
  | openTask h =>
    have ho := Assembly.opened_of_openTask h
    exact hp.congr (by rw [ho.state_eq]) ho.builds_eq
  | comment => exact hp.congr rfl (Assembly.builds_comment _ _)
  | accept h =>
    obtain ⟨-, rfl⟩ := GraphState.claim_accepted h
    rw [taken_concat]
    exact hp.accept rfl
  | drop h =>
    rw [taken_concat, if_neg Bool.false_ne_true, List.append_nil]
    exact hp
  | closeTask => exact hp.congr rfl rfl
  | barrier h =>
    obtain ⟨-, rfl⟩ := Assembly.addBarrier_ok h
    rw [taken_concat]
    exact hp.barrier _

theorem Reached.promises {around : Surroundings} {steps : List Step} {m : Moment}
    (h : Reached around steps m) : Promises m.assembly m.taken := by
  induction h with
  | start =>
    refine ⟨rfl, rfl, ?_⟩
    intro before o after name hl
    simp [Moment.start, Moment.taken] at hl
  | move _ hm ih => exact hm.promises ih

/-! ## Chains of barriers -/

theorem Feeds.mono {l l' : List Offer} (h : ∀ o ∈ l, o ∈ l') {p q : Path} (hf : Feeds l p q) :
    Feeds l' p q := by
  obtain ⟨o, ho, hrest⟩ := hf
  exact ⟨o, h o ho, hrest⟩

theorem Reaches.mono {l l' : List Offer} (h : ∀ o ∈ l, o ∈ l') {p q : Path}
    (hr : Reaches l p q) : Reaches l' p q := by
  induction hr with
  | single hf => exact .single (hf.mono h)
  | tail _ hf ih => exact .tail ih (hf.mono h)

/-- A barrier waits for everything that was pending. -/
theorem Collects.feeds {before after : List Offer} {o : Offer} {name : String}
    (h : Collects (before ++ o :: after)) (ho : o.step = .barrier name) {q : Path}
    (hq : q ∈ pending before) : Feeds (before ++ o :: after) q ⟨name⟩ := by
  obtain ⟨-, -, hin⟩ := h before o after name rfl ho
  refine ⟨o, by simp, name, ho, ?_, rfl⟩
  rw [hin]
  exact SortedBy.exists_mem_ofList hq

/-- No default output is lost. It is pending, or a pending barrier waits for it. -/
theorem pending_or_reaches {l : List Offer} (h : Collects l) {r : Offer} (hr : r ∈ l)
    (hd : r.isDefault = true) {p : Path} (hp : p ∈ r.statement.outputs) :
    p ∈ pending l ∨ ∃ o ∈ l, ∃ name, o.step = .barrier name ∧ ⟨name⟩ ∈ pending l ∧
      Reaches l p ⟨name⟩ := by
  induction l using List.reverseRecOn with
  | nil => cases hr
  | append_singleton l o ih =>
    have hsub : ∀ u ∈ l, u ∈ l ++ [o] := fun u hu => List.mem_append_left _ hu
    cases hstep : o.step with
    | build t =>
      rw [pending_concat_build hstep]
      rcases List.mem_append.1 hr with hr | hr
      · rcases ih h.of_concat hr with hin | ⟨u, hu, name, hname, hin, hreach⟩
        · exact .inl (List.mem_append_left _ hin)
        · exact .inr ⟨u, hsub u hu, name, hname, List.mem_append_left _ hin, hreach.mono hsub⟩
      · cases List.mem_singleton.1 hr
        refine .inl (List.mem_append_right _ ?_)
        rw [Offer.promised, if_pos hd]
        exact hp
    | barrier name =>
      rw [pending_concat_barrier hstep]
      refine .inr ⟨o, by simp, name, hstep, List.mem_singleton_self _, ?_⟩
      rcases List.mem_append.1 hr with hr | hr
      · rcases ih h.of_concat hr with hq | ⟨u, hu, last, hlast, hq, hreach⟩
        · exact .single (h.feeds hstep hq)
        · exact .tail (hreach.mono hsub) (h.feeds hstep hq)
      · cases List.mem_singleton.1 hr
        rw [(h l r [] name rfl hstep).1] at hd
        cases hd

/-- Default outputs taken before a barrier reach it. -/
theorem Collects.reaches {before after : List Offer} {o : Offer} {name : String}
    (h : Collects (before ++ o :: after)) (ho : o.step = .barrier name) {r : Offer}
    (hr : r ∈ before) (hd : r.isDefault = true) {p : Path} (hp : p ∈ r.statement.outputs) :
    Reaches (before ++ o :: after) p ⟨name⟩ := by
  have hbefore : Collects before := by
    intro b u a n hl
    refine h b u (a ++ o :: after) n ?_
    rw [hl, List.append_assoc, List.cons_append]
  rcases pending_or_reaches hbefore hr hd hp with hq | ⟨u, -, last, -, hq, hreach⟩
  · exact .single (h.feeds ho hq)
  · exact .tail (hreach.mono fun u hu => List.mem_append_left _ hu) (h.feeds ho hq)

/-! ## Orders in which statements can be built -/

/-- What makes the start of a chain of barriers stands in front of a barrier at its end. -/
theorem precedes_of_reaches {order : List Statement} {l : List Offer}
    (horder : RespectsInputs order) (hl : ∀ o ∈ l, o.statement ∈ order)
    (hout : ∀ o ∈ l, ∀ name, o.step = .barrier name → o.statement.outputs = [⟨name⟩])
    {r : Statement} (hr : r ∈ order) {p q : Path} (hp : r.makes p = true)
    (h : Reaches l p q) : ∃ u ∈ order, u.makes q = true ∧ Precedes order r u := by
  -- one link of the chain, from whatever makes its lower end
  have hlink : ∀ s ∈ order, ∀ p q, s.makes p = true → Feeds l p q →
      ∃ u ∈ order, u.makes q = true ∧ Precedes order s u := by
    rintro s hs p q hsp ⟨o, ho, name, hname, ⟨i, hi, hip⟩, hq⟩
    refine ⟨o.statement, hl o ho, ?_, ?_⟩
    · rw [Statement.makes_iff]
      refine ⟨⟨name⟩, List.mem_append_left _ ?_, hq.symm⟩
      rw [hout o ho name hname]
      exact List.mem_singleton_self _
    · refine horder s hs _ (hl o ho) i ?_ ?_
      · exact List.mem_append_left _ (List.mem_append_left _ hi)
      · rw [Statement.makes_iff] at hsp ⊢
        rw [hip]
        exact hsp
  induction h with
  | single hf => exact hlink r hr _ _ hp hf
  | tail _ hf ih =>
    obtain ⟨u, hu, hup, hru⟩ := ih
    obtain ⟨v, hv, hvq, huv⟩ := hlink u hu _ _ hup hf
    exact ⟨v, hv, hvq, hru.trans huv⟩

/-! ## Whole runs -/

theorem finish_eq_ok {tree : Tree} {settings : Settings} {a : Assembly} {file : BuildFile}
    (h : a.finish tree settings = .ok file) :
    file.entries = a.entries ∧ file.defaults = a.state.defaults.toList := by
  obtain ⟨rules, -, -, rfl⟩ := Assembly.finish_ok h
  exact ⟨rfl, rfl⟩

theorem Reached.outputs_ne_nil {around : Surroundings} {steps : List Step} {m : Moment}
    (h : Reached around steps m) {o : Offer} (ho : o ∈ m.taken) : o.statement.outputs ≠ [] := by
  cases hstep : o.step with
  | build t =>
    obtain ⟨_, hf⟩ := (h.postProcessed.offers o (List.mem_of_mem_filter ho) t hstep).finished
    exact hf.outputs_ne_nil
  | barrier name =>
    obtain ⟨before, after, hl⟩ := List.append_of_mem ho
    rw [(h.promises.collects before o after name hl hstep).2.1]
    exact List.cons_ne_nil _ _

/-- A statement that waits for a barrier stands behind all default outputs before the barrier. -/
theorem Collects.precedes {before after : List Offer} {u : Offer} {b : String}
    (h : Collects (before ++ u :: after)) (hu : u.step = .barrier b) {order : List Statement}
    (hperm : order.Perm ((before ++ u :: after).map Offer.statement))
    (horder : RespectsInputs order) {s : Statement} (hs : s ∈ order)
    (hb : (⟨b⟩ : Path) ∈ s.orderOnly) {r : Offer} (hr : r ∈ before) (hd : r.isDefault = true)
    (hne : r.statement.outputs ≠ []) : Precedes order r.statement s := by
  have hmem : ∀ o ∈ before ++ u :: after, o.statement ∈ order := fun o ho =>
    hperm.mem_iff.2 (List.mem_map_of_mem ho)
  have hout : ∀ o ∈ before ++ u :: after, ∀ name, o.step = .barrier name →
      o.statement.outputs = [⟨name⟩] := by
    intro o ho name hname
    obtain ⟨xs, ys, hl⟩ := List.append_of_mem ho
    exact (h xs o ys name hl hname).2.1
  obtain ⟨p, hp⟩ := List.exists_mem_of_ne_nil _ hne
  have hro := hmem r (List.mem_append_left _ hr)
  obtain ⟨v, hv, hvb, hrv⟩ := precedes_of_reaches horder hmem hout hro
    (Statement.makes_self (List.mem_append_left _ hp)) (h.reaches hu hr hd hp)
  exact hrv.trans (horder v hv s hs _ (List.mem_append_right _ hb) hvb)

/-- In a run with a result, where post-processing says which statements are built by default,
* a barrier waits for the default outputs since the last barrier, and for that barrier;
* so every default output that was taken before a barrier reaches it;
* a statement of a task waits for the barriers of the task, unless inputs of it are missing, so all
  default statements before such a barrier come first in every order that respects inputs;
* every default output is among the final defaults, or reaches a barrier among them. -/
theorem barriers_keep_promises {around : Surroundings} {settings : Settings} {steps : List Step}
    {file : BuildFile} (h : assemble around settings steps = .ok file) :
    ∃ m, Reached around steps m ∧ m.IsOver ∧ m.taken.map Offer.statement = file.builds ∧
      (∀ o ∈ m.taken, ∀ t, o.step = .build t →
        t.PostProcessed around.tree o.statement o.isDefault) ∧
      (∀ before o after name, m.taken = before ++ o :: after → o.step = .barrier name →
        o.statement.outputs = [⟨name⟩] ∧ o.statement.inputs = Path.sorted (pending before) ∧
        ∀ r ∈ before, r.isDefault = true → ∀ p ∈ r.statement.outputs,
          Reaches m.taken p ⟨name⟩) ∧
      (∀ o ∈ m.taken, ∀ t, o.step = .build t → ∀ b ∈ t.after,
        (∃ s missing, missing ≠ [] ∧ o.statement = Task.placeholder s missing) ∨
        (⟨b⟩ ∈ o.statement.orderOnly ∧
          ∀ before u after order, m.taken = before ++ u :: after → u.step = .barrier b →
            order.Perm file.builds → RespectsInputs order →
            ∀ r ∈ before, r.isDefault = true → Precedes order r.statement o.statement)) ∧
      (∀ r ∈ m.taken, r.isDefault = true → ∀ p ∈ r.statement.outputs,
        (∃ q ∈ file.defaults, q.Same p) ∨
        ∃ o ∈ m.taken, ∃ name, o.step = .barrier name ∧
          (∃ q ∈ file.defaults, q.Same ⟨name⟩) ∧ Reaches m.taken p ⟨name⟩) := by
  obtain ⟨m, hm, hover, hfin⟩ := exists_over_of_assemble h
  obtain ⟨hentries, hdefaults⟩ := finish_eq_ok hfin
  have hp := hm.promises
  have hbuilds : m.taken.map Offer.statement = file.builds := by
    rw [hp.builds_eq, BuildFile.builds, hentries, Assembly.builds]
  have hfinal : ∀ q ∈ pending m.taken, ∃ q' ∈ file.defaults, q'.Same q := by
    intro q hq
    rw [hdefaults, hp.defaults_eq]
    exact SortedBy.exists_mem_ofList hq
  have hflags : ∀ o ∈ m.taken, ∀ t, o.step = .build t →
      t.PostProcessed around.tree o.statement o.isDefault :=
    fun o ho => hm.postProcessed.offers o (List.mem_of_mem_filter ho)
  refine ⟨m, hm, hover, hbuilds, hflags, ?_, ?_, ?_⟩
  · intro before o after name hl ho
    obtain ⟨-, hout, hin⟩ := hp.collects before o after name hl ho
    refine ⟨hout, hin, ?_⟩
    intro r hr hd p hpr
    have hc := hp.collects
    rw [hl] at hc ⊢
    exact hc.reaches ho hr hd hpr
  · intro o ho t ht b hb
    obtain ⟨_, hf⟩ := (hflags o ho t ht).finished
    rcases hf.placeholder_or_waits hb with hmissing | hwaits
    · exact .inl hmissing
    · refine .inr ⟨hwaits, ?_⟩
      intro before u after order hl hu hperm horder r hr hd
      have hc := hp.collects
      have hs : o.statement ∈ order := by
        rw [hperm.mem_iff, ← hbuilds]
        exact List.mem_map_of_mem ho
      have hr' : r ∈ m.taken := by
        rw [hl]
        exact List.mem_append_left _ hr
      rw [← hbuilds, hl] at hperm
      rw [hl] at hc
      exact hc.precedes hu hperm horder hs hwaits hr hd (hm.outputs_ne_nil hr')
  · intro r hr hd p hpr
    rcases pending_or_reaches hp.collects hr hd hpr with hq | ⟨o, ho, name, hname, hq, hreach⟩
    · exact .inl (hfinal p hq)
    · exact .inr ⟨o, ho, name, hname, hfinal _ hq, hreach⟩

/-- A task that copies what was made before. -/
def Task.copying (input output : String) (after : List String) : Task where
  command := { name := "copy", rules := .ofPairs [("copy", .ofCommand "cp ${in} ${out}")]
               action? := fun _ => none }
  action := fun _ inputs outputs => .ok ⟨[.build { rule := "copy", outputs, inputs }], []⟩
  inputs := [⟨[.literal input], Pattern.readable_literal input⟩]
  output := some output
  builtInputsOnly := true
  after := after

/-- Copies in two stages. -/
def Step.staged : List Step :=
  [.barrier "start", .build (.copying "start" "a" []), .barrier "middle",
    .build (.copying "a" "b" ["middle"])]

theorem barriers_keep_promises_staged : ∃ file m, assemble .bare {} Step.staged = .ok file ∧
    Reached .bare Step.staged m ∧
    m.taken.map (·.statement.outputs) = [[⟨"start"⟩], [⟨"a"⟩], [⟨"middle"⟩], [⟨"b"⟩]] ∧
    ∀ r ∈ m.taken, r.isDefault = true → ∀ p ∈ r.statement.outputs,
      (∃ q ∈ file.defaults, q.Same p) ∨
      ∃ o ∈ m.taken, ∃ name, o.step = .barrier name ∧ (∃ q ∈ file.defaults, q.Same ⟨name⟩) ∧
        Reaches m.taken p ⟨name⟩ := by
  have hout : (assemble .bare {} Step.staged).map (fun f => f.builds.map Statement.outputs) =
      .ok [[⟨"start"⟩], [⟨"a"⟩], [⟨"middle"⟩], [⟨"b"⟩]] := by decide +kernel
  obtain ⟨file, h, hout⟩ := map_eq_ok.1 hout
  obtain ⟨m, hm, -, hbuilds, -, -, -, hall⟩ := barriers_keep_promises h
  refine ⟨file, m, h, hm, ?_, hall⟩
  rw [← hout, ← hbuilds, List.map_map]
  rfl

end DocGraph
