import DocGraph.Proofs.Graph.Barrier
import DocGraph.Proofs.Graph.Digraph
import DocGraph.Proofs.Graph.Producer

/-!
# DocGraph.Proofs.Graph.Cycle

The cycle check refuses cycles and nothing else.

* `Graph.Supplies`, `Graph.OnCycle` — an output of one statement is an input of another one, and a
  chain of such statements leads back to where it starts.
* `supplies_of_edge`     — an edge leads from a statement to one that it supplies.
* `edge_of_supplies`     — if no two statements make the same, there is an edge wherever one supplies
  another. With two producers of a path, it leads from the last one only.
* `onCycle?_onCycle`, `onCycle?_eq_none` — so the sort of the graph finds a statement of a cycle, if
  there is one.
* `acyclic_iff_exists_order` — an order in which inputs come first exists exactly if there is no cycle.
* `refuses_exactly_cycles` — the consequences for a run whose rules are complete, with any correct
  sort.
-/

namespace DocGraph
namespace Graph

/-- Both are statements of `l`, and an output of `r` is an input of `s`. -/
def Supplies (l : List Statement) (r s : Statement) : Prop :=
  r ∈ l ∧ s ∈ l ∧ ∃ p ∈ s.allInputs, r.makes p = true

/-- A chain of statements of `l`, each of which supplies the next one, leads from `r` to `r`. -/
def OnCycle (l : List Statement) (r : Statement) : Prop := Relation.TransGen (Supplies l) r r

variable {l l' : List Statement} {r s : Statement}

theorem Supplies.mono (hl : ∀ s ∈ l, s ∈ l') (h : Supplies l r s) : Supplies l' r s :=
  ⟨hl r h.1, hl s h.2.1, h.2.2⟩

theorem OnCycle.mono (hl : ∀ s ∈ l, s ∈ l') (h : OnCycle l r) : OnCycle l' r :=
  Relation.TransGen.mono (fun _ _ => Supplies.mono hl) r r h

/-- Statements that make the same and wait for more have a cycle too. -/
theorem OnCycle.exists_of_covered (h : OnCycle l r)
    (hl : ∀ s ∈ l, ∃ s' ∈ l', s'.allOutputs = s.allOutputs ∧ ∀ p ∈ s.allInputs, p ∈ s'.allInputs) :
    ∃ r', OnCycle l' r' := by
  have : Nonempty Statement := ⟨r⟩
  choose! cover hmem houtputs hinputs using hl
  refine ⟨cover r, Relation.TransGen.lift cover ?_ _ _ h⟩
  rintro r s ⟨hr, hs, p, hp, hrp⟩
  refine ⟨hmem r hr, hmem s hs, p, hinputs s hs p hp, ?_⟩
  rw [Statement.makes, houtputs r hr]
  exact hrp

theorem OnCycle.mem (h : OnCycle l r) : r ∈ l := by
  cases h with
  | single hr => exact hr.1
  | tail _ hr => exact hr.2.1

/-! ## Edges -/

variable {i j : Nat} {p : Path}

/-- No two statements make the same path. -/
abbrev Disjoint (l : List Statement) : Prop :=
  l.Pairwise fun r s => ∀ p, ¬(r.makes p = true ∧ s.makes p = true)

theorem Disjoint.eq_of_makes (h : Disjoint l) (hi : l[i]? = some r) (hj : l[j]? = some s)
    (hr : r.makes p = true) (hs : s.makes p = true) : i = j := by
  obtain ⟨hilt, rfl⟩ := List.getElem?_eq_some_iff.1 hi
  obtain ⟨hjlt, rfl⟩ := List.getElem?_eq_some_iff.1 hj
  rcases Nat.lt_trichotomy i j with hij | hij | hij
  · exact absurd ⟨hr, hs⟩ (List.pairwise_iff_getElem.1 h i j hilt hjlt hij p)
  · exact hij
  · exact absurd ⟨hs, hr⟩ (List.pairwise_iff_getElem.1 h j i hjlt hilt hij p)

/-- The statement that counts as the producer of a path makes it. -/
theorem makes_of_producers {q : Path} (h : (producers l).find? p.components = some (q, i)) :
    ∃ r, l[i]? = some r ∧ r.makes p = true := by
  obtain ⟨hkey, r, hr, hq⟩ := exists_of_producers h
  exact ⟨r, hr, Statement.makes_iff.2 ⟨q, hq, hkey⟩⟩

/-- Every path that a statement makes has a producer. -/
theorem exists_producers (hi : l[i]? = some r) (hr : r.makes p = true) :
    ∃ q j, (producers l).find? p.components = some (q, j) := by
  obtain ⟨o, ho, hkey⟩ := Statement.makes_iff.1 hr
  have hcontains : (producers l).contains p.components = true := by
    rw [producers, SortedBy.contains_putMany]
    refine .inr ⟨(o, i), List.mem_flatMap.2 ⟨(r, i), List.mem_zipIdx_iff_getElem?.2 hi, ?_⟩, hkey⟩
    exact List.mem_map.2 ⟨o, ho, rfl⟩
  rw [SortedBy.contains_eq_isSome] at hcontains
  obtain ⟨⟨q, j⟩, hfind⟩ := Option.isSome_iff_exists.1 hcontains
  exact ⟨q, j, hfind⟩

theorem supplies_of_edge (h : (digraph l).Edge i j) :
    ∃ r s, l[i]? = some r ∧ l[j]? = some s ∧ Supplies l r s := by
  obtain ⟨s, hs, p, hp, q, hfind⟩ := mem_edges.1 h
  obtain ⟨r, hr, hmakes⟩ := makes_of_producers hfind
  exact ⟨r, s, hr, hs, List.mem_of_getElem? hr, List.mem_of_getElem? hs, p, hp, hmakes⟩

theorem edge_of_makes (hl : Disjoint l) (hi : l[i]? = some r) (hj : l[j]? = some s)
    (hp : p ∈ s.allInputs) (hr : r.makes p = true) : (digraph l).Edge i j := by
  obtain ⟨q, k, hfind⟩ := exists_producers hi hr
  obtain ⟨r', hr', hmakes⟩ := makes_of_producers hfind
  cases hl.eq_of_makes hi hr' hr hmakes
  exact mem_edges.2 ⟨s, hj, p, hp, q, hfind⟩

theorem getElem?_idxOf (h : s ∈ l) : l[l.idxOf s]? = some s := by
  have hlt := List.idxOf_lt_length_of_mem h
  rw [List.getElem?_eq_getElem hlt, List.getElem_idxOf hlt]

theorem edge_of_supplies (hl : Disjoint l) (h : Supplies l r s) :
    (digraph l).Edge (l.idxOf r) (l.idxOf s) := by
  obtain ⟨hr, hs, p, hp, hmakes⟩ := h
  exact edge_of_makes hl (getElem?_idxOf hr) (getElem?_idxOf hs) hp hmakes

/-! ## Cycles -/

theorem transGen_of_edges (h : Relation.TransGen (digraph l).Edge i j) :
    ∃ r s, l[i]? = some r ∧ l[j]? = some s ∧ Relation.TransGen (Supplies l) r s := by
  induction h with
  | single hedge =>
    obtain ⟨r, s, hr, hs, hsupplies⟩ := supplies_of_edge hedge
    exact ⟨r, s, hr, hs, .single hsupplies⟩
  | tail _ hedge ih =>
    obtain ⟨r, s, hr, hs, hchain⟩ := ih
    obtain ⟨s', u, hs', hu, hsupplies⟩ := supplies_of_edge hedge
    cases hs.symm.trans hs'
    exact ⟨r, u, hr, hu, .tail hchain hsupplies⟩

theorem exists_onCycle (h : (digraph l).OnCycle i) : ∃ r, l[i]? = some r ∧ OnCycle l r := by
  obtain ⟨r, s, hr, hs, hchain⟩ := transGen_of_edges h
  cases hr.symm.trans hs
  exact ⟨r, hr, hchain⟩

theorem OnCycle.onCycle_digraph (hl : Disjoint l) (h : OnCycle l r) :
    (digraph l).OnCycle (l.idxOf r) :=
  Relation.TransGen.lift l.idxOf (fun _ _ => edge_of_supplies hl) _ _ h

section

variable {sort : Toposort} (hsort : sort.Correct)
include hsort

/-- The check names a statement of a cycle. -/
theorem onCycle?_onCycle (h : onCycle? l sort = some s) : OnCycle l s := by
  rw [onCycle?] at h
  split at h
  · cases h
  · next n hn =>
    obtain ⟨r, hr, hcycle⟩ := exists_onCycle (hsort.onCycle _ n hn)
    cases hr.symm.trans h
    exact hcycle

theorem onCycle?_eq_none_iff : onCycle? l sort = none ↔ ∃ order, sort (digraph l) = .ok order := by
  rw [onCycle?]
  cases hn : sort (digraph l) with
  | ok order => exact iff_of_true rfl ⟨order, rfl⟩
  | error n =>
    obtain ⟨r, hr, -⟩ := exists_onCycle (hsort.onCycle _ n hn)
    refine iff_of_false ?_ nofun
    dsimp only
    rw [hr]
    exact nofun

/-- Without a cycle the check finds nothing, even if statements make the same. -/
theorem onCycle?_of_acyclic (h : ¬∃ r, OnCycle l r) : onCycle? l sort = none := by
  cases hc : onCycle? l sort with
  | none => rfl
  | some s => exact absurd ⟨s, onCycle?_onCycle hsort hc⟩ h

/-- The check finds nothing exactly if there is no cycle. -/
theorem onCycle?_eq_none (hl : Disjoint l) : onCycle? l sort = none ↔ ¬∃ r, OnCycle l r := by
  rw [onCycle?_eq_none_iff hsort, hsort.exists_order_iff]
  refine not_congr ⟨?_, ?_⟩
  · rintro ⟨n, hn⟩
    obtain ⟨r, -, hr⟩ := exists_onCycle hn
    exact ⟨r, hr⟩
  · rintro ⟨r, hr⟩
    exact ⟨_, hr.onCycle_digraph hl⟩

end

-- of two statements that make `x` the last counts, so the cycle through the first is not found
example : onCycle? [{ rule := "r", outputs := [⟨"x"⟩], inputs := [⟨"y"⟩] },
    { rule := "r", outputs := [⟨"y"⟩], inputs := [⟨"x"⟩] }, { rule := "r", outputs := [⟨"x"⟩] }] =
      none := by
  decide +kernel

/-! ## Orders -/

/-- Statements by their places. -/
def arrange (l : List Statement) (order : List Nat) : List Statement := order.filterMap (l[·]?)

theorem arrange_range (l : List Statement) : arrange l (List.range l.length) = l := by
  have hplaces : (List.range l.length).map (l[·]?) = l.map some := by
    refine List.ext_getElem (by simp) fun i hi _ => ?_
    simp at hi
    simp [hi]
  have hcompose : arrange l (List.range l.length) =
      ((List.range l.length).map (l[·]?)).filterMap id := by
    rw [List.filterMap_map]
    rfl
  rw [hcompose, hplaces, List.filterMap_map]
  exact List.filterMap_some

theorem respectsInputs_arrange (hl : Disjoint l) {order : List Nat} (h : (digraph l).Sorted order) :
    RespectsInputs (arrange l order) := by
  intro r hr s hs p hp hmakes xs ys hsplit
  obtain ⟨front, back, rfl, rfl, hback⟩ := List.filterMap_eq_append_iff.1 hsplit
  obtain ⟨skipped, k, rest, rfl, hskipped, hk, -⟩ := List.filterMap_eq_cons_iff.1 hback
  obtain ⟨i, -, hi⟩ := List.mem_filterMap.1 hr
  have hedge := edge_of_makes hl hi hk hp hmakes
  have hfront : i ∈ front ++ skipped := by
    refine h.forward i k hedge (front ++ skipped) rest ?_
    rw [List.append_assoc]
  rcases List.mem_append.1 hfront with hfront | hnone
  · exact List.mem_filterMap.2 ⟨i, hfront, hi⟩
  · rw [hskipped i hnone] at hi
    cases hi

theorem acyclic_iff_exists_order (hl : Disjoint l) :
    (¬∃ r, OnCycle l r) ↔ ∃ order, order.Perm l ∧ RespectsInputs order := by
  constructor
  · intro h
    have hnone : onCycle? l = none := onCycle?_of_acyclic Digraph.correct_toposort h
    obtain ⟨order, horder⟩ := (onCycle?_eq_none_iff Digraph.correct_toposort).1 hnone
    have hsorted := Digraph.correct_toposort.sorted _ order horder
    refine ⟨arrange l order, ?_, respectsInputs_arrange hl hsorted⟩
    have hperm : (arrange l order).Perm (arrange l (List.range l.length)) :=
      hsorted.perm.filterMap _
    rwa [arrange_range] at hperm
  · rintro ⟨order, hperm, horder⟩ ⟨r, hr⟩
    refine not_precedes_self (hperm.mem_iff.2 hr.mem) (precedes_of_transGen ?_ hr)
    rintro a b ⟨ha, hb, p, hp, hap⟩
    exact horder a (hperm.mem_iff.2 ha) b (hperm.mem_iff.2 hb) p hp hap

end Graph

/-! ## Whole runs -/

/-- Every statement of a run has an output. -/
theorem Reached.builds_outputs_ne_nil {around : Surroundings} {steps : List Step} {m : Moment}
    (h : Reached around steps m) {s : Statement} (hs : s ∈ m.assembly.builds) : s.outputs ≠ [] := by
  rw [← h.promises.builds_eq] at hs
  obtain ⟨o, ho, rfl⟩ := List.mem_map.1 hs
  exact h.outputs_ne_nil ho

/-- A graph of steps that is finished has no cycle. -/
theorem Assembly.acyclic_of_finish {sort : Toposort} (hsort : sort.Correct) {around : Surroundings}
    {tree : Tree} {settings : Settings} {steps : List Step} {a : Assembly} {file : BuildFile}
    (hsteps : steps.foldlM (addStep around) {} = .ok a)
    (h : a.finish tree settings sort = .ok file) : ¬∃ r, Graph.OnCycle a.builds r := by
  obtain ⟨m, hm, -, rfl⟩ := exists_over hsteps
  obtain ⟨-, -, hnone, -⟩ := finish_ok h
  exact (Graph.onCycle?_eq_none hsort hm.uniqueProducer.disjoint).1 hnone

/-- If all steps go through and all rules are known, then with any correct sort
* the graph is refused because of a cycle exactly if there is one;
* the error then names an output of a statement on a cycle;
* there is a build file, and it has the statements of the graph, exactly if they have an order in
  which every statement stands behind those that make its inputs. -/
theorem refuses_exactly_cycles {sort : Toposort} (hsort : sort.Correct) {around : Surroundings}
    {settings : Settings} {steps : List Step} {a : Assembly} {rules : Table Rule}
    (hsteps : steps.foldlM (Assembly.addStep around) {} = .ok a)
    (hrules : a.used.toList.foldlM Assembly.completeRule a.rules = .ok rules) :
    ((∃ p, assemble around settings steps sort = .error (.cycle p)) ↔
      ∃ r, Graph.OnCycle a.builds r) ∧
    (∀ p, assemble around settings steps sort = .error (.cycle p) →
      ∃ r, Graph.OnCycle a.builds r ∧ p ∈ r.outputs) ∧
    ((∃ file, assemble around settings steps sort = .ok file ∧ file.builds = a.builds) ↔
      ∃ order, order.Perm a.builds ∧ RespectsInputs order) ∧
    (∀ file, assemble around settings steps sort = .ok file →
      ∃ order, order.Perm file.builds ∧ RespectsInputs order) := by
  obtain ⟨m, hm, -, rfl⟩ := exists_over hsteps
  have hdisjoint : Graph.Disjoint m.assembly.builds := hm.uniqueProducer.disjoint
  have heq : assemble around settings steps sort =
      m.assembly.finish around.tree settings sort := by
    rw [assemble, hsteps, ok_bind]
  rw [heq, ← Graph.acyclic_iff_exists_order hdisjoint]
  cases hc : Graph.onCycle? m.assembly.builds sort with
  | some s =>
    have hcycle := Graph.onCycle?_onCycle hsort hc
    have hne := hm.builds_outputs_ne_nil hcycle.mem
    rw [Assembly.finish_of_cycle hrules hc]
    refine ⟨⟨fun _ => ⟨s, hcycle⟩, fun _ => ⟨_, rfl⟩⟩, ?_, ⟨?_, ?_⟩, ?_⟩
    · rintro _ ⟨⟩
      refine ⟨s, hcycle, ?_⟩
      obtain ⟨p, ps, hs⟩ := List.exists_cons_of_ne_nil hne
      rw [hs]
      exact List.mem_cons_self
    · rintro ⟨_, h, -⟩
      cases h
    · intro h
      exact absurd ⟨s, hcycle⟩ h
    · rintro _ ⟨⟩
  | none =>
    have hacyclic := (Graph.onCycle?_eq_none hsort hdisjoint).1 hc
    rw [Assembly.finish_of_acyclic hrules hc]
    refine ⟨⟨?_, ?_⟩, ?_, ⟨fun _ => hacyclic, fun _ => ⟨_, rfl, rfl⟩⟩, ?_⟩
    · rintro ⟨_, h⟩
      cases h
    · intro h
      exact absurd h hacyclic
    · rintro _ ⟨⟩
    · rintro _ ⟨⟩
      exact (Graph.acyclic_iff_exists_order hdisjoint).1 hacyclic

/-- Two statements, each of which makes an input of the other one. -/
def Task.knot : Task where
  command := { name := "knot", rules := .ofPairs [("knot", .ofCommand "tie ${out}")]
               action? := fun _ => none }
  action := fun _ _ _ => .ok ⟨[
    .build { rule := "knot", outputs := [⟨"a"⟩], implicit := [⟨"b"⟩] },
    .build { rule := "knot", outputs := [⟨"b"⟩], orderOnly := [⟨"./a"⟩] }], []⟩
  inputs := [⟨[.literal "start"], Pattern.readable_literal "start"⟩]
  builtInputsOnly := true

def Step.knotted : List Step := [.barrier "start", .build .knot]

theorem refuses_exactly_cycles_knotted :
    ∃ a, Step.knotted.foldlM (Assembly.addStep .bare) {} = .ok a ∧
      ∃ p, assemble .bare {} Step.knotted = .error (.cycle p) ∧
        ∃ r, Graph.OnCycle a.builds r ∧ p ∈ r.outputs := by
  have hrun : (Step.knotted.foldlM (Assembly.addStep .bare) {} >>= fun a =>
      a.used.toList.foldlM Assembly.completeRule a.rules).map Table.keys = .ok ["knot"] := by
    decide +kernel
  obtain ⟨rules, hrun, -⟩ := map_eq_ok.1 hrun
  obtain ⟨a, hsteps, hrules⟩ := bind_eq_ok.1 hrun
  have herror : assemble .bare {} Step.knotted = .error (.cycle ⟨"a"⟩) := by decide +kernel
  obtain ⟨-, hnamed, -⟩ := refuses_exactly_cycles Digraph.correct_toposort hsteps hrules
  exact ⟨a, hsteps, _, herror, hnamed _ herror⟩

end DocGraph
