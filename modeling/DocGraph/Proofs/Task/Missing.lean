import DocGraph.Proofs.Path.Canonical
import DocGraph.Proofs.Task.Variation
import DocGraph.Proofs.Text.Words
import DocGraph.Proofs.Tree.Location
import Mathlib.Data.List.Basic

/-!
# DocGraph.Proofs.Task.Missing

Which statements are replaced for want of inputs.

* `Task.lacking`         — the inputs that may be missing, and are neither built nor there.
* `Statement.Replaces`   — a statement stands in for one with missing inputs, and lists these.
* `Statement.Downgraded` — it does so exactly if there are any.
* `downgraded_iff`       — post-processing goes by files: the statement is replaced for what exists
  nowhere exactly if no input in question is a directory.
* `directory_is_missing` — a directory counts as missing though it is there.
-/

namespace DocGraph

theorem Path.eq_of_spaced_eq {l m : List Path} (h : l.Sublist m) (hne : l ≠ [])
    (heq : Path.spaced l = Path.spaced m) : l = m := by
  have htexts : l.map Path.text = m.map Path.text :=
    Text.eq_of_spaced_eq (h.map Path.text) (by simpa using hne) heq
  have hlen := congrArg List.length htexts
  rw [List.length_map, List.length_map] at hlen
  exact h.eq_of_length_le hlen.ge

namespace Statement

/-- The statement `r` stands in for `e`, and lists those inputs of `e` that are missing. -/
structure Replaces (r e : Statement) (missing : List Path) : Prop where
  ne_nil : missing ≠ []
  subset : missing ⊆ e.inputs ++ e.implicit
  rule_eq : r.rule = Rule.errorMissing
  outputs_eq : r.outputs = e.outputs
  implicitOutputs_eq : r.implicitOutputs = Path.sorted e.implicitOutputs
  allInputs_eq : r.allInputs = []
  missing_eq : r.vars.get? "missing" = some (Path.spaced missing)

/-- The statement `e` has become `r`, which stands in for it exactly if something is missing. -/
structure Downgraded (e r : Statement) (isDefault : Bool) (missing : List Path) : Prop where
  iff : (∃ listed, r.Replaces e listed) ↔ missing ≠ []
  replaces : missing ≠ [] → isDefault = false ∧ r.Replaces e missing

end Statement

namespace Task

/-- The inputs that may be missing and are not built, of which nothing is there by the test
`there`. -/
def lacking (t : Task) (known : PathSet) (there : Path → Bool) (e : Statement) : List Path :=
  (e.inputs ++ e.implicit).filter fun p =>
    t.ignoreMissing.any (·.isMatch p.text) && !known.contains p.components && !there p

variable {t : Task} {tree : Tree} {known : PathSet} {there : Path → Bool} {s e : Statement} {p : Path}

theorem missingInputs_eq : t.missingInputs tree known e = t.lacking known tree.isFile e := by
  refine List.filter_congr ?_
  intro p _
  rw [isPresent, Bool.not_or, Bool.and_comm, Bool.and_assoc]

theorem mem_lacking : p ∈ t.lacking known there e ↔ p ∈ e.inputs ++ e.implicit ∧
    t.ignoreMissing.any (·.isMatch p.text) = true ∧ known.contains p.components = false ∧
    there p = false := by
  rw [lacking, List.mem_filter]
  simp [and_assoc]

/-- A completed statement keeps its inputs, so it stands in for nothing. -/
theorem not_replaces_complete {listed : List Path} : ¬(t.complete e).Replaces e listed := by
  intro h
  have hempty := h.allInputs_eq
  rw [Statement.allInputs, List.append_eq_nil_iff, List.append_eq_nil_iff, complete_inputs,
    complete_implicit, Path.sorted, SortedBy.toList_ofList_eq_nil_iff] at hempty
  obtain ⟨⟨hinputs, himplicit⟩, -⟩ := hempty
  have hsubset := h.subset
  rw [hinputs, himplicit] at hsubset
  exact h.ne_nil (List.subset_nil.1 hsubset)

theorem replaces_placeholder {missing : List Path} (hne : missing ≠ [])
    (hsubset : missing ⊆ e.inputs ++ e.implicit) : (placeholder e missing).Replaces e missing := by
  refine ⟨hne, hsubset, rfl, rfl, rfl, rfl, ?_⟩
  exact (Table.get?_ofPairs (by simp)).2 (List.mem_singleton.2 rfl)

theorem exists_downgraded (tree : Tree) (known : PathSet) (ho : s.outputs ≠ [])
    (he : expand t.constants (overrideVariables t.constants s) = .ok e) :
    ∃ r d, t.postProcess tree known s = .ok (.build r d) ∧
      e.Downgraded r d (t.lacking known tree.isFile e) := by
  have hpost := postProcess_eq t tree known ho he
  rw [missingInputs_eq] at hpost
  by_cases hm : t.lacking known tree.isFile e = []
  · rw [if_pos hm] at hpost
    refine ⟨_, _, hpost, ?_, fun hne => absurd hm hne⟩
    exact ⟨fun ⟨_, h⟩ => absurd h not_replaces_complete, fun hne => absurd hm hne⟩
  · rw [if_neg hm] at hpost
    have hreplaces := replaces_placeholder hm (List.filter_subset_self _)
    exact ⟨_, _, hpost, ⟨fun _ => hm, fun _ => ⟨_, hreplaces⟩⟩, fun _ => ⟨rfl, hreplaces⟩⟩

/-- What exists nowhere is no file. -/
theorem lacking_sublist :
    (t.lacking known tree.exists? e).Sublist (t.lacking known tree.isFile e) := by
  refine List.monotone_filter_right _ ?_
  intro p hp
  simp only [Bool.and_eq_true, Bool.not_eq_true'] at hp ⊢
  refine ⟨hp.1, ?_⟩
  rw [← Bool.not_eq_true]
  intro hfile
  rw [Tree.exists?_iff.2 (.inl hfile)] at hp
  exact absurd hp.2 nofun

theorem lacking_eq_iff : t.lacking known tree.exists? e = t.lacking known tree.isFile e ↔
    ∀ p ∈ t.lacking known tree.isFile e, tree.isDirectory p = false := by
  constructor
  · intro h p hp
    rw [← h, mem_lacking] at hp
    rw [← Bool.not_eq_true]
    intro hdirectory
    rw [Tree.exists?_iff.2 (.inr hdirectory)] at hp
    exact absurd hp.2.2.2 nofun
  · intro h
    refine List.filter_congr ?_
    intro p hp
    rw [Bool.eq_iff_iff]
    simp only [Bool.and_eq_true, Bool.not_eq_true']
    refine and_congr_right ?_
    rintro ⟨hexcused, hunbuilt⟩
    constructor
    · intro hnowhere
      rw [← Bool.not_eq_true, Tree.exists?_iff, not_or] at hnowhere
      simpa using hnowhere.1
    · intro hfile
      have hdirectory := h p (mem_lacking.2 ⟨hp, hexcused, hunbuilt, hfile⟩)
      rw [← Bool.not_eq_true, Tree.exists?_iff, hfile, hdirectory]
      exact nofun

/-- Of what is listed as missing, nothing may be left out. -/
theorem eq_of_downgraded {r : Statement} {d : Bool} {listed missing : List Path}
    (h : e.Downgraded r d listed) (h' : e.Downgraded r d missing) (hsub : missing.Sublist listed) :
    missing = listed := by
  by_cases hlisted : listed = []
  · rw [hlisted] at hsub ⊢
    exact List.sublist_nil.1 hsub
  · have hreplaces := (h.replaces hlisted).2
    have hmissing : missing ≠ [] := h'.iff.1 ⟨_, hreplaces⟩
    have htext := (h'.replaces hmissing).2.missing_eq
    rw [hreplaces.missing_eq] at htext
    exact Path.eq_of_spaced_eq hsub hmissing (Option.some.inj htext).symm

/-- A statement whose paths expand is replaced exactly if some input that may be missing is not built
and is no file, and then all these inputs are listed. It is replaced exactly for what does not exist if
none of these inputs is a directory. -/
theorem downgraded_iff (tree : Tree) (known : PathSet) (ho : s.outputs ≠ [])
    (he : expand t.constants (overrideVariables t.constants s) = .ok e) :
    ∃ r d, t.postProcess tree known s = .ok (.build r d) ∧
      e.Downgraded r d (t.lacking known tree.isFile e) ∧
      (e.Downgraded r d (t.lacking known tree.exists? e) ↔
        ∀ p ∈ t.lacking known tree.isFile e, tree.isDirectory p = false) := by
  obtain ⟨r, d, hpost, hdowngraded⟩ := exists_downgraded tree known ho he
  refine ⟨r, d, hpost, hdowngraded, ?_⟩
  rw [← lacking_eq_iff]
  constructor
  · intro h
    exact eq_of_downgraded hdowngraded h lacking_sublist
  · intro h
    rw [h]
    exact hdowngraded

/-- A task whose tables may be missing. -/
def tabulating : Task where
  command := { name := "plot", rules := ∅, action? := fun _ => none }
  action := fun _ inputs outputs => .ok (.ofStatement { rule := "plot", outputs, inputs })
  inputs := []
  ignoreMissing := [⟨[.star, .literal ".csv"], by decide⟩]

/-- A statement with tables for inputs. -/
def plot (inputs implicit : List Path) : Statement :=
  { rule := "plot", outputs := [⟨"out/plot.pdf"⟩], inputs, implicit }

/-- Of three tables, one is built and one is there. -/
theorem downgraded_iff_tables :
    let tree := (Tree.bare ["w"]).put ["w", "kept.csv"] (.file ⟨#[]⟩)
    let known : PathSet := .ofList [⟨"made.csv"⟩]
    let s := plot [⟨"kept.csv"⟩, ⟨"./lost.csv"⟩] [⟨"made.csv"⟩]
    let e := plot [⟨"kept.csv"⟩, ⟨"lost.csv"⟩] [⟨"made.csv"⟩]
    s.outputs ≠ [] ∧ expand tabulating.constants (overrideVariables tabulating.constants s) = .ok e ∧
      tabulating.lacking known tree.exists? e = [⟨"lost.csv"⟩] ∧
      ∃ r d, tabulating.postProcess tree known s = .ok (.build r d) ∧
        e.Downgraded r d [⟨"lost.csv"⟩] := by
  intro tree known s e
  have ho : s.outputs ≠ [] := List.cons_ne_nil _ _
  have he : expand tabulating.constants (overrideVariables tabulating.constants s) = .ok e := by
    decide +kernel
  have hlacking : tabulating.lacking known tree.exists? e = [⟨"lost.csv"⟩] := by decide +kernel
  have hfiles : ∀ p ∈ tabulating.lacking known tree.isFile e, tree.isDirectory p = false := by
    decide +kernel
  obtain ⟨r, d, hpost, -, hiff⟩ := downgraded_iff tree known ho he
  have hdowngraded := hiff.2 hfiles
  rw [hlacking] at hdowngraded
  exact ⟨ho, he, hlacking, r, d, hpost, hdowngraded⟩

/-- A statement is replaced for want of a directory that is there. -/
theorem directory_is_missing :
    ¬∀ (t : Task) (tree : Tree) (known : PathSet) (s e : Statement), s.outputs ≠ [] →
      expand t.constants (overrideVariables t.constants s) = .ok e →
      ∃ r d, t.postProcess tree known s = .ok (.build r d) ∧
        e.Downgraded r d (t.lacking known tree.exists? e) := by
  intro h
  let tree := (Tree.bare ["w"]).put ["w", "a.csv"] .directory
  let s := plot [⟨"a.csv"⟩] []
  obtain ⟨r, d, hpost, hdowngraded⟩ := h tabulating tree ∅ s s (List.cons_ne_nil _ _)
    (by decide +kernel)
  have hreplaced : tabulating.postProcess tree ∅ s = .ok (.build (placeholder s [⟨"a.csv"⟩]) false) := by
    decide +kernel
  have hlacking : tabulating.lacking ∅ tree.exists? s = [] := by decide +kernel
  rw [hreplaced] at hpost
  cases hpost
  have hreplaces : (placeholder s [⟨"a.csv"⟩]).Replaces s [⟨"a.csv"⟩] :=
    replaces_placeholder (List.cons_ne_nil _ _) (by simp [s, plot])
  exact hdowngraded.iff.1 ⟨_, hreplaces⟩ hlacking

end Task
end DocGraph
