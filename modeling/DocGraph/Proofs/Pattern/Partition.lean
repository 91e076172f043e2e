import DocGraph.Proofs.Pattern.Filter
import DocGraph.Proofs.Text.Order

/-!
# DocGraph.Proofs.Pattern.Partition

The groups of a pattern partition the paths that match.

* `Pattern.Grouped`   — each path that matches is in one group, nothing else is in any, and groups and
  paths are in order.
* `filter_partitions` — the groups of any list of paths are so, and depend only on which paths are in
  the list.
-/

namespace DocGraph

theorem Text.map_utf8_lt {l m : List String} (h : compare l m = .lt) :
    l.map utf8 < m.map utf8 := by
  induction l generalizing m with
  | nil =>
    cases m with
    | nil => cases h
    | cons t m => exact List.nil_lt_cons _ _
  | cons s l ih =>
    cases m with
    | nil => cases h
    | cons t m =>
      rw [List.compare_cons_cons, Ordering.then_eq_lt] at h
      rw [List.map_cons, List.map_cons, List.cons_lt_cons_iff]
      rcases h with h | ⟨heq, h⟩
      · exact .inl (utf8_lt_utf8 (compareOfLessAndEq_eq_lt.1 h))
      · rw [Std.compare_eq_iff_eq.1 heq]
        exact .inr ⟨rfl, ih h⟩

namespace Pattern

/-- The paths of a list that match, grouped by the values of the named wildcards. -/
structure Grouped (p : Pattern) (l : List String) (groups : List (Binding × List String)) :
    Prop where
  placed : ∀ path ∈ l, p.isMatch path = true → ∃! g, g ∈ groups ∧ path ∈ g.2
  /-- The binding of a group is what any path in it has captured. -/
  captured : ∀ g ∈ groups, g.1.Covers p.names ∧
    ∀ path ∈ g.2, path ∈ l ∧ p.captures path = some (g.1.values p.names)
  ne_nil : ∀ g ∈ groups, g.2 ≠ []
  values_lt : groups.Pairwise fun g h =>
    (g.1.values p.names).map Text.utf8 < (h.1.values p.names).map Text.utf8
  paths_lt : ∀ g ∈ groups, g.2.Pairwise fun a b => Text.utf8 a < Text.utf8 b

theorem mem_group {p : Pattern} {l : List String} {g : Binding × List String}
    (hg : g ∈ p.filter l) {path : String} :
    path ∈ g.2 ↔ path ∈ l ∧ p.captures path = some (g.1.values p.names) := by
  obtain ⟨-, hpaths, -⟩ := mem_groups.1 hg
  rw [hpaths, ← SortedBy.mem_def, TextSet.mem_ofList, List.mem_filter, decide_eq_true_eq]

/-- Groups with the same values are the same. -/
theorem eq_of_values_eq {p : Pattern} {l : List String} {g h : Binding × List String}
    (hg : g ∈ p.filter l) (hh : h ∈ p.filter l)
    (hvalues : g.1.values p.names = h.1.values p.names) : g = h := by
  obtain ⟨hcovers, hpaths, -⟩ := mem_groups.1 hg
  obtain ⟨hcovers', hpaths', -⟩ := mem_groups.1 hh
  refine Prod.ext ?_ ?_
  · rw [Binding.eq_ofPairs hcovers p.nodup_names, Binding.eq_ofPairs hcovers' p.nodup_names,
      hvalues]
  · rw [hpaths, hpaths', hvalues]

theorem exists_group {p : Pattern} {l : List String} {path : String} (hpath : path ∈ l)
    {values : List String} (hc : p.captures path = some values) :
    ∃ g ∈ p.filter l, path ∈ g.2 := by
  have hlen := captures_length hc
  have hvalues : Binding.values (Table.ofPairs (p.names.zip values)) p.names = values :=
    Binding.values_ofPairs p.nodup_names hlen
  have hg := mem_groups.2 ⟨Binding.covers_ofPairs p.nodup_names hlen, rfl, path, hpath,
    by rw [hvalues]; exact hc⟩
  exact ⟨_, hg, (mem_group hg).2 ⟨hpath, by rw [hvalues]; exact hc⟩⟩

theorem filter_grouped (p : Pattern) (l : List String) : p.Grouped l (p.filter l) where
  placed := by
    intro path hpath hmatch
    obtain ⟨values, hc⟩ := Option.isSome_iff_exists.1 hmatch
    obtain ⟨g, hg, hmem⟩ := exists_group hpath hc
    refine ⟨g, ⟨hg, hmem⟩, ?_⟩
    rintro h ⟨hh, hmem'⟩
    refine eq_of_values_eq hh hg (Option.some.inj ?_)
    rw [← ((mem_group hh).1 hmem').2, ((mem_group hg).1 hmem).2]
  captured := by
    intro g hg
    exact ⟨(mem_groups.1 hg).1, fun path hpath => (mem_group hg).1 hpath⟩
  ne_nil := by
    intro g hg
    obtain ⟨-, -, path, hpath, hc⟩ := mem_groups.1 hg
    exact List.ne_nil_of_mem ((mem_group hg).2 ⟨hpath, hc⟩)
  values_lt := (filter_increasing p l).imp Text.map_utf8_lt
  paths_lt := by
    intro g hg
    obtain ⟨-, hpaths, -⟩ := mem_groups.1 hg
    rw [hpaths]
    refine (SortedBy.increasing _).imp ?_
    intro a b hlt
    exact Text.utf8_lt_utf8 (compareOfLessAndEq_eq_lt.1 hlt)

/-- The groups of paths partition those that match, in order of their values, and it does not matter
in which order the paths come or how often. -/
theorem filter_partitions (p : Pattern) (l : List String) :
    p.Grouped l (p.filter l) ∧
      ∀ l', (∀ path, path ∈ l ↔ path ∈ l') → p.filter l = p.filter l' :=
  ⟨filter_grouped p l, fun _ h => filter_congr fun path _ => h path⟩

/-- Two groups, of paths that come in another order and twice. -/
theorem filter_partitions_repeated :
    let p : Pattern := ⟨[.named "x", .literal "/", .star], by decide⟩
    let l := ["b/1", "a/2", "c", "a/1"]
    let l' := ["a/1", "b/1", "c", "a/2", "a/1"]
    (∀ path, path ∈ l ↔ path ∈ l') ∧ p.filter l = p.filter l' ∧
      (p.filter l).map Prod.snd = [["a/1", "a/2"], ["b/1"]] ∧ p.Grouped l (p.filter l) := by
  intro p l l'
  have hmem : ∀ path, path ∈ l ↔ path ∈ l' := by
    intro path
    simp only [l, l', List.mem_cons, List.not_mem_nil, or_false]
    tauto
  obtain ⟨hgrouped, hsame⟩ := filter_partitions p l
  exact ⟨hmem, hsame l' hmem, by decide +kernel, hgrouped⟩

end Pattern
end DocGraph
