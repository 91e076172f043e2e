import DocGraph.Proofs.Pattern.Binding
import Mathlib.Data.List.Induction

/-!
# DocGraph.Proofs.Pattern.Filter

The groups into which a pattern sorts paths.

* `find?_buckets`    — the bucket of some values holds the paths with these values.
* `mem_groups`       — a group is a binding of all names with the paths that have its values.
* `filter_congr`     — paths that do not match make no difference, nor does the order of paths.
* `filter_increasing` — groups are in the order of their values.
-/

namespace DocGraph
namespace Pattern

theorem buckets_concat (p : Pattern) (l : List String) (path : String) :
    p.buckets (l ++ [path]) =
      match p.captures path with
      | some values => addTo (p.buckets l) values path
      | none => p.buckets l := List.foldl_append

/-- The bucket of some values holds the paths with these values. -/
theorem find?_buckets (p : Pattern) (l : List String) (values : List String) :
    (p.buckets l).find? values =
      if l.filter (fun path => p.captures path = some values) = [] then none
      else some (values, .ofList (l.filter fun path => p.captures path = some values)) := by
  induction l using List.reverseRecOn with
  | nil => rfl
  | append_singleton l path ih =>
    rw [buckets_concat, List.filter_append]
    cases hc : p.captures path with
    | none => simp [hc, ih]
    | some vs =>
      dsimp only [addTo]
      rw [SortedBy.find?_put]
      by_cases hv : vs = values
      · subst hv
        have hold : (((p.buckets l).find? vs).map Prod.snd).getD ∅ =
            (.ofList (l.filter fun path => p.captures path = some vs) : TextSet) := by
          rw [ih]
          split
          · next hnil =>
            rw [hnil]
            rfl
          · rfl
        simp [hc, hold, SortedBy.ofList, SortedBy.insertMany]
      · simp [hc, hv, ih]

theorem mem_buckets {p : Pattern} {l : List String} {values : List String} {paths : TextSet} :
    (values, paths) ∈ p.buckets l ↔
      paths = .ofList (l.filter fun path => p.captures path = some values) ∧
        ∃ path ∈ l, p.captures path = some values := by
  have hmem : (values, paths) ∈ p.buckets l ↔
      (p.buckets l).find? values = some (values, paths) := by
    rw [SortedBy.find?_eq_some_iff]
    exact (and_iff_left rfl).symm
  have hex : (∃ path ∈ l, p.captures path = some values) ↔
      l.filter (fun path => p.captures path = some values) ≠ [] := by
    simp
  rw [hmem, find?_buckets, hex]
  by_cases h : l.filter (fun path => p.captures path = some values) = []
  · rw [if_pos h]
    constructor
    · intro he
      cases he
    · rintro ⟨-, hne⟩
      exact absurd h hne
  · rw [if_neg h, Option.some.injEq, Prod.mk.injEq]
    constructor
    · rintro ⟨-, he⟩
      exact ⟨he.symm, h⟩
    · rintro ⟨rfl, -⟩
      exact ⟨rfl, rfl⟩

/-- A group is a binding of all names with the paths that have its values. -/
theorem mem_groups {p : Pattern} {l : List String} {b : Binding} {paths : List String} :
    (b, paths) ∈ p.filter l ↔
      b.Covers p.names ∧
      paths = (.ofList (l.filter fun path => p.captures path = some (b.values p.names)) :
        TextSet).toList ∧
      ∃ path ∈ l, p.captures path = some (b.values p.names) := by
  rw [filter, List.mem_map]
  constructor
  · rintro ⟨⟨values, group⟩, he, h⟩
    obtain ⟨rfl, path, hpath, hc⟩ := mem_buckets.1 he
    cases h
    have hl := captures_length hc
    rw [Binding.values_ofPairs p.nodup_names hl]
    exact ⟨Binding.covers_ofPairs p.nodup_names hl, rfl, path, hpath, hc⟩
  · rintro ⟨hb, rfl, hex⟩
    refine ⟨_, mem_buckets.2 ⟨rfl, hex⟩, ?_⟩
    rw [← Binding.eq_ofPairs hb p.nodup_names]

theorem mem_filter {p : Pattern} {s : TextSet} {b : Binding} {paths : List String} :
    (b, paths) ∈ p.filter s.toList ↔
      b.Covers p.names ∧
      paths = (s.filter fun path => p.captures path = some (b.values p.names)).toList ∧
      ∃ path ∈ s, p.captures path = some (b.values p.names) := by
  have hset : (.ofList (s.toList.filter fun path => p.captures path = some (b.values p.names)) :
      TextSet) = s.filter fun path => p.captures path = some (b.values p.names) :=
    SortedBy.ofList_toList (s.filter fun path => p.captures path = some (b.values p.names))
  rw [mem_groups, hset]
  rfl

/-- Only paths that match count, and neither their order nor their number. -/
theorem filter_congr {p : Pattern} {l l' : List String}
    (h : ∀ path, p.isMatch path = true → (path ∈ l ↔ path ∈ l')) : p.filter l = p.filter l' := by
  have hmem : ∀ values path, path ∈ l.filter (fun path => p.captures path = some values) ↔
      path ∈ l'.filter fun path => p.captures path = some values := by
    intro values path
    rw [List.mem_filter, List.mem_filter, decide_eq_true_eq]
    refine and_congr_left ?_
    intro hc
    exact h path (by rw [isMatch, hc]; rfl)
  have hbuckets : p.buckets l = p.buckets l' := by
    refine SortedBy.ext_find? ?_
    intro values
    have hset : (.ofList (l.filter fun path => p.captures path = some values) : TextSet) =
        .ofList (l'.filter fun path => p.captures path = some values) := by
      refine SortedBy.ext_mem ?_
      intro path
      rw [TextSet.mem_ofList, TextSet.mem_ofList, hmem]
    have hnil : l.filter (fun path => p.captures path = some values) = [] ↔
        l'.filter (fun path => p.captures path = some values) = [] := by
      rw [List.eq_nil_iff_forall_not_mem, List.eq_nil_iff_forall_not_mem]
      exact forall_congr' fun path => not_congr (hmem values path)
    rw [find?_buckets, find?_buckets, hset]
    exact if_congr hnil rfl rfl
  rw [filter, filter, hbuckets]

/-- Groups are in the order of their values. -/
theorem filter_increasing (p : Pattern) (l : List String) :
    (p.filter l).Pairwise fun e f =>
      compare (e.1.values p.names) (f.1.values p.names) = .lt := by
  rw [filter, List.pairwise_map]
  refine (p.buckets l).increasing.imp_of_mem ?_
  rintro ⟨v, g⟩ ⟨w, h⟩ hv hw hlt
  obtain ⟨-, x, -, hx⟩ := mem_buckets.1 hv
  obtain ⟨-, y, -, hy⟩ := mem_buckets.1 hw
  rw [Binding.values_ofPairs p.nodup_names (captures_length hx),
    Binding.values_ofPairs p.nodup_names (captures_length hy)]
  exact hlt

end Pattern
end DocGraph
