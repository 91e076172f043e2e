import DocGraph.Ordered.Lemmas
import DocGraph.Pattern.Basic
import Mathlib.Data.List.Nodup

/-!
# DocGraph.Proofs.Pattern.Names

Names of wildcards and their values.

* `Binding.values`, `Binding.Covers` — the values of names, and that a binding has exactly these names.
* `Binding.restrict`, `Binding.without` — the part of a binding for some names, and the other part.
* `eq_ofPairs`     — a binding is made of its names and values.
* `mem_firsts`, `nodup_firsts`, `firsts_append`, `firsts_filter` — texts in order of first appearance.
-/

namespace DocGraph

namespace Binding

/-- The value of a name, which the binding has. -/
def value (b : Binding) (name : String) : String := (b.get? name).getD ""

/-- The values of names. -/
def values (b : Binding) (names : List String) : List String := names.map b.value

/-- The binding has values for exactly these names. -/
def Covers (b : Binding) (names : List String) : Prop :=
  ∀ n, (b.get? n).isSome = true ↔ n ∈ names

/-- The part of a binding for some names. -/
def restrict (b : Binding) (names : List String) : Binding := b.filter fun e => decide (e.1 ∈ names)

/-- The part of a binding for all other names. -/
def without (b : Binding) (names : List String) : Binding := b.filter fun e => decide (e.1 ∉ names)

theorem get?_restrict (b : Binding) (names : List String) (n : String) :
    (b.restrict names).get? n = if n ∈ names then b.get? n else none := by
  rw [restrict, Table.get?_filter b fun n => decide (n ∈ names)]
  simp only [decide_eq_true_eq]

theorem get?_without (b : Binding) (names : List String) (n : String) :
    (b.without names).get? n = if n ∈ names then none else b.get? n := by
  rw [without, Table.get?_filter b fun n => decide (n ∉ names)]
  by_cases h : n ∈ names
  · simp [h]
  · simp [h]

theorem get?_eq_value {b : Binding} {n : String} (h : (b.get? n).isSome = true) :
    b.get? n = some (b.value n) := by
  obtain ⟨v, hv⟩ := Option.isSome_iff_exists.1 h
  rw [value, hv]
  rfl

theorem Covers.get?_eq_none {b : Binding} {names : List String} (h : b.Covers names) {n : String}
    (hn : n ∉ names) : b.get? n = none := by
  rw [← h n] at hn
  simpa using hn

theorem values_congr {b c : Binding} {names : List String}
    (h : ∀ n ∈ names, b.get? n = c.get? n) : b.values names = c.values names := by
  refine List.map_congr_left ?_
  intro n hn
  rw [value, value, h n hn]

theorem covers_restrict {b : Binding} {names : List String}
    (h : ∀ n ∈ names, (b.get? n).isSome = true) : (b.restrict names).Covers names := by
  intro n
  rw [get?_restrict]
  split
  · next hn =>
    exact iff_of_true (h n hn) hn
  · next hn =>
    exact iff_of_false Bool.false_ne_true hn

theorem values_restrict (b : Binding) (names : List String) :
    (b.restrict names).values names = b.values names := by
  refine values_congr ?_
  intro n hn
  rw [get?_restrict, if_pos hn]

/-- Two parts of a binding for different names make it up. -/
theorem restrict_putMany_without (b : Binding) (names : List String) :
    (b.restrict names).putMany (b.without names).toList = b := by
  refine Table.ext_get? ?_
  intro n
  rw [Table.get?_putMany, get?_restrict, get?_without]
  split
  · rw [Option.none_or]
  · rw [Option.or_none]

theorem get?_putMany_of_covers {b c : Binding} {names others : List String}
    (hb : b.Covers names) (hc : c.Covers others) (h : ∀ n ∈ others, n ∉ names) (n : String) :
    Table.get? (b.putMany c.toList) n = if n ∈ names then b.get? n else c.get? n := by
  rw [Table.get?_putMany]
  split
  · next hn =>
    rw [hc.get?_eq_none fun ho => h n ho hn, Option.none_or]
  · next hn =>
    rw [hb.get?_eq_none hn, Option.or_none]

theorem restrict_putMany {b c : Binding} {names others : List String} (hb : b.Covers names)
    (hc : c.Covers others) (h : ∀ n ∈ others, n ∉ names) :
    restrict (b.putMany c.toList) names = b := by
  refine Table.ext_get? ?_
  intro n
  rw [get?_restrict, get?_putMany_of_covers hb hc h]
  split
  · rfl
  · next hn =>
    rw [hb.get?_eq_none hn]

theorem without_putMany {b c : Binding} {names others : List String} (hb : b.Covers names)
    (hc : c.Covers others) (h : ∀ n ∈ others, n ∉ names) :
    without (b.putMany c.toList) names = c := by
  refine Table.ext_get? ?_
  intro n
  rw [get?_without, get?_putMany_of_covers hb hc h]
  split
  · next hn =>
    rw [hc.get?_eq_none fun ho => h n ho hn]
  · rfl

/-- The values of a binding put together from names and values. -/
theorem values_ofPairs {names vals : List String} (hn : names.Nodup)
    (hl : vals.length = names.length) : values (Table.ofPairs (names.zip vals)) names = vals := by
  have hfst : ((names.zip vals).map Prod.fst).Nodup := by
    rw [List.map_fst_zip (by omega)]
    exact hn
  refine List.ext_getElem (by simp [values, hl]) ?_
  intro i hi hi'
  have hlt : i < names.length := by omega
  have hmem : (names[i], vals[i]) ∈ names.zip vals := by
    rw [← List.getElem_zip (h := by simp; omega)]
    exact List.getElem_mem _
  simp only [values, List.getElem_map, value, (Table.get?_ofPairs hfst).2 hmem]
  rfl

theorem covers_ofPairs {names vals : List String} (hn : names.Nodup)
    (hl : vals.length = names.length) : Covers (Table.ofPairs (names.zip vals)) names := by
  have hfst : (names.zip vals).map Prod.fst = names := List.map_fst_zip (by omega)
  intro n
  rw [Option.isSome_iff_exists]
  constructor
  · rintro ⟨v, hv⟩
    rw [Table.get?_ofPairs (by rw [hfst]; exact hn)] at hv
    rw [← hfst]
    exact List.mem_map_of_mem hv
  · intro h
    rw [← hfst] at h
    obtain ⟨⟨_, v⟩, hv, rfl⟩ := List.mem_map.1 h
    exact ⟨v, (Table.get?_ofPairs (by rw [hfst]; exact hn)).2 hv⟩

/-- A binding is made of its names and values. -/
theorem eq_ofPairs {b : Binding} {names : List String} (hb : b.Covers names) (hn : names.Nodup) :
    b = Table.ofPairs (names.zip (b.values names)) := by
  have hl : (b.values names).length = names.length := List.length_map _
  have hc := covers_ofPairs hn hl
  refine Table.ext_get? ?_
  intro n
  by_cases h : n ∈ names
  · have hv : b.value n = value (Table.ofPairs (names.zip (b.values names))) n :=
      List.map_inj_left.1 (values_ofPairs hn hl).symm n h
    rw [get?_eq_value ((hb n).2 h), get?_eq_value ((hc n).2 h), hv]
  · rw [hb.get?_eq_none h, hc.get?_eq_none h]

end Binding

namespace Pattern

/-! ## Names in order of first appearance -/

/-- Which texts were seen counts, but not in which order. -/
theorem firsts_congr {seen seen' : List String} (h : ∀ s, s ∈ seen ↔ s ∈ seen') (l : List String) :
    firsts seen l = firsts seen' l := by
  induction l generalizing seen seen' with
  | nil => rfl
  | cons a l ih =>
    rw [firsts, firsts]
    by_cases ha : a ∈ seen
    · rw [if_pos ha, if_pos ((h a).1 ha), ih h]
    · rw [if_neg ha, if_neg (mt (h a).2 ha)]
      refine congrArg (a :: ·) (ih ?_)
      intro s
      rw [List.mem_cons, List.mem_cons, h]

theorem mem_firsts {seen l : List String} {s : String} :
    s ∈ firsts seen l ↔ s ∈ l ∧ s ∉ seen := by
  induction l generalizing seen with
  | nil => simp [firsts]
  | cons a l ih =>
    rw [firsts]
    split
    · next ha =>
      rw [ih, List.mem_cons]
      constructor
      · rintro ⟨hs, hn⟩
        exact ⟨.inr hs, hn⟩
      · rintro ⟨rfl | hs, hn⟩
        · exact absurd ha hn
        · exact ⟨hs, hn⟩
    · next ha =>
      rw [List.mem_cons, ih, List.mem_cons, List.mem_cons, not_or]
      constructor
      · rintro (rfl | ⟨hs, _, hn⟩)
        · exact ⟨.inl rfl, ha⟩
        · exact ⟨.inr hs, hn⟩
      · rintro ⟨rfl | hs, hn⟩
        · exact .inl rfl
        · by_cases he : s = a
          · exact .inl he
          · exact .inr ⟨hs, he, hn⟩

theorem nodup_firsts (seen l : List String) : (firsts seen l).Nodup := by
  induction l generalizing seen with
  | nil => exact List.nodup_nil
  | cons a l ih =>
    rw [firsts]
    split
    · exact ih seen
    · rw [List.nodup_cons]
      refine ⟨?_, ih _⟩
      rw [mem_firsts]
      rintro ⟨_, hn⟩
      exact hn List.mem_cons_self

theorem firsts_append (seen l m : List String) :
    firsts seen (l ++ m) = firsts seen l ++ firsts (l ++ seen) m := by
  induction l generalizing seen with
  | nil => rfl
  | cons a l ih =>
    rw [List.cons_append, firsts, firsts]
    split
    · next ha =>
      rw [ih]
      refine congrArg (_ ++ ·) (firsts_congr ?_ m)
      intro s
      simp only [List.cons_append, List.mem_cons, List.mem_append]
      constructor
      · exact .inr
      · rintro (rfl | h)
        · exact .inr ha
        · exact h
    · rw [ih, List.cons_append]
      refine congrArg (a :: _ ++ ·) (firsts_congr ?_ m)
      intro s
      simp only [List.cons_append, List.mem_cons, List.mem_append]
      tauto

/-- Texts may be left out before or after repetitions go. -/
theorem firsts_filter {p : String → Bool} {seen seen' : List String}
    (h : ∀ s, p s = true → (s ∈ seen ↔ s ∈ seen')) (l : List String) :
    firsts seen (l.filter p) = (firsts seen' l).filter p := by
  induction l generalizing seen seen' with
  | nil => rfl
  | cons a l ih =>
    have hcons : ∀ s, p s = true → (s ∈ a :: seen ↔ s ∈ a :: seen') := by
      intro s hs
      rw [List.mem_cons, List.mem_cons, h s hs]
    by_cases hp : p a = true
    · rw [List.filter_cons_of_pos hp, firsts, firsts]
      by_cases ha : a ∈ seen
      · rw [if_pos ha, if_pos ((h a hp).1 ha), ih h]
      · rw [if_neg ha, if_neg (mt (h a hp).2 ha), List.filter_cons_of_pos hp, ih hcons]
    · rw [List.filter_cons_of_neg hp, firsts]
      by_cases ha : a ∈ seen'
      · rw [if_pos ha, ih h]
      · rw [if_neg ha, List.filter_cons_of_neg hp]
        refine ih ?_
        intro s hs
        rw [h s hs, List.mem_cons]
        constructor
        · exact .inr
        · rintro (rfl | hs')
          · exact absurd hs hp
          · exact hs'

theorem firsts_map {f : String → String} (hf : Function.Injective f) (seen l : List String) :
    firsts (seen.map f) (l.map f) = (firsts seen l).map f := by
  induction l generalizing seen with
  | nil => rfl
  | cons s l ih =>
    have hmem : f s ∈ seen.map f ↔ s ∈ seen := List.mem_map_of_injective hf
    have hrest := ih (s :: seen)
    rw [List.map_cons] at hrest
    rw [List.map_cons, firsts, firsts, ih, hrest]
    simp only [hmem]
    split <;> rfl

theorem firsts_eq_self {seen l : List String} (hl : l.Nodup) (h : ∀ s ∈ l, s ∉ seen) :
    firsts seen l = l := by
  induction l generalizing seen with
  | nil => rfl
  | cons a l ih =>
    obtain ⟨ha, hl⟩ := List.nodup_cons.1 hl
    rw [firsts, if_neg (h a List.mem_cons_self), ih hl]
    intro s hs hseen
    rcases List.mem_cons.1 hseen with rfl | hseen
    · exact ha hs
    · exact h s (List.mem_cons_of_mem _ hs) hseen

theorem nodup_names (p : Pattern) : p.names.Nodup := nodup_firsts _ _

theorem mem_names {p : Pattern} {name : String} : name ∈ p.names ↔ .named name ∈ p.tokens := by
  rw [names, mem_firsts, and_iff_left List.not_mem_nil, List.mem_filterMap]
  constructor
  · rintro ⟨t, ht, hname⟩
    cases t with
    | named name' =>
      cases hname
      exact ht
    | _ => cases hname
  · exact fun h => ⟨_, h, rfl⟩

end Pattern
end DocGraph
