import DocGraph.Ordered

/-!
# DocGraph.Ordered.Lemmas

What the operations of ordered collections do to their elements.

* `eq_of_mem`        — a collection has one element of each key.
* `ext_mem`          — collections with the same elements are equal.
* `map_key_eq`       — collections with the same keys have them in the same order.
* `mem_insert`, `mem_put` — the elements after an addition.
* `find?_eq_some_iff`, `contains_iff` — what look-ups find.
* `ext_find?`        — collections in which all look-ups agree are equal.
* `find?_insertMany`, `find?_union`, `find?_ofList`, `find?_filter` — look-ups after other operations.
* `insertMany_comm`, `filter_insertMany` — additions in another order, and behind a test.
* `Table.get?_set`, `Table.get?_putMany`, `Table.get?_ofPairs` — the values of a table after changes.
* `TextSet.mem_ofList`, `TextSet.mem_union` — the texts of a set.
-/

namespace DocGraph
namespace SortedBy

section

variable {α κ : Type} [Ord κ] {key : α → κ}

@[simp] theorem find?_empty (k : κ) : (∅ : SortedBy key).find? k = none := rfl

@[simp] theorem contains_empty (k : κ) : (∅ : SortedBy key).contains k = false := rfl

theorem mem_filter {p : α → Bool} {s : SortedBy key} {a : α} :
    a ∈ s.filter p ↔ a ∈ s ∧ p a = true := List.mem_filter

theorem mem_diff {s t : SortedBy key} {a : α} :
    a ∈ s.diff t ↔ a ∈ s ∧ t.contains (key a) = false := by
  rw [diff, mem_filter, Bool.not_eq_true']

end

variable {α κ : Type} [Ord κ] [Std.LawfulEqOrd κ] {key : α → κ}

theorem eq_of_mem_pairwise {l : List α} (hl : l.Pairwise fun a b => compare (key a) (key b) = .lt)
    {a b : α} (ha : a ∈ l) (hb : b ∈ l) (h : key a = key b) : a = b := by
  induction l with
  | nil => cases ha
  | cons c l ih =>
    obtain ⟨hc, hl⟩ := List.pairwise_cons.1 hl
    have irrefl : ∀ x : κ, compare x x ≠ .lt := fun x => by simp
    rcases List.mem_cons.1 ha with hac | ha <;> rcases List.mem_cons.1 hb with hbc | hb
    · rw [hac, hbc]
    · exact absurd (hc b hb) (by rw [← h, hac]; exact irrefl _)
    · exact absurd (hc a ha) (by rw [h, hbc]; exact irrefl _)
    · exact ih hl ha hb

/-- A collection has one element of each key. -/
theorem eq_of_mem {s : SortedBy key} {a b : α} (ha : a ∈ s) (hb : b ∈ s) (h : key a = key b) :
    a = b :=
  eq_of_mem_pairwise s.increasing ha hb h

theorem find?_eq_some_iff {s : SortedBy key} {k : κ} {a : α} :
    s.find? k = some a ↔ a ∈ s ∧ key a = k := by
  constructor
  · intro h
    have hk := List.find?_some h
    exact ⟨List.mem_of_find?_eq_some h, by simpa using hk⟩
  · rintro ⟨ha, rfl⟩
    cases h : s.find? (key a) with
    | none =>
      have hn := List.find?_eq_none.1 h a ha
      simp at hn
    | some b =>
      have hk := List.find?_some h
      exact congrArg some (eq_of_mem (List.mem_of_find?_eq_some h) ha (by simpa using hk))

theorem contains_iff {s : SortedBy key} {k : κ} :
    s.contains k = true ↔ ∃ a ∈ s, key a = k := by
  simp [contains, mem_def]

theorem contains_eq_isSome {s : SortedBy key} {k : κ} : s.contains k = (s.find? k).isSome := by
  rw [Bool.eq_iff_iff, contains_iff, Option.isSome_iff_exists]
  simp only [find?_eq_some_iff]

theorem find?_filter (p : α → Bool) (s : SortedBy key) (k : κ) :
    (s.filter p).find? k = (s.find? k).filter p := by
  refine Option.ext fun a => ?_
  rw [find?_eq_some_iff, mem_filter, Option.filter_eq_some_iff, find?_eq_some_iff]
  exact and_right_comm

theorem find?_reverse (s : SortedBy key) (k : κ) :
    (s.toList.reverse.find? fun b => compare (key b) k == .eq) = s.find? k := by
  cases h : s.toList.reverse.find? fun b => compare (key b) k == .eq with
  | none =>
    symm
    rw [find?, List.find?_eq_none]
    intro a ha
    exact List.find?_eq_none.1 h a (List.mem_reverse.2 ha)
  | some a =>
    have hk : key a = k := by simpa using List.find?_some h
    have ha : a ∈ s := List.mem_reverse.1 (List.mem_of_find?_eq_some h)
    exact (find?_eq_some_iff.2 ⟨ha, hk⟩).symm

theorem key_ne_of_lt {l : List α} {a : α}
    (h : ∀ b ∈ l, compare (key a) (key b) = .lt) {c : α} (hc : c ∈ l) : key c ≠ key a := by
  intro he
  have := h c hc
  simp [he] at this

variable [Std.TransOrd κ]

/-- Additions keep all elements, but of the key of the new element only the chosen one. -/
theorem mem_place {choose : α → α → α} {a c : α} {l : List α}
    (hl : l.Pairwise fun a b => compare (key a) (key b) = .lt) :
    c ∈ place key choose a l ↔ (c ∈ l ∧ key c ≠ key a) ∨
      (c = a ∧ ∀ b ∈ l, key b ≠ key a) ∨ ∃ b ∈ l, key b = key a ∧ c = choose b a := by
  induction l with
  | nil => simp [place]
  | cons b l ih =>
    obtain ⟨hb, hl⟩ := List.pairwise_cons.1 hl
    have ih := ih hl
    unfold place
    split
    · next hab =>
      have hlt : ∀ d ∈ b :: l, compare (key a) (key d) = .lt := fun d hd => by
        rcases List.mem_cons.1 hd with rfl | hd
        · exact hab
        · exact Std.TransCmp.lt_trans hab (hb d hd)
      have hne : ∀ d ∈ b :: l, key d ≠ key a := fun d hd => key_ne_of_lt hlt hd
      constructor
      · intro h
        rcases List.mem_cons.1 h with rfl | h
        · exact .inr (.inl ⟨rfl, hne⟩)
        · exact .inl ⟨h, hne c h⟩
      · rintro (⟨h, _⟩ | ⟨rfl, _⟩ | ⟨d, hd, he, _⟩)
        · exact List.mem_cons_of_mem _ h
        · exact List.mem_cons_self
        · exact absurd he (hne d hd)
    · next he =>
      have hk : key a = key b := Std.compare_eq_iff_eq.1 he
      have hne : ∀ d ∈ l, key d ≠ key a := fun d hd => by
        rw [hk]; exact key_ne_of_lt hb hd
      constructor
      · intro h
        rcases List.mem_cons.1 h with rfl | h
        · exact .inr (.inr ⟨b, List.mem_cons_self, hk.symm, rfl⟩)
        · exact .inl ⟨List.mem_cons_of_mem _ h, hne c h⟩
      · rintro (⟨h, hc⟩ | ⟨_, hall⟩ | ⟨d, hd, he, rfl⟩)
        · rcases List.mem_cons.1 h with rfl | h
          · exact absurd hk.symm hc
          · exact List.mem_cons_of_mem _ h
        · exact absurd hk.symm (hall b List.mem_cons_self)
        · rcases List.mem_cons.1 hd with rfl | hd
          · exact List.mem_cons_self
          · exact absurd he (hne d hd)
    · next hab =>
      have hk : key b ≠ key a := fun h => by simp [h] at hab
      rw [List.mem_cons, ih]
      simp only [List.mem_cons, forall_eq_or_imp, exists_eq_or_imp]
      constructor
      · rintro (rfl | ⟨h, hc⟩ | ⟨rfl, hall⟩ | h)
        · exact .inl ⟨.inl rfl, hk⟩
        · exact .inl ⟨.inr h, hc⟩
        · exact .inr (.inl ⟨rfl, hk, hall⟩)
        · exact .inr (.inr (.inr h))
      · rintro (⟨rfl | h, hc⟩ | ⟨rfl, _, hall⟩ | ⟨he, _⟩ | h)
        · exact .inl rfl
        · exact .inr (.inl ⟨h, hc⟩)
        · exact .inr (.inr (.inl ⟨rfl, hall⟩))
        · exact absurd he hk
        · exact .inr (.inr (.inr h))

/-- An element is added unless its key is there already. -/
theorem mem_insert {s : SortedBy key} {a c : α} :
    c ∈ s.insert a ↔ c ∈ s ∨ (c = a ∧ ∀ b ∈ s, key b ≠ key a) := by
  rw [mem_def, insert, mem_place s.increasing]
  constructor
  · rintro (⟨h, _⟩ | h | ⟨b, hb, _, rfl⟩)
    · exact .inl h
    · exact .inr h
    · exact .inl hb
  · rintro (h | h)
    · by_cases hk : key c = key a
      · exact .inr (.inr ⟨c, h, hk, rfl⟩)
      · exact .inl ⟨h, hk⟩
    · exact .inr (.inl h)

/-- An element takes the place of the one with its key. -/
theorem mem_put {s : SortedBy key} {a c : α} :
    c ∈ s.put a ↔ c = a ∨ (c ∈ s ∧ key c ≠ key a) := by
  rw [mem_def, put, mem_place s.increasing]
  constructor
  · rintro (h | ⟨rfl, _⟩ | ⟨b, _, _, rfl⟩)
    · exact .inr h
    · exact .inl rfl
    · exact .inl rfl
  · rintro (rfl | h)
    · by_cases hb : ∃ b ∈ s, key b = key c
      · obtain ⟨b, hb, hk⟩ := hb
        exact .inr (.inr ⟨b, hb, hk, rfl⟩)
      · exact .inr (.inl ⟨rfl, fun b h hk => hb ⟨b, h, hk⟩⟩)
    · exact .inl h

theorem eq_of_pairwise {l m : List α} (hl : l.Pairwise fun a b => compare (key a) (key b) = .lt)
    (hm : m.Pairwise fun a b => compare (key a) (key b) = .lt) (h : ∀ a, a ∈ l ↔ a ∈ m) :
    l = m := by
  induction l generalizing m with
  | nil =>
    cases m with
    | nil => rfl
    | cons b m => exact absurd ((h b).2 List.mem_cons_self) (by simp)
  | cons a l ih =>
    cases m with
    | nil => exact absurd ((h a).1 List.mem_cons_self) (by simp)
    | cons b m =>
      obtain ⟨ha, hl'⟩ := List.pairwise_cons.1 hl
      obtain ⟨hb, hm'⟩ := List.pairwise_cons.1 hm
      have heq : a = b := by
        rcases List.mem_cons.1 ((h a).1 List.mem_cons_self) with hab | ham
        · exact hab
        · rcases List.mem_cons.1 ((h b).2 List.mem_cons_self) with hba | hbl
          · exact hba.symm
          · have := Std.TransCmp.lt_trans (ha b hbl) (hb a ham)
            simp at this
      subst heq
      refine congrArg (a :: ·) (ih hl' hm' fun c => ?_)
      have hc := h c
      simp only [List.mem_cons] at hc
      constructor
      · intro hcl
        exact (hc.1 (.inr hcl)).resolve_left fun he => key_ne_of_lt ha hcl (by rw [he])
      · intro hcm
        exact (hc.2 (.inr hcm)).resolve_left fun he => key_ne_of_lt hb hcm (by rw [he])

/-- Collections with the same elements are equal. -/
theorem ext_mem {s t : SortedBy key} (h : ∀ a, a ∈ s ↔ a ∈ t) : s = t :=
  ext (eq_of_pairwise s.increasing t.increasing h)

/-- Collections with the same keys have them in the same order. -/
theorem map_key_eq {s t : SortedBy key} (h : ∀ k, s.contains k = t.contains k) :
    s.toList.map key = t.toList.map key := by
  have hincreasing : ∀ r : SortedBy key,
      (r.toList.map key).Pairwise fun a b => compare (id a) (id b) = .lt := fun r =>
    List.pairwise_map.2 r.increasing
  refine eq_of_pairwise (hincreasing s) (hincreasing t) ?_
  intro k
  have hk := h k
  rw [Bool.eq_iff_iff, contains_iff, contains_iff] at hk
  rw [List.mem_map, List.mem_map]
  exact hk

/-! ## Look-ups -/

/-- Collections in which all look-ups agree are equal. -/
theorem ext_find? {s t : SortedBy key} (h : ∀ k, s.find? k = t.find? k) : s = t := by
  refine ext_mem fun a => ?_
  have ha := h (key a)
  constructor
  · intro hs
    rw [find?_eq_some_iff.2 ⟨hs, rfl⟩] at ha
    exact (find?_eq_some_iff.1 ha.symm).1
  · intro ht
    rw [find?_eq_some_iff.2 ⟨ht, rfl⟩] at ha
    exact (find?_eq_some_iff.1 ha).1

theorem find?_insert (s : SortedBy key) (a : α) (k : κ) :
    (s.insert a).find? k = (s.find? k).or ([a].find? fun b => compare (key b) k == .eq) := by
  refine Option.ext fun c => ?_
  rw [find?_eq_some_iff, mem_insert]
  cases hs : s.find? k with
  | some b =>
    obtain ⟨hb, rfl⟩ := find?_eq_some_iff.1 hs
    rw [Option.some_or, Option.some.injEq]
    constructor
    · rintro ⟨hc | ⟨rfl, hall⟩, hk⟩
      · exact eq_of_mem hb hc hk.symm
      · exact absurd hk.symm (hall b hb)
    · rintro rfl
      exact ⟨.inl hb, rfl⟩
  | none =>
    have hnone : ∀ b ∈ s, key b ≠ k := by
      intro b hb hk
      rw [find?_eq_some_iff.2 ⟨hb, hk⟩] at hs
      cases hs
    rw [Option.none_or]
    constructor
    · rintro ⟨hc | ⟨rfl, _⟩, rfl⟩
      · exact absurd rfl (hnone c hc)
      · simp
    · intro h
      have hc : c = a := by simpa using List.mem_of_find?_eq_some h
      have hk : key c = k := by simpa using List.find?_some h
      subst hc
      exact ⟨.inr ⟨rfl, fun b hb => by rw [hk]; exact hnone b hb⟩, hk⟩

/-- What a collection holds already comes first, then the first of the added elements. -/
theorem find?_insertMany (s : SortedBy key) (l : List α) (k : κ) :
    (s.insertMany l).find? k = (s.find? k).or (l.find? fun b => compare (key b) k == .eq) := by
  induction l generalizing s with
  | nil => simp [insertMany]
  | cons a l ih =>
    have hcons : a :: l = [a] ++ l := rfl
    rw [show s.insertMany (a :: l) = (s.insert a).insertMany l from rfl, ih, find?_insert, hcons,
      List.find?_append, Option.or_assoc]

theorem find?_ofList (l : List α) (k : κ) :
    (ofList l : SortedBy key).find? k = l.find? fun b => compare (key b) k == .eq := by
  rw [ofList, find?_insertMany, find?_empty, Option.none_or]

theorem find?_union (s t : SortedBy key) (k : κ) :
    (s.union t).find? k = (s.find? k).or (t.find? k) := by
  rw [union, find?_insertMany]
  rfl

/-- Adding the elements of a list, or what is left of them without repetition, is the same. -/
theorem union_ofList (s : SortedBy key) (l : List α) : s.union (ofList l) = s.insertMany l :=
  ext_find? fun k => by rw [find?_union, find?_insertMany, find?_ofList]

theorem insertMany_append (s : SortedBy key) (l m : List α) :
    s.insertMany (l ++ m) = (s.insertMany l).insertMany m := List.foldl_append

theorem contains_insertMany {s : SortedBy key} {l : List α} {k : κ} :
    (s.insertMany l).contains k = true ↔ s.contains k = true ∨ ∃ a ∈ l, key a = k := by
  simp [contains_eq_isSome, find?_insertMany]

theorem contains_insert {s : SortedBy key} {a : α} {k : κ} :
    (s.insert a).contains k = true ↔ s.contains k = true ∨ key a = k := by
  rw [show s.insert a = s.insertMany [a] from rfl, contains_insertMany]
  simp

theorem contains_ofList {l : List α} {k : κ} :
    (ofList l : SortedBy key).contains k = true ↔ ∃ a ∈ l, key a = k := by
  simp [contains_eq_isSome, find?_ofList]

theorem contains_union {s t : SortedBy key} {k : κ} :
    (s.union t).contains k = true ↔ s.contains k = true ∨ t.contains k = true := by
  simp [contains_eq_isSome, find?_union]

theorem mem_of_mem_insertMany {s : SortedBy key} {l : List α} {a : α} (h : a ∈ s.insertMany l) :
    a ∈ s ∨ a ∈ l := by
  have hf := find?_eq_some_iff.2 ⟨h, rfl⟩
  rw [find?_insertMany, Option.or_eq_some_iff] at hf
  rcases hf with hs | ⟨_, hl⟩
  · exact .inl (find?_eq_some_iff.1 hs).1
  · exact .inr (List.mem_of_find?_eq_some hl)

theorem mem_of_mem_ofList {l : List α} {a : α} (h : a ∈ (ofList l : SortedBy key)) : a ∈ l :=
  (mem_of_mem_insertMany h).resolve_left List.not_mem_nil

/-- Of each element the key is there, be it that of another one. -/
theorem exists_mem_ofList {l : List α} {a : α} (h : a ∈ l) :
    ∃ b ∈ (ofList l : SortedBy key), key b = key a :=
  contains_iff.1 (contains_ofList.2 ⟨a, h, rfl⟩)

theorem toList_ofList_eq_nil_iff {l : List α} : (ofList l : SortedBy key).toList = [] ↔ l = [] := by
  constructor
  · intro h
    rw [List.eq_nil_iff_forall_not_mem]
    intro a ha
    obtain ⟨b, hb, -⟩ : ∃ b ∈ (ofList l : SortedBy key), key b = key a := exists_mem_ofList ha
    rw [mem_def, h] at hb
    exact List.not_mem_nil hb
  · rintro rfl
    rfl

theorem mem_insertMany_of_mem {s : SortedBy key} {a : α} (h : a ∈ s) (l : List α) :
    a ∈ s.insertMany l := by
  have hfind : (s.insertMany l).find? (key a) = some a := by
    rw [find?_insertMany, find?_eq_some_iff.2 ⟨h, rfl⟩, Option.some_or]
  exact (find?_eq_some_iff.1 hfind).1

/-- Elements whose keys are there already change nothing. -/
theorem insertMany_of_contains {s : SortedBy key} {l : List α}
    (h : ∀ a ∈ l, s.contains (key a) = true) : s.insertMany l = s := by
  refine ext_find? fun k => ?_
  rw [find?_insertMany]
  cases hs : s.find? k with
  | some a => rw [Option.some_or]
  | none =>
    rw [Option.none_or, List.find?_eq_none]
    intro a ha hk
    have hcontains := h a ha
    rw [Std.compare_eq_iff_eq.1 (eq_of_beq hk), contains_eq_isSome, hs] at hcontains
    cases hcontains

theorem ofList_toList (s : SortedBy key) : (ofList s.toList : SortedBy key) = s :=
  ext_find? fun k => by rw [find?_ofList, find?]

theorem union_empty (s : SortedBy key) : s.union ∅ = s := rfl

theorem empty_union (s : SortedBy key) : (∅ : SortedBy key).union s = s := ofList_toList s

theorem union_insertMany (s t : SortedBy key) (l : List α) :
    s.union (t.insertMany l) = (s.union t).insertMany l :=
  ext_find? fun k => by
    rw [find?_union, find?_insertMany, find?_insertMany, find?_union, Option.or_assoc]

/-- Two lists can be added in either order if elements of equal keys are equal. -/
theorem insertMany_comm (s : SortedBy key) {l m : List α}
    (h : ∀ a ∈ l, ∀ b ∈ m, key a = key b → a = b) :
    (s.insertMany l).insertMany m = (s.insertMany m).insertMany l := by
  have hfirst : ∀ k, (l.find? fun b => compare (key b) k == .eq).or
      (m.find? fun b => compare (key b) k == .eq) =
        (m.find? fun b => compare (key b) k == .eq).or
          (l.find? fun b => compare (key b) k == .eq) := by
    intro k
    cases hl : l.find? fun b => compare (key b) k == .eq with
    | none => rw [Option.none_or, Option.or_none]
    | some a =>
      cases hm : m.find? fun b => compare (key b) k == .eq with
      | none => rw [Option.none_or, Option.or_none]
      | some b =>
        have ha : key a = k := by simpa using List.find?_some hl
        have hb : key b = k := by simpa using List.find?_some hm
        have hab := h a (List.mem_of_find?_eq_some hl) b (List.mem_of_find?_eq_some hm)
          (ha.trans hb.symm)
        rw [hab]
  refine ext_find? fun k => ?_
  rw [find?_insertMany, find?_insertMany, find?_insertMany, find?_insertMany, Option.or_assoc,
    Option.or_assoc, hfirst]

theorem find?_put (s : SortedBy key) (a : α) (k : κ) :
    (s.put a).find? k = ([a].find? fun b => compare (key b) k == .eq).or (s.find? k) := by
  refine Option.ext fun c => ?_
  rw [find?_eq_some_iff, mem_put]
  by_cases hk : key a = k
  · have ha : [a].find? (fun b => compare (key b) k == .eq) = some a := by simp [hk]
    rw [ha, Option.some_or, Option.some.injEq]
    constructor
    · rintro ⟨rfl | ⟨_, hne⟩, hc⟩
      · rfl
      · exact absurd (hc.trans hk.symm) hne
    · rintro rfl
      exact ⟨.inl rfl, hk⟩
  · have ha : [a].find? (fun b => compare (key b) k == .eq) = none := by simp [hk]
    rw [ha, Option.none_or, find?_eq_some_iff]
    constructor
    · rintro ⟨rfl | ⟨hc, _⟩, he⟩
      · exact absurd he hk
      · exact ⟨hc, he⟩
    · rintro ⟨hc, rfl⟩
      exact ⟨.inr ⟨hc, fun he => hk he.symm⟩, rfl⟩

/-- The last of the added elements comes first, then what a collection holds already. -/
theorem find?_putMany (s : SortedBy key) (l : List α) (k : κ) :
    (s.putMany l).find? k =
      (l.reverse.find? fun b => compare (key b) k == .eq).or (s.find? k) := by
  induction l generalizing s with
  | nil => simp [putMany]
  | cons a l ih =>
    rw [show s.putMany (a :: l) = (s.put a).putMany l from rfl, ih, find?_put, List.reverse_cons,
      List.find?_append, Option.or_assoc]

theorem contains_putMany {s : SortedBy key} {l : List α} {k : κ} :
    (s.putMany l).contains k = true ↔ s.contains k = true ∨ ∃ a ∈ l, key a = k := by
  simp [contains_eq_isSome, find?_putMany, or_comm]

theorem mem_of_mem_putMany {s : SortedBy key} {l : List α} {a : α} (h : a ∈ s.putMany l) :
    a ∈ s ∨ a ∈ l := by
  have hf := find?_eq_some_iff.2 ⟨h, rfl⟩
  rw [find?_putMany, Option.or_eq_some_iff] at hf
  rcases hf with hl | ⟨_, hs⟩
  · exact .inr (List.mem_reverse.1 (List.mem_of_find?_eq_some hl))
  · exact .inl (find?_eq_some_iff.1 hs).1

theorem filter_insert {p : α → Bool} (hp : ∀ a b, key a = key b → p a = p b) (s : SortedBy key)
    (a : α) : (s.insert a).filter p = (s.filter p).insertMany ([a].filter p) := by
  refine ext_mem fun c => ?_
  rw [mem_filter, mem_insert]
  by_cases ha : p a = true
  · rw [List.filter_cons_of_pos ha, List.filter_nil,
      show (s.filter p).insertMany [a] = (s.filter p).insert a from rfl, mem_insert]
    simp only [mem_filter]
    constructor
    · rintro ⟨hc | ⟨rfl, hnew⟩, hpc⟩
      · exact .inl ⟨hc, hpc⟩
      · exact .inr ⟨rfl, fun b hb => hnew b hb.1⟩
    · rintro (⟨hc, hpc⟩ | ⟨rfl, hnew⟩)
      · exact ⟨.inl hc, hpc⟩
      · -- an element of the same key passes the test too
        exact ⟨.inr ⟨rfl, fun b hb hk => hnew b ⟨hb, (hp b c hk).trans ha⟩ hk⟩, ha⟩
  · rw [List.filter_cons_of_neg ha, List.filter_nil,
      show (s.filter p).insertMany [] = s.filter p from rfl, mem_filter]
    constructor
    · rintro ⟨hc | ⟨rfl, -⟩, hpc⟩
      · exact ⟨hc, hpc⟩
      · exact absurd hpc ha
    · exact fun h => ⟨.inl h.1, h.2⟩

/-- A test on keys may come before or after additions. -/
theorem filter_insertMany {p : α → Bool} (hp : ∀ a b, key a = key b → p a = p b) (s : SortedBy key)
    (l : List α) : (s.insertMany l).filter p = (s.filter p).insertMany (l.filter p) := by
  induction l generalizing s with
  | nil => rfl
  | cons a l ih =>
    rw [show s.insertMany (a :: l) = (s.insert a).insertMany l from rfl, ih, filter_insert hp,
      ← insertMany_append, ← List.filter_append]
    rfl

theorem filter_ofList {p : α → Bool} (hp : ∀ a b, key a = key b → p a = p b) (l : List α) :
    (ofList l : SortedBy key).filter p = ofList (l.filter p) := filter_insertMany hp ∅ l

end SortedBy

namespace Table

variable {β : Type}

theorem get?_eq_some_iff {t : Table β} {k : String} {v : β} :
    t.get? k = some v ↔ (k, v) ∈ t := by
  simp only [get?, Option.map_eq_some_iff, SortedBy.find?_eq_some_iff]
  constructor
  · rintro ⟨⟨_, _⟩, ⟨h, rfl⟩, rfl⟩
    exact h
  · exact fun h => ⟨(k, v), ⟨h, rfl⟩, rfl⟩

theorem nodup_keys (t : Table β) : t.keys.Nodup := by
  rw [keys, List.Nodup, List.pairwise_map]
  refine t.increasing.imp ?_
  intro a b hlt he
  rw [he] at hlt
  simp at hlt

theorem mem_keys_iff {t : Table β} {k : String} : k ∈ t.keys ↔ (t.get? k).isSome = true := by
  rw [Option.isSome_iff_exists, keys, List.mem_map]
  constructor
  · rintro ⟨⟨_, v⟩, h, rfl⟩
    exact ⟨v, get?_eq_some_iff.2 h⟩
  · rintro ⟨v, h⟩
    exact ⟨(k, v), get?_eq_some_iff.1 h, rfl⟩

@[simp] theorem get?_empty (k : String) : (∅ : Table β).get? k = none := rfl

theorem get?_set (t : Table β) (k j : String) (v : β) :
    (t.set k v).get? j = if j = k then some v else t.get? j := by
  refine Option.ext fun w => ?_
  rw [get?_eq_some_iff, set, SortedBy.mem_put]
  split
  · next h =>
    subst h
    simp [eq_comm]
  · next h =>
    rw [get?_eq_some_iff]
    simp [h]

theorem ext_get? {s t : Table β} (h : ∀ k, s.get? k = t.get? k) : s = t := by
  refine SortedBy.ext_mem ?_
  rintro ⟨k, v⟩
  rw [← get?_eq_some_iff, ← get?_eq_some_iff, h]

theorem get?_filter (t : Table β) (p : String → Bool) (k : String) :
    get? (t.filter fun e => p e.1) k = if p k then t.get? k else none := by
  refine Option.ext fun v => ?_
  rw [get?_eq_some_iff, SortedBy.mem_filter, ← get?_eq_some_iff]
  split
  · next h =>
    simp [h]
  · next h =>
    simp [h]

theorem get?_union (s t : Table β) (k : String) :
    get? (s.union t) k = (s.get? k).or (t.get? k) := by
  rw [get?, SortedBy.find?_union, get?, get?, Option.map_or]

/-- The values of the second table take the place of those of the first. -/
theorem get?_putMany (s t : Table β) (k : String) :
    get? (s.putMany t.toList) k = (t.get? k).or (s.get? k) := by
  rw [get?, SortedBy.find?_putMany, SortedBy.find?_reverse, get?, get?, Option.map_or]

theorem mem_keys_ofPairs {l : List (String × β)} {k : String} :
    k ∈ (ofPairs l).keys ↔ k ∈ l.map Prod.fst := by
  rw [mem_keys_iff, get?, Option.isSome_map, ← SortedBy.contains_eq_isSome, ofPairs,
    SortedBy.contains_putMany, SortedBy.contains_empty, List.mem_map]
  simp

theorem eq_of_nodup_map_fst {l : List (String × β)} (hl : (l.map Prod.fst).Nodup)
    {e f : String × β} (he : e ∈ l) (hf : f ∈ l) (h : e.1 = f.1) : e = f := by
  have hdistinct := List.pairwise_map.1 hl
  obtain ⟨i, hi, rfl⟩ := List.mem_iff_getElem.1 he
  obtain ⟨j, hj, rfl⟩ := List.mem_iff_getElem.1 hf
  rcases Nat.lt_trichotomy i j with hlt | rfl | hlt
  · exact absurd h (List.pairwise_iff_getElem.1 hdistinct i j hi hj hlt)
  · rfl
  · exact absurd h.symm (List.pairwise_iff_getElem.1 hdistinct j i hj hi hlt)

/-- A table of pairs whose texts differ has exactly these. -/
theorem get?_ofPairs {l : List (String × β)} (hl : (l.map Prod.fst).Nodup) {k : String} {v : β} :
    (ofPairs l).get? k = some v ↔ (k, v) ∈ l := by
  rw [get?, ofPairs, SortedBy.find?_putMany, SortedBy.find?_empty, Option.or_none]
  constructor
  · intro h
    obtain ⟨⟨_, _⟩, he, rfl⟩ := Option.map_eq_some_iff.1 h
    have hk := List.find?_some he
    have hmem := List.mem_reverse.1 (List.mem_of_find?_eq_some he)
    simp only [beq_iff_eq, Std.compare_eq_iff_eq] at hk
    rw [← hk]
    exact hmem
  · intro h
    cases hf : l.reverse.find? fun b => compare b.1 k == .eq with
    | none =>
      have hn := List.find?_eq_none.1 hf (k, v) (List.mem_reverse.2 h)
      simp at hn
    | some e =>
      have hk : e.1 = k := by simpa using List.find?_some hf
      have he := List.mem_reverse.1 (List.mem_of_find?_eq_some hf)
      rw [Option.map_some, eq_of_nodup_map_fst hl he h hk]

end Table

namespace TextSet

theorem mem_iff_contains {s : TextSet} {a : String} : a ∈ s ↔ s.contains a = true := by
  rw [SortedBy.contains_iff]
  constructor
  · intro h
    exact ⟨a, h, rfl⟩
  · rintro ⟨_, h, rfl⟩
    exact h

theorem mem_ofList {l : List String} {a : String} : a ∈ (.ofList l : TextSet) ↔ a ∈ l := by
  rw [mem_iff_contains, SortedBy.contains_ofList]
  simp

theorem mem_union {s t : TextSet} {a : String} : a ∈ s.union t ↔ a ∈ s ∨ a ∈ t := by
  rw [mem_iff_contains, mem_iff_contains, mem_iff_contains, SortedBy.contains_union]

end TextSet
end DocGraph
