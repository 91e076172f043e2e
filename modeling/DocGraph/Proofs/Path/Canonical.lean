import DocGraph.Ordered.Lemmas
import DocGraph.Proofs.Path.Normal

/-!
# DocGraph.Proofs.Path.Canonical

Paths that have only one spelling.

* `reduce_of_isReduced`  — reduction leaves reduced components alone.
* `normalize_ofComponents` — so reduced components make a path in normal form.
* `mem_sorted_iff`       — of such paths, sorting loses none.
* `Path.Canonical`       — relative and in normal form.
* `Path.Canonical.same_iff` — such paths have the same components only if they have the same text.
* `canonical_ofComponents` — reduced components make such a path, unless they start at the root.
* `canonical_normalize`, `canonical_relativeTo` — the normal form of a relative path is canonical,
  and so is an absolute path as seen from another one.
* `canonical_of_isIdentifier` — identifiers are canonical.
-/

namespace DocGraph

namespace Component

theorem foldl_push_names (done : List Component) (names : List String) :
    (names.map name).foldl push done = (names.map name).reverse ++ done := by
  induction names generalizing done with
  | nil => rfl
  | cons s names ih =>
    rw [List.map_cons, List.foldl_cons, push_name, ih, List.reverse_cons, List.append_assoc,
      List.singleton_append]

theorem foldl_push_ups (j k : Nat) :
    (List.replicate k up).foldl push (List.replicate j up) = List.replicate (j + k) up := by
  induction k generalizing j with
  | zero => rfl
  | succ k ih =>
    have hpush : push (List.replicate j up) up = List.replicate (j + 1) up := by
      cases j <;> rfl
    rw [List.replicate_succ, List.foldl_cons, hpush, ih, Nat.add_right_comm, Nat.add_assoc]

theorem reduce_of_isReduced {cs : List Component} (h : IsReduced cs) : reduce cs = cs := by
  obtain ⟨base, names, rfl, hbase⟩ := h
  have hdone : base.foldl push [] = base.reverse := by
    rcases hbase with rfl | ⟨k, rfl⟩
    · rfl
    · have hups := foldl_push_ups 0 k
      rw [Nat.zero_add] at hups
      rw [List.reverse_replicate]
      exact hups
  rw [reduce, List.foldl_append, hdone, foldl_push_names, List.reverse_append, List.reverse_reverse,
    List.reverse_reverse]

theorem root_mem_push {done : List Component} {c : Component} (h : root ∈ done) :
    root ∈ push done c := by
  unfold push
  split
  · exact List.mem_cons_self
  · exact h
  · exact (List.mem_cons.1 h).resolve_left nofun
  · exact h
  · exact List.mem_cons_of_mem _ h
  · exact List.mem_cons_of_mem _ h

theorem root_mem_foldl_push {done cs : List Component} (h : root ∈ done) :
    root ∈ cs.foldl push done := by
  induction cs generalizing done with
  | nil => exact h
  | cons c cs ih => exact ih (root_mem_push h)

theorem here_notMem_reduce (cs : List Component) : here ∉ reduce cs := by
  obtain ⟨base, names, hreduce, hbase⟩ := isReduced_reduce cs
  rw [hreduce, List.mem_append, List.mem_map]
  rintro (hmem | ⟨s, -, hs⟩)
  · rcases hbase with rfl | ⟨k, rfl⟩
    · exact absurd (List.mem_singleton.1 hmem) nofun
    · exact absurd (List.eq_of_mem_replicate hmem) nofun
  · cases hs

/-- What starts at the root is reduced to the root and names. -/
theorem reduce_root_cons (cs : List Component) :
    ∃ names : List String, reduce (root :: cs) = root :: names.map name := by
  have hdone : root ∈ cs.foldl push [root] := root_mem_foldl_push List.mem_cons_self
  have hroot : root ∈ reduce (root :: cs) := List.mem_reverse.2 hdone
  obtain ⟨base, names, hreduce, rfl | ⟨k, rfl⟩⟩ := isReduced_reduce (root :: cs)
  · exact ⟨names, hreduce⟩
  · rw [hreduce] at hroot
    rcases List.mem_append.1 hroot with hroot | hroot
    · exact absurd (List.eq_of_mem_replicate hroot) nofun
    · obtain ⟨s, -, hs⟩ := List.mem_map.1 hroot
      cases hs

theorem written_up : up.Written := ⟨rfl, by decide⟩

end Component

namespace Path

open Component

/-- Relative and in normal form. -/
structure Canonical (p : Path) : Prop where
  relative : p.isAbsolute = false
  normal : p.normalize = p

/-- Paths in normal form have the same components only if they are the same. -/
theorem eq_of_same {p q : Path} (hp : p.normalize = p) (hq : q.normalize = q) (h : p.Same q) :
    p = q := by
  rw [← hp, ← hq, normalize, normalize, show p.components = q.components from h]

theorem Canonical.same_iff {p q : Path} (hp : p.Canonical) (hq : q.Canonical) :
    p.Same q ↔ p.text = q.text := by
  constructor
  · intro h
    exact congrArg text (eq_of_same hp.normal hq.normal h)
  · intro h
    cases p
    cases h
    rfl

theorem isAbsolute_of_root_mem {p : Path} (h : root ∈ p.components) : p.isAbsolute = true := by
  rw [isAbsolute_iff]
  rw [components] at h ⊢
  revert h
  cases p.pieces using componentsOf.fun_cases_unfolding with
  | case1 => exact fun _ => rfl
  | case2 rest =>
    intro h
    obtain ⟨_, -, hpiece⟩ := List.mem_filterMap.1 ((List.mem_cons.1 h).resolve_left (by decide))
    exact absurd rfl (ne_root_of_ofPiece? hpiece)
  | case3 =>
    intro h
    obtain ⟨_, -, hpiece⟩ := List.mem_filterMap.1 h
    exact absurd rfl (ne_root_of_ofPiece? hpiece)

theorem normalize_ofComponents {cs : List Component}
    (hwritten : ∀ c ∈ cs, c.moves = true → c.Written) :
    (ofComponents (reduce cs)).normalize = ofComponents (reduce cs) := by
  have hcomponents := components_ofComponents (isReduced_reduce cs) fun c hc =>
    hwritten c (mem_of_mem_reduce hc)
  rw [normalize, hcomponents]
  split
  · next hnil =>
    rw [hnil]
    rfl
  · rw [reduce_of_isReduced (isReduced_reduce cs)]

theorem normalize_normalize (p : Path) : p.normalize.normalize = p.normalize :=
  normalize_ofComponents fun _ => written_of_mem_components

theorem canonical_ofComponents {cs : List Component} (hroot : root ∉ cs)
    (hwritten : ∀ c ∈ cs, c.moves = true → c.Written) : (ofComponents (reduce cs)).Canonical := by
  refine ⟨?_, normalize_ofComponents hwritten⟩
  rw [← Bool.not_eq_true, isAbsolute_iff, components_ofComponents (isReduced_reduce cs) fun c hc =>
    hwritten c (mem_of_mem_reduce hc)]
  split
  · exact nofun
  · intro hhead
    exact hroot (mem_of_mem_reduce (List.mem_of_mem_head? hhead))

theorem canonical_normalize {p : Path} (h : p.isAbsolute = false) : p.normalize.Canonical := by
  refine canonical_ofComponents (fun hroot => ?_) fun c => written_of_mem_components
  rw [isAbsolute_of_root_mem hroot] at h
  cases h

/-- No piece of a canonical path is empty. -/
theorem Canonical.nil_notMem_pieces {p : Path} (h : p.Canonical) : [] ∉ p.pieces := by
  have hmoves : ∀ c ∈ reduce p.components, c.moves = true := by
    intro c hc
    have hmem := mem_of_mem_reduce hc
    cases c with
    | root =>
      have hrelative := h.relative
      rw [isAbsolute_of_root_mem hmem] at hrelative
      cases hrelative
    | here => exact absurd hc (here_notMem_reduce _)
    | _ => rfl
  have hwritten : ∀ c ∈ reduce p.components, c.Written := fun c hc =>
    written_of_mem_components (mem_of_mem_reduce hc) (hmoves c hc)
  have hp : p = ofComponents (reduce p.components) := h.normal.symm
  rw [hp]
  cases hcs : reduce p.components with
  | nil => decide
  | cons c cs =>
    rw [hcs] at hmoves hwritten
    rw [pieces_ofComponents hwritten (hmoves c List.mem_cons_self)]
    intro hnil
    obtain ⟨d, hd, htext⟩ := List.mem_map.1 hnil
    have hpiece := (hwritten d hd).ofPiece?_eq
    rw [htext] at hpiece
    cases hpiece

theorem Canonical.isDirLike {p : Path} (h : p.Canonical) : p.isDirLike = false :=
  getLast?_of_nil_notMem h.nil_notMem_pieces

/-- The components of an absolute path in normal form. -/
theorem components_normalize_of_isAbsolute {p : Path} (h : p.isAbsolute = true) :
    ∃ names : List String, p.normalize.components = root :: names.map name ∧
      ∀ c ∈ names.map name, c.Written := by
  obtain ⟨cs, hcs⟩ := List.head?_eq_some_iff.1 (isAbsolute_iff.1 h)
  obtain ⟨names, hnames⟩ := reduce_root_cons cs
  rw [← hcs] at hnames
  refine ⟨names, ?_, fun c hc => ?_⟩
  · rw [components_normalize, hnames, if_neg (List.cons_ne_nil _ _)]
  · have hmem : c ∈ reduce p.components := hnames ▸ List.mem_cons_of_mem _ hc
    obtain ⟨s, -, rfl⟩ := List.mem_map.1 hc
    exact written_of_mem_components (mem_of_mem_reduce hmem) rfl

theorem dropCommon_suffix (as bs : List Component) : (dropCommon as bs).1 <:+ as := by
  induction as generalizing bs with
  | nil => cases bs <;> exact List.suffix_rfl
  | cons a as ih =>
    cases bs with
    | nil => exact List.suffix_rfl
    | cons b bs =>
      rw [dropCommon]
      split
      · exact (ih bs).trans (List.suffix_cons a as)
      · exact List.suffix_rfl

theorem normalize_relativeTo (p base : Path) :
    (p.relativeTo base).normalize = p.relativeTo base := by
  have hsuffix := dropCommon_suffix p.normalize.components base.normalize.components
  rw [relativeTo]
  cases hdrop : dropCommon p.normalize.components base.normalize.components with
  | mk rest climb =>
    rw [hdrop] at hsuffix
    refine normalize_ofComponents fun c hc hmoves => ?_
    rcases List.mem_append.1 hc with hc | hc
    · obtain ⟨-, -, rfl⟩ := List.mem_map.1 hc
      exact written_up
    · exact written_of_mem_components (hsuffix.subset hc) hmoves

theorem canonical_relativeTo {p base : Path} (hp : p.isAbsolute = true)
    (hbase : base.isAbsolute = true) : (p.relativeTo base).Canonical := by
  obtain ⟨names, hnames, hwritten⟩ := components_normalize_of_isAbsolute hp
  obtain ⟨others, hothers, -⟩ := components_normalize_of_isAbsolute hbase
  have hall : ∀ climb : List Component, ∀ c ∈
      (climb.map fun _ => up) ++ (dropCommon (names.map name) (others.map name)).1, c.Written := by
    intro climb c hc
    rcases List.mem_append.1 hc with hc | hc
    · obtain ⟨-, -, rfl⟩ := List.mem_map.1 hc
      exact written_up
    · exact hwritten c ((dropCommon_suffix _ _).subset hc)
  rw [relativeTo, hnames, hothers, dropCommon, if_pos rfl]
  refine canonical_ofComponents (fun hroot => ?_) fun c hc _ => hall _ c hc
  -- the text of the root is not one of a component
  exact absurd (hall _ _ hroot).slash_notMem (by decide)

theorem written_of_isIdentifier {s : String} (h : Text.isIdentifier s = true) :
    (name s).Written := by
  obtain ⟨hne, hchars⟩ := Text.isNameChar_of_isIdentifier h
  have hdot : '.' ∉ s.toList := fun hc => absurd (hchars _ hc) (by decide)
  have hslash : '/' ∉ s.toList := fun hc => absurd (hchars _ hc) (by decide)
  refine ⟨?_, hslash⟩
  change ofPiece? s.toList = some (name s)
  unfold ofPiece?
  split
  · next hs => exact absurd hs hne
  · next hs => exact absurd (hs ▸ List.mem_cons_self) hdot
  · next hs => exact absurd (hs ▸ List.mem_cons_self) hdot
  · rw [String.ofList_toList]

theorem canonical_of_isIdentifier {s : String} (h : Text.isIdentifier s = true) :
    (⟨s⟩ : Path).Canonical := by
  have hwritten : ∀ c ∈ [name s], c.Written := by
    rw [List.forall_mem_singleton]
    exact written_of_isIdentifier h
  have hpath : ofComponents (reduce [name s]) = ⟨s⟩ := rfl
  rw [← hpath]
  exact canonical_ofComponents (by simp) fun c hc _ => hwritten c hc

/-! ## Sorted paths -/

theorem mem_of_mem_sorted {l : List Path} {p : Path} (h : p ∈ sorted l) : p ∈ l :=
  SortedBy.mem_of_mem_ofList (SortedBy.mem_def.2 h)

/-- Of paths in normal form, sorting leaves out only repeated ones. -/
theorem mem_sorted_iff {l : List Path} (hl : ∀ q ∈ l, q.normalize = q) {p : Path} :
    p ∈ sorted l ↔ p ∈ l := by
  refine ⟨mem_of_mem_sorted, ?_⟩
  intro hp
  obtain ⟨q, hq, hsame⟩ : ∃ q ∈ sorted l, q.Same p := SortedBy.exists_mem_ofList hp
  rw [← eq_of_same (hl q (mem_of_mem_sorted hq)) (hl p hp) hsame]
  exact hq

end Path
end DocGraph
