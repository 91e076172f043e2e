import DocGraph.Path.Normal
import DocGraph.Proofs.Path.Ancestors

/-!
# DocGraph.Proofs.Path.Normal

The components of paths in normal form.

* `Component.moves`    — a component by which one comes to another directory.
* `filter_components`, `filter_pieces` — the pieces that count are the texts of these components.
* `Component.Written`  — a component that comes back from its text.
* `Component.IsReduced` — the root or steps upwards, and then names. `isReduced_reduce`: reduction
  gives nothing else.
* `components_ofComponents` — such components come back from the path that they make.
* `components_normalize` — a path in normal form has the reduced components.
-/

namespace DocGraph

namespace Component

/-- Whether one moves to another directory by a component. -/
def moves : Component → Bool
  | root | here => false
  | up | name _ => true

theorem moves_of_ofPiece? {piece : List Char} {c : Component}
    (h : ofPiece? piece = some c) : c.moves = true ∧ c.text.toList = piece := by
  unfold ofPiece? at h
  split at h
  · cases h
  · cases h
  · cases h
    exact ⟨rfl, rfl⟩
  · cases h
    exact ⟨rfl, String.toList_ofList⟩

/-- The text of the component is a piece that stands for it. -/
structure Written (c : Component) : Prop where
  ofPiece?_eq : ofPiece? c.text.toList = some c
  slash_notMem : '/' ∉ c.text.toList

end Component

namespace Path

theorem filter_ofPieces? (ps : List (List Char)) :
    (ps.filterMap Component.ofPiece?).filter Component.moves =
      ps.filterMap Component.ofPiece? := by
  rw [List.filter_eq_self]
  intro c hc
  obtain ⟨_, _, hpiece⟩ := List.mem_filterMap.1 hc
  exact (Component.moves_of_ofPiece? hpiece).1

theorem filter_components (p : Path) :
    p.components.filter Component.moves = p.pieces.filterMap Component.ofPiece? := by
  rw [components]
  cases p.pieces using componentsOf.fun_cases_unfolding with
  | case1 => exact filter_ofPieces? _
  | case2 => exact filter_ofPieces? _
  | case3 => exact filter_ofPieces? _

theorem filter_pieces (p : Path) :
    p.pieces.filter (fun piece => !isFiller piece) =
      (p.components.filter Component.moves).map fun c => c.text.toList := by
  rw [filter_components]
  induction p.pieces with
  | nil => rfl
  | cons piece ps ih =>
    cases hc : Component.ofPiece? piece with
    | none =>
      rw [List.filterMap_cons_none hc, List.filter_cons_of_neg (by simp [isFiller_iff.2 hc]), ih]
    | some c =>
      have hfiller : ¬isFiller piece = true := by
        rw [isFiller_iff, hc]
        exact nofun
      rw [List.filterMap_cons_some hc, List.filter_cons_of_pos (by simpa using hfiller), ih,
        List.map_cons, (Component.moves_of_ofPiece? hc).2]

theorem written_of_mem_components {p : Path} {c : Component} (h : c ∈ p.components)
    (hm : c.moves = true) : c.Written := by
  have hmem : c ∈ p.components.filter Component.moves := List.mem_filter.2 ⟨h, hm⟩
  rw [filter_components] at hmem
  obtain ⟨piece, hpiece, hc⟩ := List.mem_filterMap.1 hmem
  have htext := (Component.moves_of_ofPiece? hc).2
  exact ⟨by rw [htext, hc], by rw [htext]; exact slash_notMem_of_mem_pieces hpiece⟩

end Path

/-! ## Reduction -/

namespace Component

/-- The root or steps upwards, and then names. -/
def IsReduced (cs : List Component) : Prop :=
  ∃ (base : List Component) (names : List String),
    cs = base ++ names.map name ∧ (base = [root] ∨ ∃ k, base = List.replicate k up)

theorem push_name (done : List Component) (s : String) : push done (name s) = name s :: done := by
  cases done with
  | nil => rfl
  | cons d done => cases d <;> rfl

theorem isReduced_push {done : List Component} (h : IsReduced done.reverse) (c : Component) :
    IsReduced (push done c).reverse := by
  obtain ⟨base, names, hdone, hbase⟩ := h
  cases c with
  | root => exact ⟨[root], [], by simp [push], .inl rfl⟩
  | here => exact ⟨base, names, by simpa [push] using hdone, hbase⟩
  | name s =>
    refine ⟨base, names ++ [s], ?_, hbase⟩
    simp [push, hdone]
  | up =>
    rcases List.eq_nil_or_concat' names with rfl | ⟨names, s, rfl⟩
    · rw [List.map_nil, List.append_nil, List.reverse_eq_iff] at hdone
      rcases hbase with rfl | ⟨k, rfl⟩
      · exact ⟨[root], [], by simp [hdone, push], .inl rfl⟩
      · refine ⟨List.replicate (k + 1) up, [], ?_, .inr ⟨k + 1, rfl⟩⟩
        rw [List.reverse_replicate] at hdone
        have hpush : push done up = List.replicate (k + 1) up := by
          rw [hdone]
          cases k <;> rfl
        rw [hpush, List.reverse_replicate, List.map_nil, List.append_nil]
    · refine ⟨base, names, ?_, hbase⟩
      rw [List.reverse_eq_iff] at hdone
      simp [hdone, push]

theorem isReduced_foldl {done : List Component} (h : IsReduced done.reverse)
    (cs : List Component) : IsReduced (cs.foldl push done).reverse := by
  induction cs generalizing done with
  | nil => exact h
  | cons c cs ih => exact ih (isReduced_push h c)

theorem isReduced_reduce (cs : List Component) : IsReduced (reduce cs) :=
  isReduced_foldl ⟨[], [], rfl, .inr ⟨0, rfl⟩⟩ cs

theorem mem_of_mem_push {done : List Component} {c d : Component} (h : d ∈ push done c) :
    d = c ∨ d ∈ done := by
  unfold push at h
  split at h
  · exact .inl (List.mem_singleton.1 h)
  · exact .inr h
  · exact .inr (List.mem_cons_of_mem _ h)
  · exact .inr h
  · exact List.mem_cons.1 h
  · exact List.mem_cons.1 h

theorem mem_of_mem_foldl {cs done : List Component} {c : Component} (h : c ∈ cs.foldl push done) :
    c ∈ done ∨ c ∈ cs := by
  induction cs generalizing done with
  | nil => exact .inl h
  | cons d cs ih =>
    rcases ih h with hc | hc
    · rcases mem_of_mem_push hc with rfl | hc
      · exact .inr List.mem_cons_self
      · exact .inl hc
    · exact .inr (List.mem_cons_of_mem _ hc)

theorem mem_of_mem_reduce {cs : List Component} {c : Component} (h : c ∈ reduce cs) : c ∈ cs :=
  (mem_of_mem_foldl (List.mem_reverse.1 h)).resolve_left List.not_mem_nil

theorem toList_joined (cs : List Component) :
    (joined cs).toList = ['/'].intercalate (cs.map fun c => c.text.toList) := by
  rw [joined, String.toList_intercalate, List.map_map]
  rfl

theorem filterMap_ofPiece?_texts {cs : List Component} (h : ∀ c ∈ cs, c.Written) :
    (cs.map fun c => c.text.toList).filterMap ofPiece? = cs := by
  induction cs with
  | nil => rfl
  | cons c cs ih =>
    have hc : ofPiece? c.text.toList = some c := (h c List.mem_cons_self).ofPiece?_eq
    rw [List.map_cons, List.filterMap_cons_some hc, ih fun d hd => h d (List.mem_cons_of_mem _ hd)]

end Component

namespace Path

open Component

theorem componentsOf_eq_filterMap {first : List Char} {rest : List (List Char)} {c : Component}
    (h : ofPiece? first = some c) :
    componentsOf (first :: rest) = (first :: rest).filterMap ofPiece? := by
  rw [componentsOf]
  · rintro _ _ ⟨rfl, -⟩
    cases h
  · rintro _ ⟨rfl, -⟩
    cases h

theorem slash_notMem_texts {cs : List Component} (h : ∀ c ∈ cs, c.Written) :
    ∀ piece ∈ cs.map (fun c => c.text.toList), '/' ∉ piece := by
  intro piece hpiece
  obtain ⟨c, hc, rfl⟩ := List.mem_map.1 hpiece
  exact (h c hc).slash_notMem

theorem components_ofComponents_root {cs : List Component} (h : ∀ c ∈ cs, c.Written) :
    (ofComponents (root :: cs)).components = root :: cs := by
  cases cs with
  | nil => rfl
  | cons c cs =>
    have htext : ofComponents (root :: c :: cs) =
        ofPieces ([] :: (c :: cs).map fun c => c.text.toList) := by
      have hpieces : ['/'].intercalate ([] :: (c :: cs).map fun c => c.text.toList) =
          '/' :: (joined (c :: cs)).toList := by
        rw [toList_joined, List.map_cons, List.intercalate_cons_cons]
        rfl
      have htoList : ("/" ++ joined (c :: cs)).toList = '/' :: (joined (c :: cs)).toList := by
        rw [String.toList_append]
        rfl
      rw [ofComponents, ofPieces, hpieces, ← htoList, String.ofList_toList]
    have hslash : ∀ piece ∈ [] :: (c :: cs).map (fun c => c.text.toList), '/' ∉ piece := by
      rw [List.forall_mem_cons]
      exact ⟨List.not_mem_nil, slash_notMem_texts h⟩
    rw [components, htext, pieces_ofPieces (List.cons_ne_nil _ _) hslash,
      componentsOf_nil_cons (by simp), filterMap_ofPiece?_texts h]

/-- The pieces of a relative path are the texts of its components. -/
theorem pieces_ofComponents {c : Component} {cs : List Component}
    (h : ∀ d ∈ c :: cs, d.Written) (hm : c.moves = true) :
    (ofComponents (c :: cs)).pieces = (c :: cs).map fun c => c.text.toList := by
  have htext : ofComponents (c :: cs) = ofPieces ((c :: cs).map fun c => c.text.toList) := by
    have hjoined : ofComponents (c :: cs) = ⟨joined (c :: cs)⟩ := by
      cases c <;> first | rfl | cases hm
    rw [hjoined, ofPieces, ← toList_joined, String.ofList_toList]
  rw [htext, pieces_ofPieces (by simp) (slash_notMem_texts h)]

theorem components_ofComponents_of_written {c : Component} {cs : List Component}
    (h : ∀ d ∈ c :: cs, d.Written) (hm : c.moves = true) :
    (ofComponents (c :: cs)).components = c :: cs := by
  have hc : c.Written := h c List.mem_cons_self
  rw [components, pieces_ofComponents h hm, List.map_cons, componentsOf_eq_filterMap hc.ofPiece?_eq]
  exact filterMap_ofPiece?_texts h

/-- Reduced components come back from the path that they make, which stands for the current directory
if there are none. -/
theorem components_ofComponents {cs : List Component} (hreduced : IsReduced cs)
    (hwritten : ∀ c ∈ cs, c.moves = true → c.Written) :
    (ofComponents cs).components = if cs = [] then [here] else cs := by
  obtain ⟨base, names, hcs, rfl | ⟨k, rfl⟩⟩ := hreduced
  · have hnames : ∀ c ∈ names.map name, c.Written := by
      intro c hc
      obtain ⟨s, -, rfl⟩ := List.mem_map.1 hc
      exact hwritten _ (hcs ▸ List.mem_append_right _ hc) rfl
    rw [List.singleton_append] at hcs
    rw [hcs, if_neg (List.cons_ne_nil _ _)]
    exact components_ofComponents_root hnames
  · have hmoves : ∀ c ∈ cs, c.moves = true := by
      intro c hc
      rw [hcs] at hc
      rcases List.mem_append.1 hc with hc | hc
      · rw [List.eq_of_mem_replicate hc]
        rfl
      · obtain ⟨s, -, rfl⟩ := List.mem_map.1 hc
        rfl
    cases cs with
    | nil => rfl
    | cons c cs =>
      rw [if_neg (List.cons_ne_nil _ _)]
      exact components_ofComponents_of_written (fun d hd => hwritten d hd (hmoves d hd))
        (hmoves c List.mem_cons_self)

/-- A path in normal form has the reduced components, and stands for the current directory if
there are none. -/
theorem components_normalize (p : Path) :
    p.normalize.components =
      if reduce p.components = [] then [here] else reduce p.components :=
  components_ofComponents (isReduced_reduce _) fun _ hc hm =>
    written_of_mem_components (mem_of_mem_reduce hc) hm

theorem text_normalize_ne_empty (p : Path) : p.normalize.text ≠ "" := by
  intro h
  have hcomponents := p.components_normalize
  have hnone : p.normalize.components = [] := congrArg (fun s => components ⟨s⟩) h
  rw [hnone] at hcomponents
  split at hcomponents
  · cases hcomponents
  · next hne => exact hne hcomponents.symm

theorem text_parentDir_ne_empty (p : Path) : p.parentDir.text ≠ "" := by
  unfold parentDir
  split
  · decide
  · decide
  · exact text_normalize_ne_empty _

/-- Reduction leaves a name at the end alone. -/
theorem getLast?_components_normalize {p : Path} {s : String}
    (h : p.components.getLast? = some (.name s)) :
    p.normalize.components.getLast? = some (.name s) := by
  obtain ⟨cs, hcs⟩ := List.getLast?_eq_some_iff.1 h
  have hreduce : reduce p.components = (cs.foldl push []).reverse ++ [name s] := by
    rw [reduce, hcs, List.foldl_append, List.foldl_cons, List.foldl_nil, push_name,
      List.reverse_cons]
  rw [components_normalize, hreduce, if_neg (by simp), List.getLast?_concat]

end Path
end DocGraph
