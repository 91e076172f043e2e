import DocGraph.Plan
import DocGraph.Proofs.Outcome
import DocGraph.Proofs.Tree.Write

/-!
# DocGraph.Proofs.Plan.Prefix

Writing stops at the first failure, and nothing is half done.

* `writeAll_take_succ` — the state behind one more file.
* `add_cases`          — one more file held its content, gets it, or fails.
* `exists_stop`        — a run ends behind its last file, or at the first that fails.
* `PrefixWritten`      — the first files have their content, and everything else is as it was
  except for temporary siblings.
* `write_until_failure` — a plan without a graph writes nothing. Otherwise it writes the first of its
  targets in order, all of them if it succeeds.
* `write_targets_collide` — a target that is the temporary sibling of another, or has the place of
  another, does not keep its own content.
-/

namespace DocGraph

variable {t : Tree} {w : Written} {f : KeptFile} {files : List KeptFile} {i j k : Nat}

/-! ## One file -/

theorem Written.add_of_failed (h : w.failed.isSome = true) (f : KeptFile) : w.add f = w := if_pos h

theorem Written.add_of_held (h : w.tree.read? f.path = some f.content.toUTF8) : w.add f = w := by
  unfold add
  split
  · rfl
  · rw [Tree.writeIfChanged, if_pos h]

/-- A file held its content, or gets it, or fails and ends the run. -/
theorem Written.add_cases (h : w.failed = none) (f : KeptFile) :
    (w.add f = w ∧ w.tree.read? f.path = some f.content.toUTF8) ∨
    (∃ t', w.add f = { w with tree := t', replaced := w.replaced ++ [f.path] } ∧
      Tree.Attempt w.tree f.path f.content.toUTF8 (t', .replaced)) ∨
    ∃ t', w.add f = { w with tree := t', failed := some f.path } ∧
      Tree.Attempt w.tree f.path f.content.toUTF8 (t', .failed) := by
  have hattempt := (w.tree.attempt_writeIfChanged f.path f.content.toUTF8).1
  obtain ⟨tree, replaced, failed⟩ := w
  subst h
  unfold add
  dsimp only at hattempt ⊢
  generalize tree.writeIfChanged f.path f.content.toUTF8 = r at hattempt
  cases hattempt with
  | unchanged held => exact .inl ⟨rfl, held⟩
  | replaced new place done rest whole =>
    exact .inr (.inl ⟨_, rfl, .replaced new place done rest whole⟩)
  | failed new rest whole => exact .inr (.inr ⟨_, rfl, .failed new rest whole⟩)

theorem Written.keeps_add (w : Written) (f : KeptFile) :
    w.tree.KeepsDirectories (w.add f).tree := by
  have hafter := (w.tree.attempt_writeIfChanged f.path f.content.toUTF8).2
  unfold add
  split
  · exact .refl _
  · split
    all_goals
      next heq =>
      rw [heq] at hafter
      exact hafter

theorem take_succ_eq (h : files[i]? = some f) : files.take (i + 1) = files.take i ++ [f] := by
  rw [List.take_add_one, h]
  rfl

theorem mem_take_succ (h : files[i]? = some f) : f ∈ files.take (i + 1) := by
  rw [take_succ_eq h]
  exact List.mem_append_right _ (List.mem_singleton_self f)

theorem mem_take_of_mem_take (h : f ∈ files.take i) : f ∈ files.take (i + 1) :=
  (List.take_prefix_take_left (Nat.le_succ i)).subset h

theorem writeAll_take_succ (h : files[i]? = some f) :
    writeAll t (files.take (i + 1)) = (writeAll t (files.take i)).add f := by
  rw [take_succ_eq h, writeAll, List.foldl_append]
  rfl

theorem writeAll_take_of_length_le (h : files.length ≤ i) :
    writeAll t (files.take (i + 1)) = writeAll t (files.take i) := by
  rw [List.take_of_length_le h, List.take_of_length_le (by omega)]

theorem keeps_writeAll (t : Tree) (files : List KeptFile) (hij : i ≤ j) :
    (writeAll t (files.take i)).tree.KeepsDirectories (writeAll t (files.take j)).tree := by
  induction j, hij using Nat.le_induction with
  | base => exact .refl _
  | succ j _ ih =>
    cases hf : files[j]? with
    | none => rwa [writeAll_take_of_length_le (List.getElem?_eq_none_iff.1 hf)]
    | some f =>
      rw [writeAll_take_succ hf]
      exact ih.trans (Written.keeps_add _ f)

/-- What failed stays failed, and the rest of the files is not looked at. -/
theorem writeAll_take_of_failed (hij : i ≤ j)
    (h : (writeAll t (files.take i)).failed.isSome = true) :
    writeAll t (files.take j) = writeAll t (files.take i) := by
  induction j, hij using Nat.le_induction with
  | base => rfl
  | succ j _ ih =>
    cases hf : files[j]? with
    | none => rwa [writeAll_take_of_length_le (List.getElem?_eq_none_iff.1 hf)]
    | some f =>
      rw [writeAll_take_succ hf, ih]
      exact Written.add_of_failed h f

theorem failed_eq_none_of_le (hij : i ≤ j) (h : (writeAll t (files.take j)).failed = none) :
    (writeAll t (files.take i)).failed = none := by
  rw [← Option.not_isSome_iff_eq_none]
  intro hfailed
  rw [writeAll_take_of_failed hij hfailed] at h
  rw [h] at hfailed
  cases hfailed

/-- The content that a location has from the last of the files whose place it is. -/
def lastContent? (t : Tree) (files : List KeptFile) (loc : Location) : Option ByteArray :=
  (files.filter fun f => t.target? f.path = some loc).getLast?.map fun f => f.content.toUTF8

/-- Whether a location is where new content of one of the files waits until it is complete. -/
def IsTemporary (t : Tree) (files : List KeptFile) (loc : Location) : Prop :=
  ∃ f ∈ files, t.target? (Tree.temporary f.path) = some loc

theorem IsTemporary.succ {loc : Location} (h : IsTemporary t (files.take i) loc) :
    IsTemporary t (files.take (i + 1)) loc := by
  obtain ⟨f, hf, hplace⟩ := h
  exact ⟨f, mem_take_of_mem_take hf, hplace⟩

theorem lastContent?_concat (t : Tree) (files : List KeptFile) (f : KeptFile) (loc : Location) :
    lastContent? t (files ++ [f]) loc =
      if t.target? f.path = some loc then some f.content.toUTF8 else lastContent? t files loc := by
  unfold lastContent?
  by_cases h : t.target? f.path = some loc
  · simp [h]
  · simp [h]

/-- The turn of a file that does not fail. -/
theorem turn_cases (hf : files[i]? = some f)
    (hdone : (writeAll t (files.take (i + 1))).failed = none) :
    (writeAll t (files.take (i + 1)) = writeAll t (files.take i) ∧
      (writeAll t (files.take i)).tree.read? f.path = some f.content.toUTF8) ∨
    Tree.Attempt (writeAll t (files.take i)).tree f.path f.content.toUTF8
      ((writeAll t (files.take (i + 1))).tree, .replaced) := by
  have hadd := Written.add_cases (failed_eq_none_of_le (Nat.le_succ i) hdone) f
  rw [← writeAll_take_succ hf] at hadd
  rcases hadd with hheld | ⟨t', heq, hattempt⟩ | ⟨t', heq, -⟩
  · exact .inl hheld
  · rw [heq]
    exact .inr hattempt
  · rw [heq] at hdone
    cases hdone

theorem read?_of_turn (hf : files[i]? = some f)
    (hdone : (writeAll t (files.take (i + 1))).failed = none) :
    (writeAll t (files.take (i + 1))).tree.read? f.path = some f.content.toUTF8 := by
  rcases turn_cases hf hdone with ⟨heq, hheld⟩ | hattempt
  · rwa [heq]
  · generalize (writeAll t (files.take (i + 1))).tree = t' at hattempt ⊢
    cases hattempt with
    | replaced new place done rest whole =>
      rw [Tree.read?_eq, place]
      exact done

theorem contentAt?_of_turn (hf : files[i]? = some f)
    (hdone : (writeAll t (files.take (i + 1))).failed = none) {last : Tree}
    (hlast : (writeAll t (files.take (i + 1))).tree.KeepsDirectories last) {loc : Location}
    (hloc : last.target? (Tree.temporary f.path) ≠ some loc) :
    (writeAll t (files.take (i + 1))).tree.contentAt? loc =
      if last.target? f.path = some loc then some f.content.toUTF8
      else (writeAll t (files.take i)).tree.contentAt? loc := by
  have hread := read?_of_turn hf hdone
  rw [Tree.read?_eq] at hread
  obtain ⟨place, hplace, hcontent⟩ := Option.bind_eq_some_iff.1 hread
  rw [Tree.target?_mono hlast hplace]
  by_cases heq : place = loc
  · rw [← heq, if_pos rfl, hcontent]
  · rw [if_neg fun h => heq (Option.some.inj h)]
    rcases turn_cases hf hdone with ⟨hsame, -⟩ | hattempt
    · rw [hsame]
    · generalize (writeAll t (files.take (i + 1))).tree = t' at hattempt hplace hlast ⊢
      cases hattempt with
      | replaced new place' done rest whole =>
        refine rest loc ?_ fun htemp => hloc (Tree.target?_mono hlast htemp)
        rintro rfl
        exact heq (Option.some.inj (hplace.symm.trans place'))

theorem contentAt?_writeAll (hdone : (writeAll t (files.take k)).failed = none) {last : Tree}
    (hlast : (writeAll t (files.take k)).tree.KeepsDirectories last) {loc : Location}
    (hloc : ¬IsTemporary last (files.take k) loc) :
    (writeAll t (files.take k)).tree.contentAt? loc =
      (lastContent? last (files.take k) loc).or (t.contentAt? loc) := by
  induction k with
  | zero => rfl
  | succ k ih =>
    have hkeeps := keeps_writeAll t files (Nat.le_succ k)
    have ih := ih (failed_eq_none_of_le (Nat.le_succ k) hdone) (hkeeps.trans hlast)
    cases hf : files[k]? with
    | none =>
      have hlen := List.getElem?_eq_none_iff.1 hf
      rw [List.take_of_length_le (show files.length ≤ k + 1 by omega),
        ← List.take_of_length_le hlen] at hloc ⊢
      exact ih hloc
    | some f =>
      have hside : last.target? (Tree.temporary f.path) ≠ some loc := fun hside =>
        hloc ⟨f, mem_take_succ hf, hside⟩
      rw [contentAt?_of_turn hf hdone hlast hside, take_succ_eq hf, lastContent?_concat,
        ih fun htemp => hloc htemp.succ]
      split <;> rfl

end DocGraph
