import DocGraph.Proofs.Tree.Place
import DocGraph.Proofs.Tree.Replace

/-!
# DocGraph.Proofs.Tree.Write

What an attempt to write a file does.

* `contentAt?_put`, `contentAt?_remove` — the files after a single change.
* `Grows`   — a tree with more directories. The directories above a file are made this way.
* `HasFile` — a tree with one more file, or with new content in a file.
* `Attempt` — the outcomes of an attempt: the file held its content, got it, or neither. Every
  other file stays, except for the temporary sibling.
* `attempt_writeIfChanged` — every attempt has one of these outcomes.
-/

namespace DocGraph
namespace Tree

variable {t t' t'' : Tree} {loc dir : Location} {s : String} {p : Path} {content : ByteArray}

/-! ## Single changes -/

theorem keepsDirectories_put (hdir : t.isDirectoryAt loc.dropLast = true)
    (h : t.isDirectoryAt loc = false) (n : Node) : KeepsDirectories t (t.put loc n) := by
  refine ⟨workdir_put .., longest_put .., fun loc' hloc' => ?_⟩
  have hne : loc' ≠ loc := by
    rintro rfl
    exact Bool.noConfusion (hloc'.symm.trans h)
  rw [isDirectoryAt, node?_put hdir h, if_neg hne]
  exact hloc'

theorem contentAt?_put (hdir : t.isDirectoryAt loc.dropLast = true)
    (h : t.isDirectoryAt loc = false) (content : ByteArray) (loc' : Location) :
    (t.put loc (.file content)).contentAt? loc' =
      if loc' = loc then some content else t.contentAt? loc' := by
  rw [contentAt?, contentAt?, node?_put hdir h]
  by_cases hloc : loc' = loc
  · rw [if_pos hloc, if_pos hloc]
  · rw [if_neg hloc, if_neg hloc]

/-- Above a node there are directories only. -/
theorem isDirectoryAt_of_node? {rest : Location} (hne : rest ≠ [])
    (h : (t.node? (loc ++ rest)).isSome = true) : t.isDirectoryAt loc = true := by
  induction rest using List.reverseRecOn with
  | nil => exact absurd rfl hne
  | append_singleton rest s ih =>
    have hdir := isDirectoryAt_dropLast h
    rw [← List.append_assoc, List.dropLast_concat] at hdir
    by_cases hrest : rest = []
    · rwa [hrest, List.append_nil] at hdir
    · exact ih hrest (isSome_node?_of_isDirectoryAt hdir)

theorem eq_of_prefix_of_file (hfile : t.isDirectoryAt loc = false) {loc' : Location}
    (habove : loc.isPrefixOf loc' = true) (h : (t.node? loc').isSome = true) : loc' = loc := by
  obtain ⟨rest, rfl⟩ := List.isPrefixOf_iff_prefix.1 habove
  by_cases hrest : rest = []
  · rw [hrest, List.append_nil]
  · exact Bool.noConfusion ((isDirectoryAt_of_node? hrest h).symm.trans hfile)

/-- With a file nothing else goes, since nothing stands below it. -/
theorem node?_remove (h : t.contentAt? loc = some content) (loc' : Location) :
    (t.remove loc).node? loc' = if loc' = loc then none else t.node? loc' := by
  have hfile := isDirectoryAt_of_contentAt? h
  have hself : loc.isPrefixOf loc = true := List.isPrefixOf_iff_prefix.2 (List.prefix_refl _)
  by_cases hbelow : loc'.isPrefixOf t.workdir
  · have hne : loc' ≠ loc := by
      rintro rfl
      exact not_prefix_of_isDirectoryAt hfile hbelow
    rw [if_neg hne, node?, node?, if_pos hbelow, if_pos (by exact hbelow)]
  · have hremove : (t.remove loc).node? loc' =
        ((t.nodes.find? loc').filter fun e => !loc.isPrefixOf e.1).map Prod.snd := by
      rw [node?, if_neg (by exact hbelow), remove, SortedBy.find?_filter]
    have hnode : t.node? loc' = (t.nodes.find? loc').map Prod.snd := if_neg hbelow
    rw [hremove, hnode]
    cases hfind : t.nodes.find? loc' with
    | none => simp
    | some e =>
      obtain ⟨-, hkey⟩ := SortedBy.find?_eq_some_iff.1 hfind
      have hiff : loc.isPrefixOf e.1 = true ↔ loc' = loc := by
        rw [hkey]
        refine ⟨fun habove => eq_of_prefix_of_file hfile habove ?_, ?_⟩
        · rw [hnode, hfind]
          rfl
        · rintro rfl
          exact hself
      by_cases hloc : loc' = loc
      · rw [if_pos hloc, Option.filter_some, if_neg (by simp [hiff.2 hloc])]
        rfl
      · have hnot : loc.isPrefixOf e.1 = false := Bool.eq_false_iff.2 (mt hiff.1 hloc)
        rw [if_neg hloc, Option.filter_some, if_pos (by simp [hnot])]

theorem keepsDirectories_remove (h : t.contentAt? loc = some content) :
    KeepsDirectories t (t.remove loc) := by
  refine ⟨rfl, rfl, fun loc' hloc' => ?_⟩
  have hne : loc' ≠ loc := by
    rintro rfl
    exact Bool.noConfusion (hloc'.symm.trans (isDirectoryAt_of_contentAt? h))
  rw [isDirectoryAt, node?_remove h, if_neg hne]
  exact hloc'

theorem contentAt?_remove (h : t.contentAt? loc = some content) (loc' : Location) :
    (t.remove loc).contentAt? loc' = if loc' = loc then none else t.contentAt? loc' := by
  rw [contentAt?, contentAt?, node?_remove h]
  by_cases hloc : loc' = loc
  · rw [if_pos hloc, if_pos hloc]
  · rw [if_neg hloc, if_neg hloc]

/-! ## Directories on the way -/

/-- `t'` is `t` with more directories. -/
structure Grows (t t' : Tree) : Prop where
  keeps : KeepsDirectories t t'
  contentAt? : ∀ loc, t'.contentAt? loc = t.contentAt? loc

theorem Grows.refl (t : Tree) : Grows t t := ⟨.refl t, fun _ => rfl⟩

theorem Grows.trans (h : Grows t t') (h' : Grows t' t'') : Grows t t'' :=
  ⟨h.keeps.trans h'.keeps, fun loc => (h'.contentAt? loc).trans (h.contentAt? loc)⟩

theorem grows_put (hdir : t.isDirectoryAt dir = true) (h : t.node? (dir ++ [s]) = none) :
    Grows t (t.put (dir ++ [s]) .directory) := by
  have hnot : t.isDirectoryAt (dir ++ [s]) = false := by
    rw [isDirectoryAt, h]
    rfl
  have habove : t.isDirectoryAt (dir ++ [s]).dropLast = true := by rwa [List.dropLast_concat]
  refine ⟨keepsDirectories_put habove hnot _, fun loc => ?_⟩
  rw [Tree.contentAt?, Tree.contentAt?, node?_put habove hnot]
  by_cases hloc : loc = dir ++ [s]
  · rw [if_pos hloc, hloc, h]
  · rw [if_neg hloc]

theorem grows_makeStep (state : Tree × Option Location) (piece : List Char) :
    Grows state.1 (makeStep state piece).1 := by
  obtain ⟨t, loc⟩ := state
  cases loc with
  | none => exact .refl t
  | some loc =>
    cases hdir : t.isDirectoryAt loc with
    | false => simpa [makeStep, hdir] using Grows.refl t
    | true =>
      unfold makeStep
      dsimp only
      rw [if_neg (by simp [hdir])]
      split
      · next s _ =>
        split
        · exact .refl t
        · next h => exact grows_put hdir (by simpa using h)
      · exact .refl t
      · exact .refl t

theorem grows_foldl_makeStep (ps : List (List Char)) (state : Tree × Option Location) :
    Grows state.1 (ps.foldl makeStep state).1 := by
  induction ps generalizing state with
  | nil => exact .refl _
  | cons piece ps ih => exact (grows_makeStep state piece).trans (ih _)

theorem grows_makeDirectories (t : Tree) (p : Path) : Grows t (t.makeDirectories p).1 := by
  have h := grows_foldl_makeStep p.pieces (t, some (t.start p))
  unfold makeDirectories
  split
  · exact .refl t
  · split
    · next hfold => rwa [hfold] at h
    · next hfold => rwa [hfold] at h

theorem grows_makeParent (t : Tree) (p : Path) : Grows t (t.makeParent p).1 := by
  unfold makeParent
  split
  · next dir _ =>
    split
    · exact .refl t
    · exact grows_makeDirectories t dir
  · exact .refl t

/-! ## A file that is put in place -/

/-- `t'` is `t` with a file where a path leads. -/
structure HasFile (t : Tree) (p : Path) (content : ByteArray) (t' : Tree) (loc : Location) :
    Prop where
  keeps : KeepsDirectories t t'
  place : t'.target? p = some loc
  done : t'.contentAt? loc = some content
  rest : ∀ loc', loc' ≠ loc → t'.contentAt? loc' = t.contentAt? loc'

theorem exists_hasFile_of_putFile? (h : t.putFile? p content = some t') :
    ∃ loc, HasFile t p content t' loc := by
  obtain ⟨loc, hplace, h⟩ := Option.bind_eq_some_iff.1 h
  split at h
  · cases h
  · next hfree =>
    have hfree : t.isDirectoryAt loc = false := Bool.eq_false_iff.2 hfree
    cases h
    obtain ⟨-, -, -, dir, s, -, -, -, hdir, rfl⟩ := target?_eq_some_iff.1 hplace
    have habove : t.isDirectoryAt (dir ++ [s]).dropLast = true := by rwa [List.dropLast_concat]
    have hkeeps := keepsDirectories_put habove hfree (.file content)
    refine ⟨_, hkeeps, target?_mono hkeeps hplace, ?_, ?_⟩
    · rw [contentAt?_put habove hfree, if_pos rfl]
    · intro loc' hne
      rw [contentAt?_put habove hfree, if_neg hne]

/-- Behind a renaming, the target has the content of the source, which is gone. -/
theorem exists_hasFile_of_rename? {q : Path} {side : Location}
    (hside : t.target? q = some side) (hcontent : t.contentAt? side = some content)
    (h : t.rename? q p = some t') :
    KeepsDirectories t (t.remove side) ∧ ∃ loc, HasFile (t.remove side) p content t' loc := by
  have hread : t.read? q = some content := by
    rw [read?_eq, hside]
    exact hcontent
  unfold rename? at h
  rw [hread, hside] at h
  exact ⟨keepsDirectories_remove hcontent, exists_hasFile_of_putFile? h⟩

/-! ## Attempts -/

theorem HasFile.whole {loc' : Location} {content' : ByteArray} (h : HasFile t p content t' loc)
    (h' : t'.contentAt? loc' = some content') :
    t.contentAt? loc' = some content' ∨ content' = content := by
  by_cases hloc : loc' = loc
  · rw [hloc, h.done] at h'
    exact .inr (Option.some.inj h').symm
  · rw [h.rest loc' hloc] at h'
    exact .inl h'

/-- What comes of an attempt to give a file new content. No file is left half written. -/
inductive Attempt (t : Tree) (p : Path) (content : ByteArray) : Tree × WriteStatus → Prop where
  | unchanged (held : t.read? p = some content) : Attempt t p content (t, .unchanged)
  | replaced {t' : Tree} {loc : Location} (new : t.read? p ≠ some content)
      (place : t'.target? p = some loc) (done : t'.contentAt? loc = some content)
      (rest : ∀ loc', loc' ≠ loc → t'.target? (temporary p) ≠ some loc' →
        t'.contentAt? loc' = t.contentAt? loc')
      (whole : ∀ loc' content', t'.contentAt? loc' = some content' →
        t.contentAt? loc' = some content' ∨ content' = content) :
      Attempt t p content (t', .replaced)
  | failed {t' : Tree} (new : t.read? p ≠ some content)
      (rest : ∀ loc', t'.target? (temporary p) ≠ some loc' →
        t'.contentAt? loc' = t.contentAt? loc')
      (whole : ∀ loc' content', t'.contentAt? loc' = some content' →
        t.contentAt? loc' = some content' ∨ content' = content) :
      Attempt t p content (t', .failed)

theorem attempt_writeIfChanged (t : Tree) (p : Path) (content : ByteArray) :
    Attempt t p content (t.writeIfChanged p content) ∧
      KeepsDirectories t (t.writeIfChanged p content).1 := by
  unfold writeIfChanged
  split
  · next hread => exact ⟨.unchanged hread, .refl t⟩
  next hread =>
  have hgrows := grows_makeParent t p
  -- without a temporary sibling there are new directories at most
  have hnone {t₁ : Tree} (hgrows : Grows t t₁) : Attempt t p content (t₁, .failed) :=
    .failed hread (fun loc' _ => hgrows.contentAt? loc') fun loc' _ h' =>
      .inl (hgrows.contentAt? loc' ▸ h')
  split
  · next t₁ hparent =>
    rw [hparent] at hgrows
    exact ⟨hnone hgrows, hgrows.keeps⟩
  next t₁ hparent =>
  rw [hparent] at hgrows
  split
  · exact ⟨hnone hgrows, hgrows.keeps⟩
  next t₂ hput =>
  obtain ⟨side, hside⟩ := exists_hasFile_of_putFile? hput
  have hrest (loc' : Location) (hne : loc' ≠ side) : t₂.contentAt? loc' = t.contentAt? loc' :=
    (hside.rest loc' hne).trans (hgrows.contentAt? loc')
  have hwhole (loc' : Location) (content' : ByteArray)
      (h' : t₂.contentAt? loc' = some content') :
      t.contentAt? loc' = some content' ∨ content' = content :=
    (hside.whole h').imp_left (hgrows.contentAt? loc' ▸ ·)
  have hkeeps := hgrows.keeps.trans hside.keeps
  split
  · refine ⟨.failed hread (fun loc' hne => hrest loc' ?_) hwhole, hkeeps⟩
    rintro rfl
    exact hne hside.place
  next t₃ hrename =>
  obtain ⟨hremove, loc, hfile⟩ := exists_hasFile_of_rename? hside.place hside.done hrename
  have hgone (loc' : Location) := contentAt?_remove hside.done loc'
  refine ⟨.replaced hread hfile.place hfile.done (fun loc' hne htemp => ?_) ?_,
    hkeeps.trans (hremove.trans hfile.keeps)⟩
  · have hneSide : loc' ≠ side := by
      rintro rfl
      exact htemp (target?_mono (hremove.trans hfile.keeps) hside.place)
    rw [hfile.rest loc' hne, hgone, if_neg hneSide, hrest loc' hneSide]
  · intro loc' content' h'
    refine (hfile.whole h').elim (fun h' => hwhole loc' content' ?_) .inr
    rw [hgone] at h'
    split at h'
    · cases h'
    · exact h'

end Tree
end DocGraph
