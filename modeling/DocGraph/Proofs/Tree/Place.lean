import DocGraph.Proofs.Path.Ancestors
import DocGraph.Proofs.Tree.Location
import DocGraph.Tree.Write

/-!
# DocGraph.Proofs.Tree.Place

The place at which a path puts a file.

* `Tree.contentAt?`      — the file at a location.
* `read?_eq`             — a path reads the file at its place.
* `KeepsDirectories`     — a later tree, in which every place is still where it was.
* `target?_temporary_ne` — a file and its temporary sibling have different places.
-/

namespace DocGraph

namespace Path

variable {p : Path} {piece : List Char} {before : List (List Char)}

/-- The last piece gives the last component, unless it is a filler. -/
theorem getLast?_components {c : Component} (hp : p.pieces = before ++ [piece])
    (hc : Component.ofPiece? piece = some c) : p.components.getLast? = some c := by
  rw [components, hp]
  cases before with
  | nil =>
    have hfirst : componentsOf [piece] = [piece].filterMap Component.ofPiece? := by
      unfold componentsOf
      split
      · next h => cases h
      · next h =>
        cases h
        cases hc
      · rfl
    rw [List.nil_append, hfirst]
    simp [hc]
  | cons first before =>
    rw [List.cons_append]
    by_cases hfirst : first = []
    · rw [hfirst, componentsOf_nil_cons (by simp)]
      simp [hc, List.getLast?_cons]
    · obtain ⟨d, -, hd⟩ := exists_componentsOf_cons hfirst
      rw [hd]
      simp [hc, List.getLast?_cons]

/-- The last piece of a joined path is that of its second part. -/
theorem getLast?_pieces_join (q r : Path) : (q.join r).pieces.getLast? = r.pieces.getLast? := by
  -- behind a slash, the second part has pieces of its own
  have hslash (cs : List Char) :
      ((cs ++ '/' :: r.text.toList).splitOn '/').getLast? = r.pieces.getLast? := by
    rw [List.splitOn_append_cons_self, List.getLast?_append_of_ne_nil _ (List.splitOn_ne_nil _ _)]
    rfl
  rw [join]
  split
  · rfl
  · split
    · next hq =>
      rcases Bool.or_eq_true _ _ |>.mp hq with hq | hq
      · simp [pieces, String.isEmpty_iff.1 hq]
      · obtain ⟨cs, hcs⟩ := List.getLast?_eq_some_iff.1 (beq_iff_eq.1 hq)
        have hjoined := hslash cs
        simpa [pieces, hcs] using hjoined
    · simpa [pieces] using hslash q.text.toList

end Path

namespace Tree

/-- The content of the file at a location. -/
def contentAt? (t : Tree) (loc : Location) : Option ByteArray :=
  match t.node? loc with
  | some (.file content) => some content
  | _ => none

/-- A later tree, in which the directories are still there. -/
structure KeepsDirectories (t t' : Tree) : Prop where
  workdir : t'.workdir = t.workdir
  longest : t'.longest = t.longest
  directories : ∀ loc, t.isDirectoryAt loc = true → t'.isDirectoryAt loc = true

variable {t t' t'' : Tree} {loc dir : Location} {p : Path}

theorem KeepsDirectories.refl (t : Tree) : KeepsDirectories t t := ⟨rfl, rfl, fun _ => id⟩

theorem KeepsDirectories.trans (h : KeepsDirectories t t') (h' : KeepsDirectories t' t'') :
    KeepsDirectories t t'' :=
  ⟨h'.workdir.trans h.workdir, h'.longest.trans h.longest,
    fun loc hloc => h'.directories loc (h.directories loc hloc)⟩

theorem KeepsDirectories.admits_eq (h : KeepsDirectories t t') (p : Path) :
    t'.admits p = t.admits p := by
  rw [admits, admits, h.longest]

theorem exists_pieces_concat (p : Path) : ∃ before piece, p.pieces = before ++ [piece] := by
  obtain ⟨first, rest, hp⟩ := p.exists_pieces
  rw [hp]
  exact ⟨_, _, (List.dropLast_append_getLast (List.cons_ne_nil first rest)).symm⟩

theorem target?_eq_some_iff : t.target? p = some loc ↔ t.admits p = true ∧
    ∃ before piece dir s, p.pieces = before ++ [piece] ∧
      Component.ofPiece? piece = some (.name s) ∧
      before.foldlM t.enter? (t.start p) = some dir ∧ t.isDirectoryAt dir = true ∧
      loc = dir ++ [s] := by
  obtain ⟨before, piece, hp⟩ := exists_pieces_concat p
  unfold target?
  rw [hp, List.dropLast_concat, List.getLast?_concat]
  cases hadmits : t.admits p with
  | false => exact iff_of_false nofun fun h => nomatch h.1
  | true =>
    rw [and_iff_right rfl]
    constructor
    · intro h
      obtain ⟨dir, hdir, h⟩ := Option.bind_eq_some_iff.1 h
      obtain ⟨c, hc, h⟩ := Option.bind_eq_some_iff.1 h
      cases c with
      | name s =>
        dsimp only at h
        split at h
        · next hd => exact ⟨before, piece, dir, s, rfl, hc, hdir, hd, (Option.some.inj h).symm⟩
        · cases h
      | root => cases h
      | here => cases h
      | up => cases h
    · rintro ⟨before', piece', dir, s, heq, hc, hdir, hd, rfl⟩
      obtain ⟨rfl, hpiece⟩ := List.append_inj' heq rfl
      cases hpiece
      simp [hc, hdir, hd]

theorem enter?_mono (h : KeepsDirectories t t') {piece : List Char}
    (henter : t.enter? loc piece = some dir) (hdir : t.isDirectoryAt dir = true) :
    t'.enter? loc piece = some dir := by
  have hloc := isDirectoryAt_of_enter? henter
  have hsome := isSome_node?_of_isDirectoryAt (h.directories dir hdir)
  unfold enter? at henter ⊢
  rw [if_neg (by simp [hloc])] at henter
  rw [if_neg (by simp [h.directories loc hloc])]
  cases hc : Component.ofPiece? piece with
  | none => rwa [hc] at henter
  | some c =>
    rw [hc] at henter
    cases c with
    | name s =>
      dsimp only at henter ⊢
      split at henter
      · cases henter
        exact if_pos hsome
      · cases henter
    | root => exact henter
    | here => exact henter
    | up => exact henter

theorem foldlM_enter?_mono (h : KeepsDirectories t t') {ps : List (List Char)} {loc : Location}
    (hps : ps.foldlM t.enter? loc = some dir) (hdir : t.isDirectoryAt dir = true) :
    ps.foldlM t'.enter? loc = some dir := by
  induction ps generalizing loc with
  | nil => exact hps
  | cons piece ps ih =>
    rw [List.foldlM_cons] at hps ⊢
    obtain ⟨next, hnext, hrest⟩ := Option.bind_eq_some_iff.1 hps
    -- what is passed is a directory, so it is still there
    have hnextDir : t.isDirectoryAt next = true := by
      cases ps with
      | nil => rwa [Option.some.inj hrest]
      | cons piece' ps =>
        rw [List.foldlM_cons] at hrest
        obtain ⟨_, henter, -⟩ := Option.bind_eq_some_iff.1 hrest
        exact isDirectoryAt_of_enter? henter
    rw [enter?_mono h hnext hnextDir]
    exact ih hrest

theorem target?_mono (h : KeepsDirectories t t') (ht : t.target? p = some loc) :
    t'.target? p = some loc := by
  obtain ⟨hadmits, before, piece, dir, s, hp, hc, hdir, hd, rfl⟩ := target?_eq_some_iff.1 ht
  have hstart : t'.start p = t.start p := by rw [start, start, h.workdir]
  exact target?_eq_some_iff.2 ⟨(h.admits_eq p).trans hadmits, before, piece, dir, s, hp, hc,
    hstart ▸ foldlM_enter?_mono h hdir hd, h.directories dir hd, rfl⟩

/-! ## Reading -/

theorem contentAt?_eq_some_iff {content : ByteArray} :
    t.contentAt? loc = some content ↔ t.node? loc = some (.file content) := by
  unfold contentAt?
  split <;> simp_all

theorem isDirectoryAt_of_contentAt? {content : ByteArray} (h : t.contentAt? loc = some content) :
    t.isDirectoryAt loc = false := by
  rw [isDirectoryAt, contentAt?_eq_some_iff.1 h]
  rfl

theorem read?_eq_bind (t : Tree) (p : Path) : t.read? p = (t.locate? p).bind t.contentAt? := by
  rw [read?, at?]
  cases t.locate? p <;> rfl

/-- The last step to a file goes down by a name. -/
theorem enter?_file_iff {piece : List Char} (hfile : t.isDirectoryAt loc = false)
    (hnode : (t.node? loc).isSome = true) : t.enter? dir piece = some loc ↔
      ∃ s, Component.ofPiece? piece = some (.name s) ∧ t.isDirectoryAt dir = true ∧
        loc = dir ++ [s] := by
  constructor
  · intro henter
    have hdir := isDirectoryAt_of_enter? henter
    unfold enter? at henter
    rw [if_neg (by simp [hdir])] at henter
    have hself : dir ≠ loc := by
      rintro rfl
      exact Bool.noConfusion (hdir.symm.trans hfile)
    cases hc : Component.ofPiece? piece with
    | none =>
      rw [hc] at henter
      exact absurd (Option.some.inj henter) hself
    | some c =>
      rw [hc] at henter
      cases c with
      | name s =>
        dsimp only at henter
        split at henter
        · exact ⟨s, rfl, hdir, (Option.some.inj henter).symm⟩
        · cases henter
      | up =>
        have habove := isDirectoryAt_dropLast (isSome_node?_of_isDirectoryAt hdir)
        rw [Option.some.inj henter] at habove
        exact Bool.noConfusion (habove.symm.trans hfile)
      | root => exact absurd (Option.some.inj henter) hself
      | here => exact absurd (Option.some.inj henter) hself
  · rintro ⟨s, hc, hdir, rfl⟩
    unfold enter?
    rw [if_neg (by simp [hdir]), hc]
    exact if_pos hnode

/-- A path reads the file at its place. -/
theorem read?_eq (t : Tree) (p : Path) : t.read? p = (t.target? p).bind t.contentAt? := by
  refine Option.ext fun content => ?_
  rw [read?_eq_bind, Option.bind_eq_some_iff, Option.bind_eq_some_iff]
  refine exists_congr fun loc => and_congr_left fun hcontent => ?_
  have hfile := isDirectoryAt_of_contentAt? hcontent
  have hnode : (t.node? loc).isSome = true := by
    rw [contentAt?_eq_some_iff.1 hcontent]
    rfl
  obtain ⟨before, piece, hp⟩ := exists_pieces_concat p
  rw [target?_eq_some_iff, locate?_eq_some_iff_foldlM]
  constructor
  · rintro ⟨-, hsize, hloc⟩
    rw [hp, List.foldlM_append] at hloc
    obtain ⟨dir, hdir, hloc⟩ := Option.bind_eq_some_iff.1 hloc
    rw [List.foldlM_cons] at hloc
    obtain ⟨_, henter, hlast⟩ := Option.bind_eq_some_iff.1 hloc
    rw [Option.some.inj hlast] at henter
    obtain ⟨s, hc, hd, rfl⟩ := (enter?_file_iff hfile hnode).1 henter
    exact ⟨decide_eq_true hsize, before, piece, dir, s, hp, hc, hdir, hd, rfl⟩
  · rintro ⟨hadmits, before, piece, dir, s, hp, hc, hdir, hd, rfl⟩
    have htext : p.text.isEmpty = false := by
      rw [Bool.eq_false_iff, Ne, String.isEmpty_iff]
      intro hempty
      have hpieces : before ++ [piece] = [] ++ [[]] := by
        rw [← hp, Path.pieces, hempty]
        rfl
      obtain ⟨-, hpiece⟩ := List.append_inj' hpieces rfl
      cases hpiece
      cases hc
    refine ⟨htext, of_decide_eq_true hadmits, ?_⟩
    have henter := (enter?_file_iff hfile hnode).2 ⟨s, hc, hd, rfl⟩
    rw [hp, List.foldlM_append, hdir]
    simp [henter]

/-! ## The temporary sibling -/

/-- The last piece of a path is the last name on the way to its place. -/
theorem getLast?_pieces_of_target? (h : t.target? p = some loc) :
    ∃ s, p.pieces.getLast? = some s.toList ∧ p.fileName? = some s ∧ loc.getLast? = some s := by
  obtain ⟨-, before, piece, dir, s, hp, hc, -, -, rfl⟩ := target?_eq_some_iff.1 h
  have hpiece : piece = s.toList := by
    unfold Component.ofPiece? at hc
    split at hc <;> cases hc
    rw [String.toList_ofList]
  refine ⟨s, ?_, ?_, List.getLast?_concat⟩
  · rw [hp, List.getLast?_concat, hpiece]
  · rw [Path.fileName?, Path.getLast?_components hp hc]

theorem getLast?_pieces_temporary {s : String} (h : p.fileName? = some s) (hs : '/' ∉ s.toList) :
    (temporary p).pieces.getLast? = some ("." ++ s ++ ".tmp").toList := by
  have hname : '/' ∉ ("." ++ s ++ ".tmp").toList := by simp [hs]
  have hpieces : (Path.mk ("." ++ s ++ ".tmp")).pieces = [("." ++ s ++ ".tmp").toList] :=
    List.splitOn_eq_singleton hname
  unfold temporary Path.withFileName
  rw [h]
  cases p.parent? with
  | none =>
    dsimp only
    rw [Path.getLast?_pieces_join, Option.getD_some, hpieces]
    rfl
  | some q =>
    dsimp only
    rw [Path.getLast?_pieces_join, Option.getD_some, hpieces]
    rfl

end Tree
end DocGraph
