import DocGraph.Ordered.Lemmas
import DocGraph.Proofs.Path.Normal
import DocGraph.Tree.Basic

/-!
# DocGraph.Proofs.Tree.Location

The normal paths that lead to files are finitely many.

* `Location.follow`     — where a component leads, whatever is there.
* `Tree.spellings`      — the components of normal paths to the nodes of a tree. Such a path is
  absolute, or climbs before it goes down, as far as its length allows.
* `mem_spellings_of_read?` — a normal path that can be read is one of them.
* `exists_node_of_read?` — a path that can be read leads to one of the nodes.
* `exists?_iff`         — what exists is a file or a directory.
-/

namespace DocGraph

open Component

/-- Where a component leads if everything is there. Above the root is the root again. -/
def Location.follow (loc : Location) : Component → Location
  | .name s => loc ++ [s]
  | .up => loc.dropLast
  | _ => loc

namespace Location

theorem foldl_follow_names (loc : Location) (names : List String) :
    (names.map name).foldl follow loc = loc ++ names := by
  induction names generalizing loc with
  | nil => exact loc.append_nil.symm
  | cons s names ih =>
    have hstep : follow loc (name s) = loc ++ [s] := rfl
    rw [List.map_cons, List.foldl_cons, hstep, ih, ← List.append_cons]

/-- By so many steps upwards one comes to a location above, or to the root. -/
theorem foldl_follow_up (loc : Location) (k : Nat) :
    (List.replicate k up).foldl follow loc = loc.take (loc.length - k) := by
  induction k generalizing loc with
  | zero => exact loc.take_length.symm
  | succ k ih =>
    have hstep : follow loc up = loc.take (loc.length - 1) := List.dropLast_eq_take
    rw [List.replicate_succ, List.foldl_cons, hstep, ih, List.take_take, List.length_take]
    congr 1
    omega

end Location

namespace Tree

variable {t : Tree} {loc loc' : Location}

theorem isDirectoryAt_workdir (t : Tree) : t.isDirectoryAt t.workdir = true := by
  rw [isDirectoryAt, node?, if_pos (List.isPrefixOf_iff_prefix.2 (List.prefix_refl _))]
  rfl

theorem admits_here (t : Tree) : t.admits ⟨"."⟩ = true := by
  have hsize : (⟨"."⟩ : Path).size ≤ 256 := by decide
  exact decide_eq_true (hsize.trans t.long_enough)

theorem eq_of_enter? {piece : List Char} (hpiece : ofPiece? piece = none)
    (h : t.enter? loc piece = some loc') : loc' = loc := by
  unfold enter? at h
  split at h
  · cases h
  · rw [hpiece] at h
    exact (Option.some.inj h).symm

theorem eq_follow_of_enter? {piece : List Char} {c : Component} (hpiece : ofPiece? piece = some c)
    (h : t.enter? loc piece = some loc') : loc' = loc.follow c := by
  unfold enter? at h
  split at h
  · cases h
  · rw [hpiece] at h
    cases c with
    | root => exact (Option.some.inj h).symm
    | here => exact (Option.some.inj h).symm
    | up => exact (Option.some.inj h).symm
    | name s =>
      dsimp only at h
      split at h
      · exact (Option.some.inj h).symm
      · cases h

theorem eq_follow_of_foldlM_enter? {ps : List (List Char)}
    (h : ps.foldlM t.enter? loc = some loc') :
    loc' = (ps.filterMap ofPiece?).foldl Location.follow loc := by
  induction ps generalizing loc with
  | nil => exact (Option.some.inj h).symm
  | cons piece ps ih =>
    rw [List.foldlM_cons] at h
    obtain ⟨next, hnext, hrest⟩ := Option.bind_eq_some_iff.1 h
    cases hc : ofPiece? piece with
    | none =>
      rw [List.filterMap_cons_none hc]
      exact ih (eq_of_enter? hc hnext ▸ hrest)
    | some c =>
      rw [List.filterMap_cons_some hc, List.foldl_cons, ← eq_follow_of_enter? hc hnext]
      exact ih hrest

theorem locate?_eq_some_iff_foldlM {p : Path} : t.locate? p = some loc ↔
    p.text.isEmpty = false ∧ p.size ≤ t.longest ∧
      p.pieces.foldlM t.enter? (t.start p) = some loc := by
  rw [locate?, admits]
  cases p.text.isEmpty with
  | true => exact iff_of_false nofun fun h => nomatch h.1
  | false =>
    by_cases hsize : p.size ≤ t.longest
    · simp [hsize]
    · simp [hsize]

theorem eq_follow_of_locate? {p : Path} (h : t.locate? p = some loc) :
    loc = (p.components.filter moves).foldl Location.follow (t.start p) := by
  rw [Path.filter_components]
  exact eq_follow_of_foldlM_enter? (locate?_eq_some_iff_foldlM.1 h).2.2

theorem exists_node_of_read? {p : Path} (h : (t.read? p).isSome) :
    ∃ loc n, t.locate? p = some loc ∧ (loc, n) ∈ t.nodes ∧ loc ≠ t.workdir := by
  unfold read? at h
  split at h
  · next content hat =>
    obtain ⟨loc, hloc, hnode⟩ := Option.bind_eq_some_iff.1 hat
    unfold node? at hnode
    split at hnode
    · cases hnode
    · next hprefix =>
      obtain ⟨⟨key, n⟩, hfind, -⟩ := Option.map_eq_some_iff.1 hnode
      obtain ⟨hmem, rfl⟩ := SortedBy.find?_eq_some_iff.1 hfind
      refine ⟨_, n, hloc, hmem, ?_⟩
      rintro rfl
      exact hprefix (List.isPrefixOf_iff_prefix.2 (List.prefix_refl _))
  · cases h

/-! ## Spellings -/

/-- The components of normal paths to a location that take at most so many bytes, and of some that
take more. -/
def spellingsOf (workdir : Location) (longest : Nat) (loc : Location) : List (List Component) :=
  (root :: loc.map name) :: (List.range (longest + 1)).map fun k =>
    List.replicate k up ++ (loc.drop (workdir.length - k)).map name

/-- The components of normal paths to the nodes of a tree. -/
def spellings (t : Tree) : List (List Component) :=
  t.nodes.toList.flatMap fun e => spellingsOf t.workdir t.longest e.1

theorem length_spellings (t : Tree) :
    t.spellings.length = t.nodes.size * (t.longest + 2) := by
  have hone : ∀ e ∈ t.nodes.toList,
      (spellingsOf t.workdir t.longest e.1).length = t.longest + 2 := by
    intro e _
    simp [spellingsOf]
  rw [spellings, List.length_flatMap, List.map_congr_left hone, List.map_const',
    List.sum_replicate_nat]
  rfl

theorem length_components_le_size (p : Path) : p.components.length ≤ p.size := by
  rw [Path.size]
  induction p.components with
  | nil => exact Nat.le_refl _
  | cons c cs ih =>
    have hmark (cs : List Char) : 1 ≤ ((cs ++ ['/']).flatMap String.utf8EncodeChar).length := by
      rw [List.flatMap_append, List.length_append]
      exact Nat.le_add_left _ _
    have hpos : 1 ≤ c.bytes.length := by
      cases c with
      | root => exact Nat.le_refl _
      | _ => exact hmark _
    rw [List.length_cons, List.flatMap_cons, List.length_append]
    omega

theorem mem_spellingsOf {p : Path} (hreduced : IsReduced p.components) (hsize : p.size ≤ t.longest)
    (h : loc = (p.components.filter moves).foldl Location.follow (t.start p)) :
    p.components ∈ spellingsOf t.workdir t.longest loc := by
  have hlong := length_components_le_size p
  obtain ⟨base, names, hp, hbase⟩ := hreduced
  have hnames : (names.map name).filter moves = names.map name := by
    rw [List.filter_eq_self]
    intro c hc
    obtain ⟨s, -, rfl⟩ := List.mem_map.1 hc
    rfl
  rw [hp, List.filter_append, hnames, List.foldl_append, Location.foldl_follow_names] at h
  rcases hbase with rfl | ⟨k, rfl⟩
  · have hstart : t.start p = [] := by
      rw [start, if_pos (Path.isAbsolute_iff.2 (by rw [hp]; rfl))]
    have hloc : loc = names := by
      rw [h, hstart]
      rfl
    rw [hp, hloc]
    exact List.mem_cons_self
  · have hups : (List.replicate k up).filter moves = List.replicate k up := by
      rw [List.filter_replicate]
      rfl
    have hstart : t.start p = t.workdir := by
      refine if_neg fun habsolute => ?_
      have hhead := Path.isAbsolute_iff.1 habsolute
      rw [hp] at hhead
      cases k with
      | zero => cases names <;> cases hhead
      | succ k => cases hhead
    have hk : k ≤ t.longest := by
      rw [hp, List.length_append, List.length_replicate] at hlong
      omega
    rw [hups, hstart, Location.foldl_follow_up] at h
    refine List.mem_cons_of_mem _ (List.mem_map.2 ⟨k, List.mem_range.2 (by omega), ?_⟩)
    have hlength : (t.workdir.take (t.workdir.length - k)).length = t.workdir.length - k := by
      rw [List.length_take]
      omega
    rw [hp, h, List.drop_left' hlength]

theorem mem_spellings_of_read? {p : Path} (h : (t.read? p.normalize).isSome) :
    p.normalize.components ∈ t.spellings := by
  obtain ⟨loc, n, hloc, hmem, hne⟩ := exists_node_of_read? h
  have hfollow := eq_follow_of_locate? hloc
  have hcomponents := Path.components_normalize p
  split at hcomponents
  · have hstart : t.start p.normalize = t.workdir := by
      refine if_neg fun habsolute => ?_
      have hhead := Path.isAbsolute_iff.1 habsolute
      rw [hcomponents] at hhead
      cases hhead
    rw [hcomponents, hstart] at hfollow
    exact absurd hfollow hne
  · have hreduced : IsReduced p.normalize.components :=
      hcomponents ▸ isReduced_reduce p.components
    have hsize := (locate?_eq_some_iff_foldlM.1 hloc).2.1
    exact List.mem_flatMap.2 ⟨(loc, n), hmem, mem_spellingsOf hreduced hsize hfollow⟩

/-! ## Files and directories -/

theorem isDirectoryAt_start (t : Tree) (p : Path) : t.isDirectoryAt (t.start p) = true := by
  rw [start]
  split
  · exact isDirectoryAt_iff.2 (.inl List.nil_prefix)
  · exact t.isDirectoryAt_workdir

theorem isSome_node?_of_isDirectoryAt (h : t.isDirectoryAt loc = true) :
    (t.node? loc).isSome = true := by
  rw [beq_iff_eq.1 h]
  rfl

/-- Everything stands in a directory. -/
theorem isDirectoryAt_dropLast (h : (t.node? loc).isSome = true) :
    t.isDirectoryAt loc.dropLast = true := by
  rw [node?] at h
  split at h
  · next habove =>
    exact isDirectoryAt_iff.2
      (.inl ((List.dropLast_prefix loc).trans (List.isPrefixOf_iff_prefix.1 habove)))
  · rw [Option.isSome_map] at h
    obtain ⟨e, he⟩ := Option.isSome_iff_exists.1 h
    obtain ⟨hmem, rfl⟩ := SortedBy.find?_eq_some_iff.1 he
    exact isDirectoryAt_iff.2 (t.closed e hmem)

theorem isDirectoryAt_of_enter? {piece : List Char} (h : t.enter? loc piece = some loc') :
    t.isDirectoryAt loc = true := by
  unfold enter? at h
  split at h
  · cases h
  · next hd => simpa using hd

/-- Wherever one gets, there is something. -/
theorem isSome_node?_of_enter? {piece : List Char} (h : t.enter? loc piece = some loc') :
    (t.node? loc').isSome = true := by
  have hdir := isSome_node?_of_isDirectoryAt (isDirectoryAt_of_enter? h)
  unfold enter? at h
  split at h
  · cases h
  · -- one goes down to what is there, up, or nowhere
    split at h
    · split at h
      · next hnode =>
        cases h
        exact hnode
      · cases h
    · cases h
      exact isSome_node?_of_isDirectoryAt (isDirectoryAt_dropLast hdir)
    · cases h
      exact hdir

theorem isSome_node?_of_locate? {p : Path} (h : t.locate? p = some loc) :
    (t.node? loc).isSome = true := by
  have hfold {ps : List (List Char)} {loc loc' : Location} (hloc : (t.node? loc).isSome = true)
      (h : ps.foldlM t.enter? loc = some loc') : (t.node? loc').isSome = true := by
    induction ps generalizing loc with
    | nil =>
      cases h
      exact hloc
    | cons piece ps ih =>
      rw [List.foldlM_cons] at h
      obtain ⟨next, hnext, hrest⟩ := Option.bind_eq_some_iff.1 h
      exact ih (isSome_node?_of_enter? hnext) hrest
  exact hfold (isSome_node?_of_isDirectoryAt (t.isDirectoryAt_start p))
    (locate?_eq_some_iff_foldlM.1 h).2.2

theorem exists?_iff {p : Path} :
    t.exists? p = true ↔ t.isFile p = true ∨ t.isDirectory p = true := by
  rw [exists?, isFile, isDirectory, at?]
  cases h : t.locate? p with
  | none => simp
  | some loc =>
    obtain ⟨n, hn⟩ := Option.isSome_iff_exists.1 (isSome_node?_of_locate? h)
    rw [Option.bind_some, hn]
    cases n with
    | file content => simp
    | directory => simp

end Tree
end DocGraph
