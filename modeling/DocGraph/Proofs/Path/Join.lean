import DocGraph.Proofs.Path.Canonical

/-!
# DocGraph.Proofs.Path.Join

What joined paths lead to.

* `foldl_push_reduce`         — components act on those in front of them as their reduction does.
* `reduce_components_join`    — a joined path is reduced to what its parts are one after the other.
* `Path.exists_relativeTo`    — the path from one directory to another: upwards to the lowest one
  above both, and down from there.
* `normalize_join_relativeTo` — by this path one comes from the one to the other.
* `Path.Returns`              — a path goes up further than it has to.
* `normalize_eq_relativeTo_iff` — all other relative paths are already the path from their base.
-/

namespace DocGraph

namespace Component

theorem reduce_concat (cs : List Component) (c : Component) :
    reduce (cs ++ [c]) = (push (reduce cs).reverse c).reverse := by
  rw [reduce, reduce, List.foldl_append, List.reverse_reverse]
  rfl

/-- One more component acts behind the others. -/
theorem foldl_push_push (done acc : List Component) (c : Component) :
    (push acc c).reverse.foldl push done = push (acc.reverse.foldl push done) c := by
  cases c with
  | root => rfl
  | here => rfl
  | name s =>
    rw [push_name, List.reverse_cons, List.foldl_append]
    rfl
  | up =>
    cases acc with
    | nil => rfl
    | cons d acc =>
      -- a name is cancelled, the root stays, and behind anything else one climbs further
      cases d with
      | name s =>
        rw [List.reverse_cons, List.foldl_append, List.foldl_cons, List.foldl_nil, push_name]
        rfl
      | root => simp [push]
      | here => simp [push]
      | up => simp [push]

/-- Components act on those in front of them as their reduction does. -/
theorem foldl_push_reduce (done cs : List Component) :
    (reduce cs).foldl push done = cs.foldl push done := by
  induction cs using List.reverseRecOn with
  | nil => rfl
  | append_singleton cs c ih =>
    rw [reduce_concat, foldl_push_push, List.reverse_reverse, ih, List.foldl_append]
    rfl

theorem reduce_append_reduce (as bs : List Component) :
    reduce (reduce as ++ reduce bs) = reduce (as ++ bs) := by
  simp only [reduce, List.foldl_append]
  rw [← reduce, ← reduce, foldl_push_reduce, foldl_push_reduce]

/-- Upwards from a directory below the root. -/
theorem foldl_push_climb (dirs : List String) (k : Nat) :
    (List.replicate k up).foldl push (root :: dirs.map name).reverse =
      (root :: (dirs.take (dirs.length - k)).map name).reverse := by
  induction k generalizing dirs with
  | zero => simp
  | succ k ih =>
    rw [List.replicate_succ, List.foldl_cons]
    rcases List.eq_nil_or_concat' dirs with rfl | ⟨dirs, s, rfl⟩
    · have hpush : push (root :: [].map name).reverse up = (root :: [].map name).reverse := rfl
      rw [hpush, ih, List.take_nil, List.take_nil]
    · have hpush : push (root :: (dirs ++ [s]).map name).reverse up =
          (root :: dirs.map name).reverse := by
        simp [push]
      rw [hpush, ih, List.length_append, List.length_singleton, Nat.add_sub_add_right,
        List.take_append_of_le_length (Nat.sub_le _ _)]

theorem reduce_climb (dirs : List String) (k : Nat) (names : List String) :
    reduce ((root :: dirs.map name) ++ (List.replicate k up ++ names.map name)) =
      root :: (dirs.take (dirs.length - k) ++ names).map name := by
  have hdirs : (root :: dirs.map name).foldl push [] = (root :: dirs.map name).reverse := by
    rw [List.foldl_cons, foldl_push_names, List.reverse_cons]
    rfl
  rw [reduce, List.foldl_append, List.foldl_append, hdirs, foldl_push_climb, foldl_push_names]
  simp

end Component

namespace Path

open Component

variable {p q base : Path}

/-! ## Joined paths -/

theorem foldl_push_components (done : List Component) (p : Path) :
    p.components.foldl push done =
      (p.pieces.filterMap ofPiece?).foldl push (if p.isAbsolute then [root] else done) := by
  have habsolute := p.isAbsolute_iff
  rw [components] at habsolute ⊢
  revert habsolute
  cases p.pieces using componentsOf.fun_cases_unfolding with
  | case1 r rest =>
    intro habsolute
    rw [habsolute.2 rfl]
    rfl
  | case2 rest =>
    intro habsolute
    have hrelative : ¬p.isAbsolute = true := fun h => by cases habsolute.1 h
    rw [if_neg hrelative]
    rfl
  | case3 ps =>
    intro habsolute
    rw [if_neg]
    intro h
    obtain ⟨_, -, hpiece⟩ := List.mem_filterMap.1 (List.mem_of_mem_head? (habsolute.1 h))
    exact ne_root_of_ofPiece? hpiece rfl

theorem filterMap_pieces_join (hq : q.isAbsolute = false) :
    (p.join q).pieces.filterMap ofPiece? =
      p.pieces.filterMap ofPiece? ++ q.pieces.filterMap ofPiece? := by
  rw [join, if_neg (by simp [hq])]
  split
  · next h =>
    rcases Bool.or_eq_true _ _ |>.mp h with hempty | hslash
    · rw [String.isEmpty_iff] at hempty
      simp [pieces, hempty, ofPiece?]
    · obtain ⟨cs, hcs⟩ := List.getLast?_eq_some_iff.1 (beq_iff_eq.1 hslash)
      simp [pieces, hcs, List.splitOn_append_cons_self, ofPiece?]
  · simp [pieces, List.splitOn_append_cons_self]

theorem isAbsolute_join (hq : q.isAbsolute = false) : (p.join q).isAbsolute = p.isAbsolute := by
  rw [join, if_neg (by simp [hq])]
  cases htext : p.text.toList with
  | nil =>
    have hempty : p.text = "" := String.toList_eq_nil_iff.1 htext
    have hp : p.isAbsolute = false := by rw [isAbsolute, htext]; rfl
    rw [if_pos (by simp [hempty]), hempty, String.empty_append, hp]
    exact hq
  | cons c cs => split <;> simp [isAbsolute, htext]

/-- A joined path is reduced to what its parts are one after the other. -/
theorem reduce_components_join (p q : Path) :
    reduce (p.join q).components = reduce (p.components ++ q.components) := by
  have hjoin : (p.join q).components.foldl push [] =
      q.components.foldl push (p.components.foldl push []) := by
    cases hq : q.isAbsolute with
    | true =>
      rw [join, if_pos hq, foldl_push_components, foldl_push_components (p.components.foldl _ _),
        if_pos hq, if_pos hq]
    | false =>
      rw [foldl_push_components, filterMap_pieces_join hq, isAbsolute_join hq, List.foldl_append,
        ← foldl_push_components, foldl_push_components (p.components.foldl _ _), hq]
      rfl
  rw [reduce, reduce, hjoin, List.foldl_append]

theorem normalize_congr (h : reduce p.components = reduce q.components) :
    p.normalize = q.normalize := by
  rw [normalize, normalize, h]

theorem reduce_components_ofComponents {cs : List Component} (hreduced : IsReduced cs)
    (hwritten : ∀ c ∈ cs, c.moves = true → c.Written) :
    reduce (ofComponents cs).components = cs := by
  rw [components_ofComponents hreduced hwritten]
  split
  · next h =>
    rw [h]
    rfl
  · exact reduce_of_isReduced hreduced

theorem reduce_components_normalize (p : Path) :
    reduce p.normalize.components = reduce p.components :=
  reduce_components_ofComponents (isReduced_reduce _) fun _ hc =>
    written_of_mem_components (mem_of_mem_reduce hc)

theorem normalize_join_congr {p' q' : Path} (hp : reduce p.components = reduce p'.components)
    (hq : reduce q.components = reduce q'.components) :
    (p.join q).normalize = (p'.join q').normalize := by
  refine normalize_congr ?_
  rw [reduce_components_join, reduce_components_join, ← reduce_append_reduce, hp, hq,
    reduce_append_reduce]

theorem normalize_join_assoc (p q r : Path) :
    ((p.join q).join r).normalize = (p.join (q.join r)).normalize := by
  refine normalize_congr ?_
  rw [reduce_components_join, reduce_components_join, ← reduce_append_reduce,
    reduce_components_join, reduce_append_reduce, ← reduce_append_reduce p.components,
    reduce_components_join, reduce_append_reduce, List.append_assoc]

/-! ## From one directory to another -/

/-- Two lists of names start alike and go different ways from there. -/
structure Forks (names dirs common rest climb : List String) : Prop where
  names_eq : names = common ++ rest
  dirs_eq : dirs = common ++ climb
  apart : ∀ s, rest.head? = some s → climb.head? ≠ some s

/-- Lists of names go different ways at one place only. -/
theorem Forks.unique {names dirs common rest climb common' rest' climb' : List String}
    (h : Forks names dirs common rest climb) (h' : Forks names dirs common' rest' climb') :
    rest = rest' ∧ climb = climb' := by
  obtain ⟨rfl, rfl, hapart⟩ := h
  obtain ⟨hnames, hdirs, hapart'⟩ := h'
  induction common generalizing common' with
  | nil =>
    cases common' with
    | nil => exact ⟨hnames, hdirs⟩
    | cons s common' =>
      rw [List.nil_append] at hnames hdirs
      rw [hnames, hdirs] at hapart
      exact absurd rfl (hapart s rfl)
  | cons s common ih =>
    cases common' with
    | nil =>
      rw [List.nil_append] at hnames hdirs
      rw [← hnames, ← hdirs] at hapart'
      exact absurd rfl (hapart' s rfl)
    | cons s' common' =>
      rw [List.cons_append, List.cons_append] at hnames hdirs
      exact ih (List.cons.inj hnames).2 (List.cons.inj hdirs).2

theorem exists_forks (names dirs : List String) : ∃ common rest climb,
    Forks names dirs common rest climb ∧
    dropCommon (names.map name) (dirs.map name) = (rest.map name, climb.map name) := by
  induction names generalizing dirs with
  | nil =>
    refine ⟨[], [], dirs, ⟨rfl, rfl, nofun⟩, ?_⟩
    cases dirs <;> rfl
  | cons s names ih =>
    cases dirs with
    | nil => exact ⟨[], s :: names, [], ⟨rfl, rfl, fun _ _ => nofun⟩, rfl⟩
    | cons d dirs =>
      rw [List.map_cons, List.map_cons, dropCommon]
      by_cases hs : s = d
      · obtain ⟨common, rest, climb, ⟨rfl, rfl, hapart⟩, hdrop⟩ := ih dirs
        rw [if_pos (congrArg name hs), hs]
        exact ⟨d :: common, rest, climb, ⟨rfl, rfl, hapart⟩, hdrop⟩
      · rw [if_neg (by simpa using hs)]
        refine ⟨[], s :: names, d :: dirs, ⟨rfl, rfl, fun t ht hd => hs ?_⟩, rfl⟩
        exact (Option.some.inj ht).trans (Option.some.inj hd).symm

theorem exists_relativeTo (hp : p.isAbsolute = true) (hbase : base.isAbsolute = true) :
    ∃ names dirs common rest climb : List String,
      reduce p.components = root :: names.map name ∧
      reduce base.components = root :: dirs.map name ∧
      Forks names dirs common rest climb ∧
      reduce (p.relativeTo base).components =
        List.replicate climb.length up ++ rest.map name := by
  obtain ⟨names, hnames, hwritten⟩ := components_normalize_of_isAbsolute hp
  obtain ⟨dirs, hdirs, -⟩ := components_normalize_of_isAbsolute hbase
  obtain ⟨common, rest, climb, hforks, hdrop⟩ := exists_forks names dirs
  have hroot (l : List String) : reduce (root :: l.map name) = root :: l.map name :=
    reduce_of_isReduced ⟨[root], l, rfl, .inl rfl⟩
  refine ⟨names, dirs, common, rest, climb, ?_, ?_, hforks, ?_⟩
  · rw [← reduce_components_normalize, hnames, hroot]
  · rw [← reduce_components_normalize, hdirs, hroot]
  · have hups : (((climb.map name).filter (· ≠ here)).map fun _ => up) =
        List.replicate climb.length up := by
      rw [List.filter_eq_self.2 (by simp), List.map_map]
      exact List.map_const'
    have hreduced : IsReduced (List.replicate climb.length up ++ rest.map name) :=
      ⟨_, rest, rfl, .inr ⟨climb.length, rfl⟩⟩
    rw [relativeTo, hnames, hdirs, dropCommon, if_pos rfl, hdrop]
    dsimp only
    rw [hups, reduce_of_isReduced hreduced]
    refine reduce_components_ofComponents hreduced fun c hc _ => ?_
    rcases List.mem_append.1 hc with hc | hc
    · rw [List.eq_of_mem_replicate hc]
      exact written_up
    · refine hwritten c ?_
      rw [hforks.names_eq, List.map_append]
      exact List.mem_append_right _ hc

/-- By the path from one directory to another one comes from the one to the other. -/
theorem normalize_join_relativeTo (hp : p.isAbsolute = true) (hbase : base.isAbsolute = true) :
    (base.join (p.relativeTo base)).normalize = p.normalize := by
  obtain ⟨names, dirs, common, rest, climb, hnames, hdirs, hforks, hrelative⟩ :=
    exists_relativeTo hp hbase
  refine normalize_congr ?_
  rw [reduce_components_join, ← reduce_append_reduce, hdirs, hrelative, reduce_climb, hnames,
    hforks.names_eq, hforks.dirs_eq, List.length_append, Nat.add_sub_cancel, List.take_left]

theorem relativeTo_normalize (p base : Path) : p.normalize.relativeTo base = p.relativeTo base := by
  rw [relativeTo, relativeTo, normalize_normalize]

/-! ## Climbing further than necessary -/

/-- The steps upwards at the start of components. -/
def climbs (cs : List Component) : Nat := (cs.takeWhile (· == up)).length

/-- A relative path goes up further than it has to: above the root, or out of a directory of `base`
that it enters again by name. -/
def Returns (base p : Path) : Prop :=
  let dirs := reduce base.components
  let cs := reduce p.components
  dirs.length ≤ climbs cs ∨ ∃ c ∈ cs[climbs cs]?, dirs[dirs.length - climbs cs]? = some c

instance (base p : Path) : Decidable (Returns base p) := inferInstanceAs (Decidable (_ ∨ _))

theorem climbs_eq (k : Nat) (names : List String) :
    climbs (List.replicate k up ++ names.map name) = k := by
  rw [climbs, List.takeWhile_append_of_pos (by simp)]
  cases names <;> simp

/-- A path does not go up further than it has to if what it enters is not where it came from. -/
theorem returns_iff {dirs names : List String} {k : Nat}
    (hbase : reduce base.components = root :: dirs.map name)
    (hp : reduce p.components = List.replicate k up ++ names.map name) :
    base.Returns p ↔ dirs.length < k ∨ ∃ s, names.head? = some s ∧
      (dirs.drop (dirs.length - k)).head? = some s := by
  have hclimbs : climbs (reduce p.components) = k := by rw [hp, climbs_eq]
  have hafter : (reduce p.components)[k]? = names.head?.map name := by
    rw [hp, List.getElem?_append_right (by simp)]
    cases names <;> simp
  rw [Returns, hclimbs, hafter, hbase, List.length_cons, List.length_map, Nat.succ_le_iff,
    List.head?_drop]
  by_cases hk : dirs.length < k
  · exact ⟨fun _ => .inl hk, fun _ => .inl hk⟩
  · have hindex : dirs.length + 1 - k = dirs.length - k + 1 := by omega
    rw [hindex, List.getElem?_cons_succ, List.getElem?_map]
    simp only [hk, false_or, Option.mem_def, Option.map_eq_some_iff]
    constructor
    · rintro ⟨_, ⟨s, hs, rfl⟩, ⟨d, hd, heq⟩⟩
      cases heq
      exact ⟨s, hs, hd⟩
    · rintro ⟨s, hs, hd⟩
      exact ⟨name s, ⟨s, hs, rfl⟩, s, hd, rfl⟩

/-- The components of a relative path lead upwards and then down. -/
theorem exists_reduce_of_relative (h : p.isAbsolute = false) : ∃ (k : Nat) (names : List String),
    reduce p.components = List.replicate k up ++ names.map name := by
  obtain ⟨base, names, hp, rfl | ⟨k, rfl⟩⟩ := isReduced_reduce p.components
  · have hroot : root ∈ reduce p.components := by rw [hp]; exact List.mem_cons_self
    rw [isAbsolute_of_root_mem (mem_of_mem_reduce hroot)] at h
    cases h
  · exact ⟨k, names, hp⟩

/-- A relative path is the path from its base exactly if it goes up no further than it has to. -/
theorem normalize_eq_relativeTo_iff (hbase : base.isAbsolute = true) (hp : p.isAbsolute = false) :
    p.normalize = (base.join p).relativeTo base ↔ ¬base.Returns p := by
  obtain ⟨k, names, hnames⟩ := exists_reduce_of_relative hp
  have habsolute : (base.join p).isAbsolute = true := (isAbsolute_join hp).trans hbase
  obtain ⟨all, dirs, common, rest, climb, hall, hdirs, hforks, hrelative⟩ :=
    exists_relativeTo habsolute hbase
  have hjoin : all = dirs.take (dirs.length - k) ++ names := by
    rw [reduce_components_join, ← reduce_append_reduce, hdirs, hnames, reduce_climb] at hall
    exact (List.map_injective_iff.2 (fun _ _ => name.inj) (List.cons.inj hall).2).symm
  have hsame : p.normalize = (base.join p).relativeTo base ↔ k = climb.length ∧ names = rest := by
    constructor
    · intro h
      have hreduce := congrArg (fun q : Path => reduce q.components) h
      rw [reduce_components_normalize, hnames, hrelative] at hreduce
      have hclimbs := congrArg climbs hreduce
      rw [climbs_eq, climbs_eq] at hclimbs
      rw [hclimbs] at hreduce
      exact ⟨hclimbs, List.map_injective_iff.2 (fun _ _ => name.inj)
        (List.append_cancel_left hreduce)⟩
    · rintro ⟨rfl, rfl⟩
      rw [← (canonical_relativeTo habsolute hbase).normal]
      exact normalize_congr (hnames.trans hrelative.symm)
  rw [hsame, returns_iff hdirs hnames]
  constructor
  · rintro ⟨rfl, rfl⟩ (hlt | ⟨s, hs, hd⟩)
    · have hlen := congrArg List.length hforks.dirs_eq
      rw [List.length_append] at hlen
      omega
    · rw [hforks.dirs_eq, List.length_append, Nat.add_sub_cancel, List.drop_left] at hd
      exact hforks.apart s hs hd
  · intro h
    rw [not_or, not_exists] at h
    have hforks' : Forks all dirs (dirs.take (dirs.length - k)) names
        (dirs.drop (dirs.length - k)) :=
      ⟨hjoin, (List.take_append_drop _ _).symm, fun s hs hd => h.2 s ⟨hs, hd⟩⟩
    obtain ⟨hrest, hclimb⟩ := hforks'.unique hforks
    refine ⟨?_, hrest⟩
    rw [← hclimb, List.length_drop]
    omega

end Path
end DocGraph
