import DocGraph.Proofs.Glob.Fitting
import DocGraph.Proofs.Tree.Location
import Mathlib.Data.List.Nodup
import Mathlib.Data.List.Perm.Subperm

/-!
# DocGraph.Proofs.Tree.Walk

The walk along a glob comes by every path that its components lead along.

* `Path.ofNames`       — the path of names, which is `.` without any.
* `Tree.Holds`         — names lead through directories to something that is there.
* `Tree.Leads`         — so does their path, which is short enough.
* `mem_entries`, `mem_below` — what names lead to is listed, in its directory and below those above.
* `length_le_depth`    — names lead no deeper than the bound for `below`.
* `mem_walk`           — where components guide along names, the walk finds their path.
* `isDirectory_of_mem_walk` — a walk with `**` at its end finds only directories.
-/

namespace DocGraph

open Glob

/-- The path of names in the current directory. -/
def Path.ofNames (names : List String) : Path :=
  if names = [] then ⟨"."⟩ else ofPieces (names.map String.toList)

namespace Tree

variable {t : Tree} {loc : Location} {pre rest names : List String} {s : String}

/-- Names lead from a location through directories to something that is there. -/
def Holds (t : Tree) (loc : Location) (names : List String) : Prop :=
  ∀ pre s rest, names = pre ++ s :: rest →
    t.isDirectoryAt (loc ++ pre) = true ∧ (t.node? (loc ++ pre ++ [s])).isSome = true

theorem holds_cons : t.Holds loc (s :: names) ↔
    (t.isDirectoryAt loc = true ∧ (t.node? (loc ++ [s])).isSome = true) ∧
      t.Holds (loc ++ [s]) names := by
  constructor
  · intro h
    refine ⟨?_, fun pre s' rest hnames => ?_⟩
    · have hfirst := h [] s names rfl
      rwa [List.append_nil] at hfirst
    · rw [← List.append_cons]
      exact h (s :: pre) s' rest (congrArg (s :: ·) hnames)
  · rintro ⟨hfirst, hrest⟩ pre s' rest hnames
    cases pre with
    | nil =>
      obtain ⟨rfl, -⟩ := List.cons.inj hnames
      rwa [List.append_nil]
    | cons d pre =>
      obtain ⟨rfl, htail⟩ := List.cons.inj (hnames.trans List.cons_append)
      rw [List.append_cons]
      exact hrest pre s' rest htail

theorem Holds.of_append (h : t.Holds loc (names ++ rest)) : t.Holds loc names := by
  rintro pre s rest' rfl
  exact h pre s (rest' ++ rest) (by simp)

/-! ## Paths of names -/

theorem pieces_ofNames (hne : names ≠ []) (h : ∀ s ∈ names, Visible s.toList) :
    (Path.ofNames names).pieces = names.map String.toList := by
  rw [Path.ofNames, if_neg hne]
  refine Path.pieces_ofPieces (by simpa using hne) fun piece hpiece => ?_
  obtain ⟨s, hs, rfl⟩ := List.mem_map.1 hpiece
  exact (h s hs).whole

theorem nil_notMem_pieces_ofNames (hne : names ≠ []) (h : ∀ s ∈ names, Visible s.toList) :
    [] ∉ (Path.ofNames names).pieces := by
  rw [pieces_ofNames hne h]
  intro hnil
  obtain ⟨s, hs, hempty⟩ := List.mem_map.1 hnil
  exact (h s hs).nonempty hempty

theorem isEmpty_ofNames (hne : names ≠ []) (h : ∀ s ∈ names, Visible s.toList) :
    (Path.ofNames names).text.isEmpty = false := by
  rw [← Bool.not_eq_true, String.isEmpty_iff, ← String.toList_eq_nil_iff]
  exact Path.ne_nil_of_nil_notMem (nil_notMem_pieces_ofNames hne h)

theorem ofPiece?_of_visible (h : Visible s.toList) :
    Component.ofPiece? s.toList = some (.name s) := by
  unfold Component.ofPiece?
  split
  · next hs => exact absurd hs h.nonempty
  · next hs => exact absurd (congrArg List.head? hs) h.shown
  · next hs => exact absurd (congrArg List.head? hs) h.shown
  · rw [String.ofList_toList]

theorem enter?_of_visible (h : Visible s.toList) : t.enter? loc s.toList =
    if t.isDirectoryAt loc = true ∧ (t.node? (loc ++ [s])).isSome = true then some (loc ++ [s])
    else none := by
  rw [enter?, ofPiece?_of_visible h]
  cases t.isDirectoryAt loc with
  | false => rfl
  | true =>
    dsimp only
    cases (t.node? (loc ++ [s])).isSome <;> rfl

theorem components_ofNames (hne : names ≠ []) (h : ∀ s ∈ names, Visible s.toList) :
    (Path.ofNames names).components = names.map .name := by
  obtain ⟨s, names, rfl⟩ := List.exists_cons_of_ne_nil hne
  have hs := ofPiece?_of_visible (h s List.mem_cons_self)
  have hnames : (names.map String.toList).filterMap Component.ofPiece? = names.map .name := by
    rw [List.filterMap_map, ← List.filterMap_eq_map]
    refine List.filterMap_congr fun s' hs' => ?_
    exact ofPiece?_of_visible (h s' (List.mem_cons_of_mem _ hs'))
  rw [Path.components, pieces_ofNames hne h, List.map_cons, Path.componentsOf_eq_filterMap hs,
    List.filterMap_cons_some hs, hnames, List.map_cons]

theorem locate?_ofNames (h : ∀ s ∈ names, Visible s.toList)
    (hadmits : t.admits (Path.ofNames names) = true) :
    t.locate? (Path.ofNames names) = (names.map String.toList).foldlM t.enter? t.workdir := by
  rw [locate?, hadmits]
  by_cases hne : names = []
  · rw [hne]
    change t.enter? t.workdir ['.'] >>= _ = _
    rw [enter?, t.isDirectoryAt_workdir]
    rfl
  · have hnil := nil_notMem_pieces_ofNames hne h
    have habsolute : (Path.ofNames names).isAbsolute = false := Path.head?_of_nil_notMem hnil
    rw [isEmpty_ofNames hne h, start, habsolute, pieces_ofNames hne h]
    rfl

theorem not_same_here (hne : names ≠ []) (h : ∀ s ∈ names, Visible s.toList) :
    ¬(Path.ofNames names).Same ⟨"."⟩ := by
  rw [Path.Same, components_ofNames hne h]
  obtain ⟨s, names, rfl⟩ := List.exists_cons_of_ne_nil hne
  intro hcomponents
  cases (List.cons.inj hcomponents).1

/-- The path of names is the shorter the fewer there are. -/
theorem admits_of_append (h : ∀ s ∈ names ++ rest, Visible s.toList)
    (hadmits : t.admits (Path.ofNames (names ++ rest)) = true) :
    t.admits (Path.ofNames names) = true := by
  by_cases hne : names = []
  · rw [hne]
    exact t.admits_here
  · have hnames : ∀ s ∈ names, Visible s.toList := fun s hs => h s (List.mem_append_left _ hs)
    have hsize := of_decide_eq_true hadmits
    rw [Path.size, components_ofNames (List.append_ne_nil_of_left_ne_nil hne rest) h,
      List.map_append, List.flatMap_append, List.length_append] at hsize
    refine decide_eq_true ?_
    rw [Path.size, components_ofNames hne hnames]
    omega

theorem entry_ofNames (h : ∀ s' ∈ pre ++ [s], Visible s'.toList) :
    entry (Path.ofNames pre) s = Path.ofNames (pre ++ [s]) := by
  have hs : Visible s.toList := h s (List.mem_append_right _ List.mem_cons_self)
  have hpre : ∀ s' ∈ pre, Visible s'.toList := fun s' hs' => h s' (List.mem_append_left _ hs')
  have habsolute : Path.isAbsolute ⟨s⟩ = false := by
    refine beq_false_of_ne fun hhead => hs.whole ?_
    exact List.mem_of_mem_head? hhead
  refine Path.eq_of_pieces_eq ?_
  rw [pieces_ofNames (by simp) h, entry]
  by_cases hne : pre = []
  · have hsame : (Path.ofNames []).Same ⟨"."⟩ := rfl
    rw [hne, if_pos hsame]
    exact List.splitOn_eq_singleton hs.whole
  · have hnil := nil_notMem_pieces_ofNames hne hpre
    have hslash : (Path.ofNames pre).isDirLike = false := Path.getLast?_of_nil_notMem hnil
    rw [if_neg (not_same_here hne hpre), Path.join, habsolute, isEmpty_ofNames hne hpre, hslash,
      List.map_append, ← pieces_ofNames hne hpre]
    simp [Path.pieces, List.splitOn_append_cons_self, List.splitOn_eq_singleton hs.whole]

/-! ## What is there -/

theorem foldlM_enter?_eq_some_iff {loc' : Location} (h : ∀ s ∈ names, Visible s.toList) :
    (names.map String.toList).foldlM t.enter? loc = some loc' ↔
      loc' = loc ++ names ∧ t.Holds loc names := by
  induction names generalizing loc with
  | nil =>
    have hholds : t.Holds loc [] := fun pre s rest hnil => by simp at hnil
    rw [List.append_nil, and_iff_left hholds]
    exact Option.some_inj.trans eq_comm
  | cons s names ih =>
    rw [List.map_cons, List.foldlM_cons, enter?_of_visible (h s List.mem_cons_self), holds_cons,
      List.append_cons loc s names]
    split
    · next hstep =>
      rw [and_iff_right hstep]
      exact ih fun s' hs' => h s' (List.mem_cons_of_mem _ hs')
    · next hstep => exact iff_of_false nofun fun hall => hstep hall.2.1

/-- The path of names leads through directories to something that is there. -/
def Leads (t : Tree) (names : List String) : Prop :=
  t.admits (Path.ofNames names) = true ∧ t.Holds t.workdir names

theorem locate?_eq_some_iff (h : ∀ s ∈ names, Visible s.toList) :
    t.locate? (Path.ofNames names) = some loc ↔ t.Leads names ∧ loc = t.workdir ++ names := by
  rw [Leads]
  cases hadmits : t.admits (Path.ofNames names) with
  | false =>
    have hnowhere : t.locate? (Path.ofNames names) = none := by simp [locate?, hadmits]
    rw [hnowhere]
    exact iff_of_false (Option.some_ne_none loc).symm fun h => Bool.false_ne_true h.1.1
  | true =>
    rw [locate?_ofNames h hadmits, foldlM_enter?_eq_some_iff h, and_iff_right rfl, and_comm]

theorem exists?_ofNames_iff (h : ∀ s ∈ names, Visible s.toList) :
    t.exists? (Path.ofNames names) = true ↔ t.Leads names := by
  rw [exists?, Option.isSome_iff_exists]
  simp only [locate?_eq_some_iff h, exists_and_left, exists_eq, and_true]

theorem Leads.of_append (hvisible : ∀ s ∈ names ++ rest, Visible s.toList)
    (h : t.Leads (names ++ rest)) : t.Leads names :=
  ⟨admits_of_append hvisible h.1, h.2.of_append⟩

theorem mem_nodes (h : (t.node? (t.workdir ++ pre ++ [s])).isSome = true) :
    t.workdir ++ pre ++ [s] ∈ t.nodes.toList.map Prod.fst := by
  have hlong : ¬(t.workdir ++ pre ++ [s]).isPrefixOf t.workdir = true := by
    intro hprefix
    have hlength := (List.isPrefixOf_iff_prefix.1 hprefix).length_le
    simp only [List.length_append, List.length_singleton] at hlength
    omega
  rw [node?, if_neg hlong, Option.isSome_map] at h
  obtain ⟨e, he⟩ := Option.isSome_iff_exists.1 h
  obtain ⟨hmem, hkey⟩ := SortedBy.find?_eq_some_iff.1 he
  exact List.mem_map.2 ⟨e, hmem, hkey⟩

section

variable (hvisible : ∀ s ∈ pre ++ rest, Visible s.toList) (h : t.Leads (pre ++ rest))
include hvisible h

theorem locate?_above : t.locate? (Path.ofNames pre) = some (t.workdir ++ pre) :=
  (locate?_eq_some_iff fun s hs => hvisible s (List.mem_append_left _ hs)).2
    ⟨h.of_append hvisible, rfl⟩

theorem isDirectory_above (hne : rest ≠ []) : t.isDirectory (Path.ofNames pre) = true := by
  obtain ⟨s, rest, rfl⟩ := List.exists_cons_of_ne_nil hne
  rw [isDirectory, at?, locate?_above hvisible h]
  exact (h.2 pre s rest rfl).1

end

section

variable (hvisible : ∀ s' ∈ pre ++ s :: rest, Visible s'.toList)
  (h : t.Leads (pre ++ s :: rest))
include hvisible

theorem visible_here : Visible s.toList :=
  hvisible s (List.mem_append_right _ List.mem_cons_self)

theorem visible_next : ∀ s' ∈ pre ++ [s], Visible s'.toList := by
  rw [List.append_cons] at hvisible
  exact fun s' hs' => hvisible s' (List.mem_append_left _ hs')

theorem entry_above : entry (Path.ofNames pre) s = Path.ofNames (pre ++ [s]) :=
  entry_ofNames (visible_next hvisible)

include h

theorem mem_names : s ∈ t.names (Path.ofNames pre) := by
  obtain ⟨hdirectory, hthere⟩ := h.2 pre s rest rfl
  rw [names, locate?_above hvisible h]
  dsimp only
  rw [if_pos hdirectory, namesAt, ← SortedBy.mem_def, TextSet.mem_ofList]
  refine List.mem_filterMap.2 ⟨t.workdir ++ pre ++ [s], List.mem_append_left _ ?_, ?_⟩
  · exact mem_nodes hthere
  · rw [childName?, List.isPrefixOf?_eq_some_iff_append_eq.2 rfl]

theorem mem_entries : (Path.ofNames (pre ++ [s]), s) ∈ t.entries (Path.ofNames pre) := by
  rw [← entry_above hvisible]
  refine List.mem_map.2 ⟨s, List.mem_filter.2 ⟨mem_names hvisible h, ?_⟩, rfl⟩
  exact bne_iff_ne.2 (visible_here hvisible).shown

theorem step?_above : t.step? s (Path.ofNames pre) = some (Path.ofNames (pre ++ [s])) := by
  have hnext : t.exists? (Path.ofNames (pre ++ [s])) = true := by
    rw [List.append_cons] at hvisible h
    exact (exists?_ofNames_iff fun s' hs' => hvisible s' (List.mem_append_left _ hs')).2
      (h.of_append hvisible)
  have hshown := (visible_here hvisible).shown
  have hdot : (s == "." || s == "..") = false := by
    rw [Bool.or_eq_false_iff]
    constructor <;> refine beq_false_of_ne ?_ <;> rintro rfl <;> exact hshown rfl
  rw [step?, hdot, entry_above hvisible, hnext]
  rfl

end

/-- What names lead to is listed below every directory on the way, if that is not too far above. -/
theorem mem_below {n : Nat} {run : List String}
    (hvisible : ∀ s' ∈ pre ++ run ++ s :: rest, Visible s'.toList)
    (h : t.Leads (pre ++ run ++ s :: rest)) (hn : run.length < n) :
    (Path.ofNames (pre ++ run ++ [s]), s) ∈ t.below n (Path.ofNames pre) := by
  induction n generalizing pre run with
  | zero => omega
  | succ n ih =>
    rw [below, List.mem_flatMap]
    cases run with
    | nil =>
      rw [List.append_nil] at hvisible h ⊢
      exact ⟨_, mem_entries hvisible h, List.mem_cons_self⟩
    | cons d run =>
      have hfirst : pre ++ d :: run ++ s :: rest = pre ++ d :: (run ++ s :: rest) := by simp
      have hnext : pre ++ d :: run ++ s :: rest = pre ++ [d] ++ (run ++ s :: rest) := by simp
      refine ⟨_, mem_entries (hfirst ▸ hvisible) (hfirst ▸ h), List.mem_cons_of_mem _ ?_⟩
      rw [if_pos (isDirectory_above (hnext ▸ hvisible) (hnext ▸ h) (by simp)),
        List.append_cons pre d run]
      rw [List.append_cons pre d run] at hvisible h
      exact ih hvisible h (Nat.lt_of_succ_lt_succ hn)

theorem length_le_depth (h : t.Holds t.workdir names) : names.length ≤ t.depth := by
  -- the locations on the way are distinct nodes, for each is longer than those in front of it
  let locs := (List.range names.length).map fun i => t.workdir ++ names.take (i + 1)
  have hnodup : locs.Nodup := by
    refine List.Nodup.map_on (fun i hi j hj heq => ?_) List.nodup_range
    have hlength := congrArg List.length (List.append_cancel_left heq)
    rw [List.length_take, List.length_take] at hlength
    rw [List.mem_range] at hi hj
    omega
  have hsubset : locs ⊆ t.nodes.toList.map Prod.fst := by
    intro loc hloc
    obtain ⟨i, hi, rfl⟩ := List.mem_map.1 hloc
    have hi : i < names.length := List.mem_range.1 hi
    have hnames : names = names.take i ++ names[i] :: names.drop (i + 1) := by
      rw [List.getElem_cons_drop, List.take_append_drop]
    rw [← List.take_append_getElem hi, ← List.append_assoc]
    exact mem_nodes (h _ _ _ hnames).2
  have hlength := (List.subperm_of_subset hnodup hsubset).length_le
  rw [List.length_map, List.length_map, List.length_range] at hlength
  rw [depth, SortedBy.size]
  omega

theorem length_lt_depth {run : List String} (h : t.Leads (pre ++ run ++ s :: rest)) :
    run.length < t.depth := by
  have hlength := length_le_depth h.2
  rw [List.length_append, List.length_append, List.length_cons] at hlength
  omega

/-! ## Walks -/

theorem getLast?_cons_iff {c d : GlobComponent} {cs : List GlobComponent} (hne : d ≠ c) :
    (d :: cs).getLast? = some c ↔ cs.getLast? = some c := by
  rw [List.getLast?_cons]
  cases cs.getLast? with
  | none => exact iff_of_false (fun h => hne (Option.some.inj h)) nofun
  | some l => exact Iff.rfl

/-- Where components guide along names to something that is there, the walk finds its path; behind a
last `**` it has to be a directory. -/
theorem mem_walk {cs : List GlobComponent} {dir : Path} (hguides : Guides cs names)
    (hcs : cs.IsChain fun a b => a = .recursive → b ≠ .recursive)
    (hvisible : ∀ s ∈ pre ++ names, Visible s.toList) (h : t.Leads (pre ++ names))
    (hlast : cs.getLast? = some .recursive → t.isDirectory (Path.ofNames (pre ++ names)) = true)
    (hdir : dir = Path.ofNames pre) :
    Path.ofNames (pre ++ names) ∈ t.walk false cs dir := by
  -- the cases are those of the walk, which takes `**` and the component behind it in one step
  fun_induction t.walk false cs dir generalizing pre names with
  | case1 p hp => cases hp
  | case2 p hp =>
    cases hguides
    rw [List.append_nil, hdir]
    exact List.mem_singleton_self _
  | case3 s cs dir next hnext ih =>
    cases hguides with
    | @cons _ n _ names haccepts hrest =>
      obtain rfl : s = n := beq_iff_eq.1 haccepts
      rw [hdir, step?_above hvisible h] at hnext
      rw [List.append_cons pre s names] at hvisible h hlast ⊢
      exact ih hrest hcs.tail hvisible h (fun hrec => hlast ((getLast?_cons_iff (by nofun)).2 hrec))
        (Option.some.inj hnext).symm
  | case4 s cs dir hnext =>
    cases hguides with
    | @cons _ n _ names haccepts hrest =>
      obtain rfl : s = n := beq_iff_eq.1 haccepts
      rw [hdir, step?_above hvisible h] at hnext
      cases hnext
  | case5 l cs dir hdirectory ih ih' =>
    cases hguides with
    | @cons _ n _ names haccepts hrest =>
      have hentry := mem_entries hvisible h
      refine List.mem_append_left _ (List.mem_flatMap.2 ⟨_, hdir ▸ hentry, ?_⟩)
      have haccept : GlobItem.accept l true n.toList = true := haccepts
      rw [if_pos haccept]
      rw [List.append_cons pre n names] at hvisible h hlast ⊢
      exact ih _ hrest hcs.tail hvisible h
        (fun hrec => hlast ((getLast?_cons_iff (by nofun)).2 hrec)) rfl
  | case6 l cs dir hdirectory =>
    cases hguides with
    | cons haccepts hrest =>
      refine absurd ?_ hdirectory
      rw [hdir]
      exact isDirectory_above hvisible h (List.cons_ne_nil _ _)
  | case7 dir =>
    cases hguides with
    | cons haccepts _ => cases haccepts
    | deep run hne hrest =>
      cases hrest
      obtain ⟨run, s, rfl⟩ := run.eq_nil_or_concat'.resolve_left hne
      rw [List.append_nil, ← List.append_assoc] at hvisible h hlast ⊢
      have hbelow := mem_below hvisible h (length_lt_depth h)
      have hdirectory := hlast rfl
      rw [← hdir] at hbelow
      exact List.mem_map.2 ⟨(_, s), List.mem_filter.2 ⟨hbelow, hdirectory⟩, rfl⟩
  | case8 c cs dir ih =>
    cases hguides with
    | cons haccepts _ => cases haccepts
    | @deep _ names run _ hrest =>
      have hne : c ≠ .recursive := (List.isChain_cons_cons.1 hcs).1 rfl
      cases hrest with
      | deep => exact absurd rfl hne
      | @cons _ n _ names haccepts hrest =>
        rw [← List.append_assoc] at hvisible h hlast ⊢
        have hbelow := mem_below hvisible h (length_lt_depth h)
        refine List.mem_flatMap.2 ⟨_, hdir ▸ hbelow, ?_⟩
        rw [if_pos haccepts]
        rw [List.append_cons (pre ++ run) n names] at hvisible h hlast ⊢
        rw [List.getLast?_cons_cons, getLast?_cons_iff hne] at hlast
        exact ih _ hrest hcs.tail.tail hvisible h hlast rfl

/-- With `**` at its end, a walk finds only directories. -/
theorem isDirectory_of_mem_walk {directories : Bool} {cs : List GlobComponent} {dir p : Path}
    (hlast : cs.getLast? = some .recursive) (h : p ∈ t.walk directories cs dir) :
    t.isDirectory p = true := by
  fun_induction t.walk directories cs dir with
  | case1 => cases hlast
  | case2 => cases hlast
  | case3 s cs dir next _ ih => exact ih ((getLast?_cons_iff (by nofun)).1 hlast) h
  | case4 => cases h
  | case5 l cs dir _ ih ih' =>
    have hcs := (getLast?_cons_iff (by nofun)).1 hlast
    rcases List.mem_append.1 h with h | h
    · obtain ⟨e, -, he⟩ := List.mem_flatMap.1 h
      split at he
      · exact ih e hcs he
      · cases he
    · obtain ⟨e, -, he⟩ := List.mem_flatMap.1 h
      exact ih' e hcs he
  | case6 => cases h
  | case7 dir =>
    obtain ⟨e, he, rfl⟩ := List.mem_map.1 h
    exact (List.mem_filter.1 he).2
  | case8 c cs dir ih =>
    obtain ⟨e, -, he⟩ := List.mem_flatMap.1 h
    split at he
    · next haccepts =>
      have hne : c ≠ .recursive := by
        rintro rfl
        cases haccepts
      rw [List.getLast?_cons_cons, getLast?_cons_iff hne] at hlast
      exact ih e hlast he
    · cases he

end Tree
end DocGraph
