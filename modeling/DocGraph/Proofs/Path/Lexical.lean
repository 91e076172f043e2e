import DocGraph.Proofs.Path.Join
import Mathlib.Logic.Relation

/-!
# DocGraph.Proofs.Path.Lexical

The normal form of a path is what is left when nothing more cancels.

* `Component.Cancels` — one place where components cancel: `.` goes, `..` goes with the name in front
  of it, and at the root `..` goes alone.
* `Path.steps`        — what stands between the slashes of a path.
* `Path.ReducesTo`    — what is left of it when nothing more cancels.
* `ReducesTo.reduce_eq` — that is what the path is reduced to, in whatever order components cancel.
* `Path.Lexical`      — how a path in normal form is written.
* `normalize_lexical` — the laws of the normal form.
-/

namespace DocGraph

namespace Component

/-- One place where components cancel, below the root or not. -/
inductive Cancels (absolute : Bool) : List Component → List Component → Prop where
  | drop (as bs : List Component) : Cancels absolute (as ++ here :: bs) (as ++ bs)
  | back (as bs : List Component) (s : String) :
      Cancels absolute (as ++ name s :: up :: bs) (as ++ bs)
  | top (bs : List Component) (h : absolute = true) : Cancels absolute (up :: bs) bs

/-- Components that start at the root, or do not. -/
def below (absolute : Bool) (cs : List Component) : List Component :=
  if absolute then root :: cs else cs

theorem below_append (absolute : Bool) (as bs : List Component) :
    below absolute (as ++ bs) = below absolute as ++ bs := by
  cases absolute <;> rfl

theorem below_inj {absolute absolute' : Bool} {cs cs' : List Component} (h : root ∉ cs)
    (h' : root ∉ cs') (heq : below absolute cs = below absolute' cs') :
    absolute = absolute' ∧ cs = cs' := by
  cases absolute <;> cases absolute'
  · exact ⟨rfl, heq⟩
  · have hcs : cs = root :: cs' := heq
    exact absurd (hcs ▸ List.mem_cons_self) h
  · have hcs : root :: cs = cs' := heq
    exact absurd (hcs ▸ List.mem_cons_self) h'
  · exact ⟨rfl, (List.cons.inj heq).2⟩

theorem push_here (done : List Component) : push done here = done := by
  cases done <;> rfl

theorem reduce_of_cancels {absolute : Bool} {cs ds : List Component} (h : Cancels absolute cs ds) :
    reduce (below absolute cs) = reduce (below absolute ds) := by
  rw [reduce, reduce]
  cases h with
  | drop as bs =>
    rw [below_append, below_append, List.foldl_append, List.foldl_append, List.foldl_cons, push_here]
  | back as bs s =>
    rw [below_append, below_append, List.foldl_append, List.foldl_append, List.foldl_cons,
      List.foldl_cons, push_name]
    rfl
  | top bs h =>
    rw [h]
    rfl

theorem Cancels.length_lt {absolute : Bool} {cs ds : List Component} (h : Cancels absolute cs ds) :
    ds.length < cs.length := by
  cases h with
  | drop as bs => simp
  | back as bs s =>
    rw [List.length_append, List.length_append, List.length_cons, List.length_cons]
    omega
  | top bs h => simp

theorem Cancels.subset {absolute : Bool} {cs ds : List Component} (h : Cancels absolute cs ds) :
    ds ⊆ cs := by
  cases h with
  | drop as bs => simp
  | back as bs s =>
    intro c hc
    rw [List.mem_append] at hc ⊢
    exact hc.imp_right fun hc => List.mem_cons_of_mem _ (List.mem_cons_of_mem _ hc)
  | top bs h => exact List.subset_cons_self _ _

theorem Cancels.cons {cs ds : List Component} (c : Component) (h : Cancels false cs ds) :
    Cancels false (c :: cs) (c :: ds) := by
  cases h with
  | drop as bs => exact .drop (c :: as) bs
  | back as bs s => exact .back (c :: as) bs s
  | top bs h => cases h

theorem Cancels.of_relative {absolute : Bool} {cs ds : List Component} (h : Cancels false cs ds) :
    Cancels absolute cs ds := by
  cases h with
  | drop as bs => exact .drop as bs
  | back as bs s => exact .back as bs s
  | top bs h => cases h

theorem exists_not_cancels (absolute : Bool) (cs : List Component) :
    ∃ ds, Relation.ReflTransGen (Cancels absolute) cs ds ∧ ∀ es, ¬Cancels absolute ds es := by
  induction hn : cs.length using Nat.strong_induction_on generalizing cs with
  | _ n ih =>
    by_cases h : ∃ ds, Cancels absolute cs ds
    · obtain ⟨ds, hds⟩ := h
      obtain ⟨es, hes, hdone⟩ := ih ds.length (hn ▸ hds.length_lt) ds rfl
      exact ⟨es, .head hds hes, hdone⟩
    · exact ⟨cs, .refl, not_exists.1 h⟩

/-- Where nothing cancels, names follow steps upwards. -/
theorem exists_names_of_not_cancels {cs : List Component} (hroot : root ∉ cs)
    (h : ∀ ds, ¬Cancels false cs ds) :
    ∃ (k : Nat) (names : List String), cs = List.replicate k up ++ names.map name := by
  induction cs with
  | nil => exact ⟨0, [], rfl⟩
  | cons c cs ih =>
    rw [List.mem_cons, not_or] at hroot
    obtain ⟨k, names, rfl⟩ := ih hroot.2 fun ds hds => h _ (hds.cons c)
    cases c with
    | root => exact absurd rfl hroot.1
    | here => exact absurd (.drop [] _) (h _)
    | up => exact ⟨k + 1, names, rfl⟩
    | name s =>
      -- a name cancels with a step upwards behind it
      cases k with
      | zero => exact ⟨0, s :: names, rfl⟩
      | succ k => exact absurd (.back [] _ s) (h _)

theorem isReduced_below {absolute : Bool} {cs : List Component} (hroot : root ∉ cs)
    (h : ∀ ds, ¬Cancels absolute cs ds) : IsReduced (below absolute cs) := by
  obtain ⟨k, names, rfl⟩ := exists_names_of_not_cancels hroot fun ds hds => h ds hds.of_relative
  cases absolute with
  | false => exact ⟨_, names, rfl, .inr ⟨k, rfl⟩⟩
  | true =>
    -- below the root a step upwards cancels alone
    cases k with
    | zero => exact ⟨[root], names, rfl, .inl rfl⟩
    | succ k => exact absurd (.top _ rfl) (h _)

end Component

namespace Path

open Component

/-- What stands between the slashes of a path. -/
def steps (p : Path) : List Component :=
  (p.pieces.filter fun piece => !piece.isEmpty).map fun piece => (ofPiece? piece).getD here

theorem root_notMem_steps (p : Path) : root ∉ p.steps := by
  rw [steps, List.mem_map]
  rintro ⟨piece, -, hpiece⟩
  cases hc : ofPiece? piece with
  | none =>
    rw [hc] at hpiece
    cases hpiece
  | some c =>
    rw [hc] at hpiece
    exact ne_root_of_ofPiece? hc hpiece

theorem foldl_push_steps (done : List Component) (p : Path) :
    p.steps.foldl push done = (p.pieces.filterMap ofPiece?).foldl push done := by
  rw [steps]
  induction p.pieces generalizing done with
  | nil => rfl
  | cons piece ps ih =>
    cases hc : ofPiece? piece with
    | some c =>
      have hempty : piece.isEmpty = false := by
        cases piece with
        | nil => cases hc
        | cons _ _ => rfl
      rw [List.filter_cons_of_pos (by simp [hempty]), List.map_cons, List.filterMap_cons_some hc,
        List.foldl_cons, List.foldl_cons, hc, Option.getD_some, ih]
    | none =>
      -- an empty piece is no step, and `.` is one that changes nothing
      rw [List.filterMap_cons_none hc, ← ih]
      cases hempty : piece.isEmpty with
      | true => rw [List.filter_cons_of_neg (by simp [hempty])]
      | false =>
        rw [List.filter_cons_of_pos (by simp [hempty]), List.map_cons, List.foldl_cons, hc,
          Option.getD_none, push_here]

theorem reduce_components_eq (p : Path) :
    reduce p.components = reduce (below p.isAbsolute p.steps) := by
  rw [reduce, reduce, foldl_push_components, ← foldl_push_steps]
  cases p.isAbsolute <;> rfl

/-- What stands between the slashes of a path can cancel until `cs` is left, and no further. -/
structure ReducesTo (p : Path) (absolute : Bool) (cs : List Component) : Prop where
  isAbsolute_eq : p.isAbsolute = absolute
  cancels : Relation.ReflTransGen (Cancels absolute) p.steps cs
  done : ∀ ds, ¬Cancels absolute cs ds

theorem ReducesTo.root_notMem {p : Path} {absolute : Bool} {cs : List Component}
    (h : p.ReducesTo absolute cs) : root ∉ cs := by
  have hsubset {ds : List Component} (hds : Relation.ReflTransGen (Cancels absolute) p.steps ds) :
      ds ⊆ p.steps := by
    induction hds with
    | refl => exact List.Subset.refl _
    | tail _ hstep ih => exact List.Subset.trans hstep.subset ih
  exact fun hroot => p.root_notMem_steps (hsubset h.cancels hroot)

theorem ReducesTo.reduce_eq {p : Path} {absolute : Bool} {cs : List Component}
    (h : p.ReducesTo absolute cs) : reduce p.components = below absolute cs := by
  have hsame {ds : List Component} (hds : Relation.ReflTransGen (Cancels absolute) p.steps ds) :
      reduce (below absolute p.steps) = reduce (below absolute ds) := by
    induction hds with
    | refl => rfl
    | tail _ hstep ih => exact ih.trans (reduce_of_cancels hstep)
  rw [reduce_components_eq, h.isAbsolute_eq, hsame h.cancels,
    reduce_of_isReduced (isReduced_below h.root_notMem h.done)]

theorem exists_reducesTo (p : Path) : ∃ cs, p.ReducesTo p.isAbsolute cs := by
  obtain ⟨cs, hcs, hdone⟩ := exists_not_cancels p.isAbsolute p.steps
  exact ⟨cs, rfl, hcs, hdone⟩

/-- The order in which components cancel does not matter. -/
theorem ReducesTo.unique {p : Path} {absolute absolute' : Bool} {cs cs' : List Component}
    (h : p.ReducesTo absolute cs) (h' : p.ReducesTo absolute' cs') :
    absolute = absolute' ∧ cs = cs' :=
  below_inj h.root_notMem h'.root_notMem (h.reduce_eq.symm.trans h'.reduce_eq)

theorem normalize_eq_iff {p q : Path} :
    p.normalize = q.normalize ↔ ∃ absolute cs, p.ReducesTo absolute cs ∧ q.ReducesTo absolute cs := by
  constructor
  · intro h
    have hreduce : reduce p.components = reduce q.components := by
      rw [← reduce_components_normalize, h, reduce_components_normalize]
    obtain ⟨cs, hcs⟩ := p.exists_reducesTo
    obtain ⟨ds, hds⟩ := q.exists_reducesTo
    have heq : below p.isAbsolute cs = below q.isAbsolute ds := by
      rw [← hcs.reduce_eq, hreduce, hds.reduce_eq]
    obtain ⟨habsolute, rfl⟩ := below_inj hcs.root_notMem hds.root_notMem heq
    rw [← habsolute] at hds
    exact ⟨_, cs, hcs, hds⟩
  · rintro ⟨absolute, cs, hp, hq⟩
    exact normalize_congr (hp.reduce_eq.trans hq.reduce_eq.symm)

/-! ## How it is written -/

/-- A name, and nothing with a meaning of its own. -/
structure IsPlain (s : String) : Prop where
  ne_empty : s ≠ ""
  ne_here : s ≠ "."
  ne_up : s ≠ ".."
  slash_notMem : '/' ∉ s.toList

/-- A path in normal form is `.`, or has one slash between each two names. In front of these it has
a slash, or steps upwards. -/
inductive Lexical : Path → Prop where
  | here : Lexical ⟨"."⟩
  | absolute {names : List String} (h : ∀ s ∈ names, IsPlain s) :
      Lexical ⟨"/" ++ "/".intercalate names⟩
  | relative {k : Nat} {names : List String} (h : ∀ s ∈ names, IsPlain s)
      (hne : List.replicate k ".." ++ names ≠ []) :
      Lexical ⟨"/".intercalate (List.replicate k ".." ++ names)⟩

theorem isPlain_of_written {s : String} (h : (name s).Written) : IsPlain s := by
  obtain ⟨hpiece, hslash⟩ := h
  refine ⟨?_, ?_, ?_, hslash⟩
  all_goals
    rintro rfl
    cases hpiece

theorem lexical_normalize (p : Path) : p.normalize.Lexical := by
  obtain ⟨base, names, hreduce, hbase⟩ := isReduced_reduce p.components
  have hplain : ∀ s ∈ names, IsPlain s := by
    intro s hs
    have hmem : name s ∈ reduce p.components := by
      rw [hreduce]
      exact List.mem_append_right _ (List.mem_map_of_mem hs)
    exact isPlain_of_written (written_of_mem_components (mem_of_mem_reduce hmem) rfl)
  have htexts : (names.map name).map Component.text = names := by
    rw [List.map_map]
    exact List.map_id' _
  rw [normalize, hreduce]
  rcases hbase with rfl | ⟨k, rfl⟩
  · have htext : ofComponents ([root] ++ names.map name) = ⟨"/" ++ "/".intercalate names⟩ := by
      rw [List.singleton_append, ofComponents, joined, htexts]
    rw [htext]
    exact .absolute hplain
  · cases hcs : List.replicate k up ++ names.map name with
    | nil => exact .here
    | cons c cs =>
      have hc : c ≠ root := by
        rintro rfl
        have hroot : root ∈ List.replicate k up ++ names.map name := hcs ▸ List.mem_cons_self
        simp at hroot
      have htext : ofComponents (c :: cs) = ⟨joined (c :: cs)⟩ := by
        cases c <;> first | rfl | exact absurd rfl hc
      rw [htext, ← hcs, joined, List.map_append, List.map_replicate, htexts]
      refine .relative hplain ?_
      intro hnil
      have hlen := congrArg List.length hcs
      simp at hnil
      simp [hnil] at hlen

theorem nil_notMem_intercalate {texts : List String} (hne : texts ≠ [])
    (h : ∀ s ∈ texts, s ≠ "" ∧ '/' ∉ s.toList) :
    [] ∉ ("/".intercalate texts).toList.splitOn '/' := by
  have hslash : ∀ piece ∈ texts.map String.toList, '/' ∉ piece := by
    intro piece hpiece
    obtain ⟨s, hs, rfl⟩ := List.mem_map.1 hpiece
    exact (h s hs).2
  have hpieces : ("/".intercalate texts).toList.splitOn '/' = texts.map String.toList := by
    rw [String.toList_intercalate]
    exact List.splitOn_intercalate '/' hslash (by simpa using hne)
  rw [hpieces, List.mem_map]
  rintro ⟨s, hs, hnil⟩
  exact (h s hs).1 (String.toList_eq_nil_iff.1 hnil)

/-- The only slash at the end of a path in normal form is that of the root. -/
theorem Lexical.eq_root {p : Path} (h : p.Lexical) (hslash : p.isDirLike = true) : p = ⟨"/"⟩ := by
  cases h with
  | here => cases hslash
  | @absolute names h =>
    cases names with
    | nil => rfl
    | cons s names =>
      have hnil := nil_notMem_intercalate (List.cons_ne_nil s names) fun s hs =>
        ⟨(h s hs).ne_empty, (h s hs).slash_notMem⟩
      have hlast : (("/" ++ "/".intercalate (s :: names)).toList.getLast? == some '/') = false := by
        rw [String.toList_append, List.getLast?_append_of_ne_nil _ (ne_nil_of_nil_notMem hnil)]
        exact getLast?_of_nil_notMem hnil
      exact absurd (hslash.symm.trans hlast) nofun
  | @relative k names h hne =>
    have hnil := nil_notMem_intercalate hne fun s hs => by
      rcases List.mem_append.1 hs with hs | hs
      · rw [List.eq_of_mem_replicate hs]
        decide
      · exact ⟨(h s hs).ne_empty, (h s hs).slash_notMem⟩
    exact absurd (hslash.symm.trans (getLast?_of_nil_notMem hnil)) nofun

/-- The laws of the normal form. Normalizing again changes nothing; what comes out is written in one
way; two paths have the same normal form exactly if the same is left of them; and parts of a joined
path may be normalized first. -/
theorem normalize_lexical (p q : Path) :
    p.normalize.normalize = p.normalize ∧
    (p.normalize.Lexical ∧ (p.normalize.isDirLike = true → p.normalize = ⟨"/"⟩)) ∧
    (∃! r : Bool × List Component, p.ReducesTo r.1 r.2) ∧
    (p.normalize = q.normalize ↔
      ∃ absolute cs, p.ReducesTo absolute cs ∧ q.ReducesTo absolute cs) ∧
    (p.join q).normalize = (p.normalize.join q.normalize).normalize ∧
    (q.isAbsolute = true → p.join q = q) := by
  obtain ⟨cs, hcs⟩ := p.exists_reducesTo
  have hunique : ∃! r : Bool × List Component, p.ReducesTo r.1 r.2 := by
    refine ⟨(p.isAbsolute, cs), hcs, ?_⟩
    rintro ⟨absolute, ds⟩ hds
    obtain ⟨habsolute, heq⟩ := hds.unique hcs
    exact Prod.ext habsolute heq
  have hjoin : (p.join q).normalize = (p.normalize.join q.normalize).normalize :=
    normalize_join_congr (reduce_components_normalize p).symm (reduce_components_normalize q).symm
  exact ⟨normalize_normalize p, ⟨lexical_normalize p, (lexical_normalize p).eq_root⟩, hunique,
    normalize_eq_iff, hjoin, fun h => if_pos h⟩

/-- A path that goes up further than its names, and an absolute one that goes up at the root. -/
theorem normalize_lexical_climbing :
    let p : Path := ⟨"a/.././../b//"⟩
    let q : Path := ⟨"/c/../../d/."⟩
    p.normalize = ⟨"../b"⟩ ∧ q.normalize = ⟨"/d"⟩ ∧ q.isAbsolute = true ∧ p.join q = q ∧
      (Path.mk "//").isDirLike = true ∧ (Path.mk "//").normalize = ⟨"/"⟩ ∧
      (p.join q).normalize = (p.normalize.join q.normalize).normalize := by
  intro p q
  have hq : q.isAbsolute = true := by decide +kernel
  have hroot : (Path.mk "//").normalize.isDirLike = true := by decide +kernel
  obtain ⟨-, -, -, -, hjoin, habsolute⟩ := normalize_lexical p q
  obtain ⟨-, ⟨-, hslash⟩, -⟩ := normalize_lexical ⟨"//"⟩ q
  exact ⟨by decide +kernel, by decide +kernel, hq, habsolute hq, by decide +kernel, hslash hroot,
    hjoin⟩

end Path
end DocGraph
