import DocGraph.Proofs.Path.Ancestors
import DocGraph.Tree.Listing
import Mathlib.Data.List.Chain

/-!
# DocGraph.Proofs.Glob.Fitting

What the components of a glob lead along.

* `Glob.Fits`            — a piece of a glob fits a name: `?` stands for a character, `*` for any
  number of them, and everything else for itself.
* `read?_mergeStars`     — a piece without brackets can be read, character by character.
* `accept_of_fits`       — its items accept the names that it fits, unless they are hidden.
* `Glob.FitsAlong`, `Glob.Guides` — pieces and components along names, where `**` is for one or
  more of them.
* `exists_read?`         — a glob whose pieces fit names can be read, and its components lead along
  them.
-/

namespace DocGraph
namespace Glob

open GlobItem GlobComponent

/-- A piece of a glob fits a name. -/
inductive Fits : List Char → List Char → Prop where
  | nil : Fits [] []
  | char {c : Char} {piece name : List Char} (h : Fits piece name) : Fits (c :: piece) (c :: name)
  | single {c : Char} {piece name : List Char} (h : Fits piece name) :
      Fits ('?' :: piece) (c :: name)
  | star {piece name : List Char} (run : List Char) (h : Fits piece name) :
      Fits ('*' :: piece) (run ++ name)

variable {piece name : List Char}

theorem fits_star_iff : Fits ('*' :: piece) name ↔ ∃ run rest, name = run ++ rest ∧ Fits piece rest := by
  constructor
  · intro h
    cases h with
    | @char _ _ rest h => exact ⟨['*'], rest, rfl, h⟩
    | @star _ rest run h => exact ⟨run, rest, rfl, h⟩
  · rintro ⟨run, rest, rfl, h⟩
    exact .star run h

/-- One star fits what several do. -/
theorem fits_mergeStars (h : Fits piece name) : Fits (mergeStars piece) name := by
  fun_induction mergeStars piece generalizing name with
  | case1 piece ih =>
    obtain ⟨run, rest, rfl, hrest⟩ := fits_star_iff.1 h
    obtain ⟨run', rest', rfl, hrest'⟩ := fits_star_iff.1 hrest
    rw [← List.append_assoc]
    exact ih (.star _ hrest')
  | case2 c piece _ ih =>
    cases h with
    | char h => exact .char (ih h)
    | single h => exact .single (ih h)
    | star run h => exact .star run (ih h)
  | case3 => exact h

/-! ## Items -/

/-- The item of a character outside of classes. -/
def item (c : Char) : GlobItem :=
  if c = '?' then .single else if c = '*' then .star else .char c

theorem head?_mergeStars (piece : List Char) : (mergeStars piece).head? = piece.head? := by
  fun_induction mergeStars piece with
  | case1 piece ih => exact ih
  | case2 => rfl
  | case3 => rfl

theorem read?_cons {c : Char} {is : List GlobItem} (hbracket : c ≠ '[')
    (hstars : c = '*' → piece.head? ≠ some '*') (h : GlobItem.read? piece = some is) :
    GlobItem.read? (c :: piece) = some (item c :: is) := by
  by_cases hsingle : c = '?'
  · rw [hsingle, GlobItem.read?, h]
    rfl
  · by_cases hstar : c = '*'
    · subst hstar
      rw [GlobItem.read?, h]
      · rfl
      · rintro rest rfl
        exact hstars rfl rfl
    · rw [GlobItem.read?, h, item, if_neg hsingle, if_neg hstar]
      · rfl
      all_goals simp_all

/-- A piece without brackets can be read, character by character. -/
theorem read?_mergeStars (h : '[' ∉ piece) :
    GlobItem.read? (mergeStars piece) = some ((mergeStars piece).map item) := by
  fun_induction mergeStars piece with
  | case1 piece ih => exact ih fun hmem => h (List.mem_cons_of_mem _ hmem)
  | case2 c piece hstars ih =>
    rw [List.mem_cons, not_or] at h
    refine read?_cons (Ne.symm h.1) ?_ (ih h.2)
    rw [head?_mergeStars]
    rintro rfl hhead
    obtain ⟨rest, rfl⟩ := List.head?_eq_some_iff.1 hhead
    exact hstars rest rfl rfl
  | case3 => rw [GlobItem.read?]; rfl

theorem mem_starRests {first : Bool} {run rest : List Char} (hne : run ≠ []) (hslash : '/' ∉ run)
    (hdot : first = true → run.head? ≠ some '.') : rest ∈ starRests first (run ++ rest) := by
  induction run generalizing first with
  | nil => exact absurd rfl hne
  | cons c run ih =>
    rw [List.mem_cons, not_or] at hslash
    have hc : ¬(c = '/' ∨ (first && c == '.') = true) := by
      rintro (rfl | hc)
      · exact hslash.1 rfl
      · obtain ⟨hfirst, rfl⟩ := by simpa using hc
        exact hdot hfirst rfl
    rw [List.cons_append, starRests, if_neg (by simpa using hc)]
    cases run with
    | nil => exact List.mem_cons_self
    | cons d run => exact List.mem_cons_of_mem _ (ih (List.cons_ne_nil _ _) hslash.2 nofun)

theorem accept_star {first : Bool} {is : List GlobItem} {run rest : List Char}
    (hslash : '/' ∉ run) (hdot : first = true → (run ++ rest).head? ≠ some '.')
    (h : ∀ b, (b = true → rest.head? ≠ some '.') → accept is b rest = true) :
    accept (.star :: is) first (run ++ rest) = true := by
  rw [accept, Bool.or_eq_true]
  cases run with
  | nil => exact .inl (h first hdot)
  | cons c run =>
    refine .inr (List.any_eq_true.2 ⟨rest, mem_starRests (List.cons_ne_nil _ _) hslash hdot, ?_⟩)
    exact h false nofun

theorem accept_cons {first : Bool} {i : GlobItem} {c : Char} {is : List GlobItem}
    {rest : List Char} (hstar : i ≠ .star) (hslash : c ≠ '/') (htakes : i.takes first c = true)
    (h : accept is false rest = true) : accept (i :: is) first (c :: rest) = true := by
  rw [accept, htakes, beq_false_of_ne hslash, h]
  · rfl
  · exact hstar

theorem takes_single {first : Bool} {c : Char} (hslash : c ≠ '/') (hdot : first = true → c ≠ '.') :
    takes first c .single = true := by
  rw [takes, Bool.and_eq_true, bne_iff_ne, Bool.not_eq_true', Bool.and_eq_false_iff]
  exact ⟨hslash, (Bool.eq_false_or_eq_true first).symm.imp id fun hf => by simpa using hdot hf⟩

/-- Items accept the names that their piece fits, unless they are hidden. -/
theorem accept_of_fits {first : Bool} (h : Fits piece name) (hslash : '/' ∉ name)
    (hdot : first = true → name.head? ≠ some '.') : accept (piece.map item) first name = true := by
  induction h generalizing first with
  | nil => rfl
  | @char c piece name h ih =>
    rw [List.mem_cons, not_or] at hslash
    have hc : c ≠ '/' := Ne.symm hslash.1
    have hfirst : first = true → c ≠ '.' := fun hf => by simpa using hdot hf
    rw [List.map_cons, item]
    split
    · exact accept_cons nofun hc (takes_single hc hfirst) (ih hslash.2 nofun)
    · split
      · have hrun : '/' ∉ [c] := by simpa using hslash.1
        exact accept_star hrun (fun hf => by simpa using hdot hf) fun b => ih hslash.2
      · exact accept_cons nofun hc (beq_self_eq_true c) (ih hslash.2 nofun)
  | @single c piece name h ih =>
    rw [List.mem_cons, not_or] at hslash
    have hc : c ≠ '/' := Ne.symm hslash.1
    exact accept_cons nofun hc (takes_single hc fun hf => by simpa using hdot hf) (ih hslash.2 nofun)
  | @star piece name run h ih =>
    rw [List.mem_append, not_or] at hslash
    exact accept_star hslash.1 hdot fun b hb => ih hslash.2 hb

theorem eq_of_plain? {first : Bool} {is : List GlobItem} {text : List Char}
    (h : plain? is = some text) (haccept : accept is first name = true) : text = name := by
  induction is generalizing first text name with
  | nil =>
    rw [accept, List.isEmpty_iff] at haccept
    rw [haccept]
    exact (Option.some.inj h).symm
  | cons i is ih =>
    cases i with
    | char c =>
      obtain ⟨text, htext, rfl⟩ := Option.map_eq_some_iff.1 h
      cases name with
      | nil => cases haccept
      | cons d name =>
        obtain ⟨htakes, hrest⟩ := Bool.and_eq_true_iff.1 haccept
        rw [ih htext hrest, show c = d from beq_iff_eq.1 htakes]
    | single => cases h
    | star => cases h
    | charClass => cases h

/-! ## Components -/

/-- A name that listings of directories show. -/
structure Visible (name : List Char) : Prop where
  nonempty : name ≠ []
  whole : '/' ∉ name
  shown : name.head? ≠ some '.'

instance (name : List Char) : Decidable (Visible name) :=
  decidable_of_iff (name ≠ [] ∧ '/' ∉ name ∧ name.head? ≠ some '.')
    ⟨fun h => ⟨h.1, h.2.1, h.2.2⟩, fun h => ⟨h.nonempty, h.whole, h.shown⟩⟩

/-- A piece without brackets is a component. It is `**` only as a whole, and accepts else what the
piece fits. -/
theorem exists_component (h : '[' ∉ piece) : ∃ c, GlobComponent.read? (simplify piece) = some c ∧
    (c = .recursive ↔ piece = ['*', '*']) ∧
    (c ≠ .recursive → ∀ name : List Char, Fits piece name → Visible name →
      c.accepts (String.ofList name) = true) := by
  rw [simplify]
  split
  · next hpiece =>
    rw [hpiece]
    exact ⟨.recursive, rfl, iff_of_true rfl rfl, fun hne => absurd rfl hne⟩
  · next hpiece =>
    have hread := read?_mergeStars h
    have hne : mergeStars piece ≠ ['*', '*'] := by
      intro hstars
      rw [hstars, GlobItem.read?] at hread
      cases hread
    have haccept (name : List Char) (hfits : Fits piece name) (hname : Visible name) :
        accept ((mergeStars piece).map item) true name = true :=
      accept_of_fits (fits_mergeStars hfits) hname.whole fun _ => hname.shown
    rw [GlobComponent.read?, if_neg hne, hread]
    refine ⟨_, rfl, ?_⟩
    dsimp only
    split
    · next text htext =>
      refine ⟨iff_of_false (by simp) hpiece, fun _ name hfits hname => ?_⟩
      rw [GlobComponent.accepts, eq_of_plain? htext (haccept name hfits hname)]
      exact beq_self_eq_true _
    · refine ⟨iff_of_false (by simp) hpiece, fun _ name hfits hname => ?_⟩
      rw [GlobComponent.accepts, String.toList_ofList]
      exact haccept name hfits hname

/-! ## Lists of components -/

/-- Pieces of a glob fit names one by one, but `**` fits one or more of them. -/
inductive FitsAlong : List (List Char) → List (List Char) → Prop where
  | nil : FitsAlong [] []
  | cons {piece name : List Char} {pieces names : List (List Char)} (h : Fits piece name)
      (hr : FitsAlong pieces names) : FitsAlong (piece :: pieces) (name :: names)
  | deep {pieces names : List (List Char)} (run : List (List Char)) (hne : run ≠ [])
      (hr : FitsAlong pieces names) : FitsAlong (['*', '*'] :: pieces) (run ++ names)

/-- Components lead along names one by one, but `**` leads along one or more of them. -/
inductive Guides : List GlobComponent → List String → Prop where
  | nil : Guides [] []
  | cons {c : GlobComponent} {n : String} {cs : List GlobComponent} {names : List String}
      (h : c.accepts n = true) (hr : Guides cs names) : Guides (c :: cs) (n :: names)
  | deep {cs : List GlobComponent} {names : List String} (run : List String) (hne : run ≠ [])
      (hr : Guides cs names) : Guides (.recursive :: cs) (run ++ names)

theorem exists_guides {pieces names : List (List Char)} (h : FitsAlong pieces names)
    (hbracket : ∀ piece ∈ pieces, '[' ∉ piece)
    (hnames : ∀ name ∈ names, Visible name) :
    ∃ cs, pieces.mapM (fun piece => GlobComponent.read? (simplify piece)) = some cs ∧
      Guides cs (names.map String.ofList) := by
  induction h with
  | nil => exact ⟨[], rfl, .nil⟩
  | @cons piece name pieces names hfits _ ih =>
    obtain ⟨cs, hcs, hguides⟩ := ih (fun p hp => hbracket p (List.mem_cons_of_mem _ hp))
      fun n hn => hnames n (List.mem_cons_of_mem _ hn)
    obtain ⟨c, hc, hrecursive, haccepts⟩ := exists_component (hbracket piece List.mem_cons_self)
    refine ⟨c :: cs, by rw [List.mapM_cons, hc, hcs]; rfl, ?_⟩
    by_cases hdeep : c = .recursive
    · rw [hdeep]
      exact .deep [String.ofList name] (List.cons_ne_nil _ _) hguides
    · exact .cons (haccepts hdeep name hfits (hnames name List.mem_cons_self)) hguides
  | @deep pieces names run hne _ ih =>
    obtain ⟨cs, hcs, hguides⟩ := ih (fun p hp => hbracket p (List.mem_cons_of_mem _ hp))
      fun n hn => hnames n (List.mem_append_right _ hn)
    refine ⟨.recursive :: cs, ?_, ?_⟩
    · rw [List.mapM_cons, hcs]
      rfl
    · rw [List.map_append]
      exact .deep _ (by simpa using hne) hguides

theorem guides_collapse {cs : List GlobComponent} {names : List String} (h : Guides cs names) :
    Guides (collapse cs) names := by
  fun_induction collapse cs generalizing names with
  | case1 cs ih =>
    cases h with
    | cons h _ => cases h
    | deep run hne hr =>
      cases hr with
      | cons h _ => cases h
      | deep run' _ hr =>
        rw [← List.append_assoc]
        exact ih (.deep _ (by simp [hne]) hr)
  | case2 c cs _ ih =>
    cases h with
    | cons h hr => exact .cons h (ih hr)
    | deep run hne hr => exact .deep run hne (ih hr)
  | case3 => exact h

theorem head?_collapse (cs : List GlobComponent) : (collapse cs).head? = cs.head? := by
  fun_induction collapse cs with
  | case1 cs ih => exact ih
  | case2 => rfl
  | case3 => rfl

theorem getLast?_collapse (cs : List GlobComponent) : (collapse cs).getLast? = cs.getLast? := by
  fun_induction collapse cs with
  | case1 cs ih => rw [ih, List.getLast?_cons_cons]
  | case2 c cs _ ih => rw [List.getLast?_cons, List.getLast?_cons, ih]
  | case3 => rfl

theorem isChain_collapse (cs : List GlobComponent) :
    (collapse cs).IsChain fun a b => a = .recursive → b ≠ .recursive := by
  fun_induction collapse cs with
  | case1 cs ih => exact ih
  | case2 c cs hcs ih =>
    refine List.isChain_cons.2 ⟨fun b hb => ?_, ih⟩
    rw [head?_collapse] at hb
    rintro rfl rfl
    obtain ⟨rest, rfl⟩ := List.head?_eq_some_iff.1 hb
    exact hcs rest rfl rfl
  | case3 => exact .nil

theorem getLast?_of_mapM {α β : Type} {f : α → Option β} {as : List α} {bs : List β}
    (h : as.mapM f = some bs) : bs.getLast? = as.getLast?.bind f := by
  rcases as.eq_nil_or_concat' with rfl | ⟨front, a, rfl⟩
  · cases h
    rfl
  · rw [List.mapM_append, List.mapM_cons, List.mapM_nil] at h
    obtain ⟨cs, -, h⟩ := Option.bind_eq_some_iff.1 h
    obtain ⟨last, hlast, hbs⟩ := Option.bind_eq_some_iff.1 h
    obtain ⟨b, hb, hsingle⟩ := Option.bind_eq_some_iff.1 hlast
    cases hsingle
    cases hbs
    rw [List.getLast?_concat, List.getLast?_concat]
    exact hb.symm

/-! ## Globs -/

theorem nil_notMem_of_fitsAlong {pieces names : List (List Char)} (h : FitsAlong pieces names)
    (hnames : ∀ name ∈ names, Visible name) : [] ∉ pieces := by
  induction h with
  | nil => exact List.not_mem_nil
  | @cons piece name pieces names hfits _ ih =>
    rw [List.mem_cons, not_or]
    refine ⟨?_, ih fun n hn => hnames n (List.mem_cons_of_mem _ hn)⟩
    rintro rfl
    cases hfits
    exact (hnames [] List.mem_cons_self).nonempty rfl
  | deep run hne _ ih =>
    rw [List.mem_cons, not_or]
    exact ⟨nofun, ih fun n hn => hnames n (List.mem_append_right _ hn)⟩

/-- Without empty pieces, the components of a glob are those of its pieces. -/
theorem read?_eq {text : String} {cs : List GlobComponent} (h : [] ∉ text.toList.splitOn '/')
    (hcs : (text.toList.splitOn '/').mapM (fun p => GlobComponent.read? (simplify p)) = some cs) :
    Glob.read? text = some ⟨false, collapse cs, false⟩ := by
  have hempty : text.toList.isEmpty = false := by
    rw [← Bool.not_eq_true, List.isEmpty_iff]
    exact Path.ne_nil_of_nil_notMem h
  have hpieces : pieces text.toList = text.toList.splitOn '/' :=
    if_neg fun hlast => h (List.mem_of_getLast? hlast)
  rw [Glob.read?]
  simp only [Path.head?_of_nil_notMem h, Path.getLast?_of_nil_notMem h, hempty, hpieces,
    Bool.false_eq_true, if_false, hcs]
  rfl

/-- A glob whose pieces fit names can be read, and its components lead along them. -/
theorem exists_read? {text : String} {names : List (List Char)}
    (h : FitsAlong (text.toList.splitOn '/') names) (hbracket : '[' ∉ text.toList)
    (hnames : ∀ name ∈ names, Visible name) :
    ∃ cs, Glob.read? text = some ⟨false, cs, false⟩ ∧ Guides cs (names.map String.ofList) ∧
      cs.IsChain (fun a b => a = .recursive → b ≠ .recursive) ∧
      (cs.getLast? = some .recursive ↔ (text.toList.splitOn '/').getLast? = some ['*', '*']) := by
  have hpieces (piece) (hpiece : piece ∈ text.toList.splitOn '/') : '[' ∉ piece :=
    fun hmem => hbracket (Path.mem_of_mem_splitOn hpiece hmem)
  obtain ⟨cs, hcs, hguides⟩ := exists_guides h hpieces hnames
  refine ⟨collapse cs, read?_eq (nil_notMem_of_fitsAlong h hnames) hcs, guides_collapse hguides,
    isChain_collapse cs, ?_⟩
  rw [getLast?_collapse, getLast?_of_mapM hcs]
  cases hlast : (text.toList.splitOn '/').getLast? with
  | none => exact iff_of_false nofun nofun
  | some piece =>
    obtain ⟨c, hc, hrecursive, -⟩ := exists_component (hpieces piece (List.mem_of_getLast? hlast))
    rw [Option.bind_some, hc, Option.some_inj, Option.some_inj]
    exact hrecursive

end Glob
end DocGraph
