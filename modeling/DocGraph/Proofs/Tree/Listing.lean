import DocGraph.Proofs.Pattern.Standalone
import DocGraph.Proofs.Tree.Walk

/-!
# DocGraph.Proofs.Tree.Listing

The listing of a tree against the matches of a pattern.

* `mem_listing_iff`     — what is there and matches is listed, except for files behind a last `**`.
* `listing_misses_file` — such a file is missed.
-/

namespace DocGraph
namespace Tree

open Glob

theorem ofNames_pieces (q : Path) : Path.ofNames (q.pieces.map String.ofList) = q := by
  have htexts : (q.pieces.map String.ofList).map String.toList = q.pieces := by
    rw [List.map_map]
    exact List.map_id'' (fun piece => String.toList_ofList) q.pieces
  have hne : q.pieces.map String.ofList ≠ [] := by
    rw [Ne, List.map_eq_nil_iff]
    exact List.splitOn_ne_nil _ _
  rw [Path.ofNames, if_neg hne, htexts, Path.ofPieces_pieces]

/-- Of the paths that are there and match, the listing for a pattern has all, unless the plain glob
ends with a piece `**`; then it has the directories. -/
theorem mem_listing_iff {t : Tree} {p : Pattern} {q : Path} (hbracket : '[' ∉ p.source.toList)
    (halone : p.Standalone) (hvisible : ∀ name ∈ q.pieces, Visible name)
    (hexists : t.exists? q = true) (hmatch : p.isMatch q.text = true) :
    ∃ found, t.listing p = .ok found ∧
      (q.text ∈ found ↔
        ((p.glob.toList.splitOn '/').getLast? = some ['*', '*'] → t.isDirectory q = true)) := by
  have hfits : FitsAlong (p.glob.toList.splitOn '/') q.pieces :=
    Pattern.fitsAlong_of_isMatch halone hbracket hmatch
  obtain ⟨cs, hread, hguides, hcs, hlast⟩ :=
    exists_read? hfits (Pattern.bracket_notMem_glob hbracket) hvisible
  refine ⟨_, by rw [listing, list?, hread]; rfl, ?_⟩
  rw [TextSet.mem_ofList, List.mem_map]
  constructor
  · rintro ⟨p', hp', htext⟩ hdeep
    obtain rfl : p' = q := congrArg Path.mk htext
    exact isDirectory_of_mem_walk (hlast.2 hdeep) hp'
  · intro hdirectory
    have hnames : ∀ s ∈ q.pieces.map String.ofList, Visible s.toList := by
      intro s hs
      obtain ⟨piece, hpiece, rfl⟩ := List.mem_map.1 hs
      rw [String.toList_ofList]
      exact hvisible piece hpiece
    rw [← ofNames_pieces q] at hexists hdirectory
    have hwalk : Path.ofNames ([] ++ q.pieces.map String.ofList) ∈ t.walk false cs ⟨"."⟩ :=
      mem_walk hguides hcs hnames ((exists?_ofNames_iff hnames).1 hexists)
        (fun hrec => hdirectory (hlast.1 hrec)) rfl
    rw [List.nil_append, ofNames_pieces] at hwalk
    exact ⟨q, hwalk, rfl⟩

/-- A file two directories down, and a pattern with a repeated name and `**` between slashes. -/
theorem mem_listing_iff_nested :
    let t := (((bare ["w"]).put ["w", "a"] .directory).put ["w", "a", "b"] .directory).put
      ["w", "a", "b", "a.c"] (.file ⟨#[]⟩)
    let p : Pattern := ⟨[.named "x", .literal "/", .globStar, .literal "/", .named "x", .literal ".",
      .single], by decide⟩
    let q : Path := ⟨"a/b/a.c"⟩
    (Pattern.compile "$\x7b*x\x7d/**/$\x7b*x\x7d.?" = .ok p ∧ Pattern.Whole p.source.toList) ∧
    ('[' ∉ p.source.toList ∧ p.Standalone ∧ (∀ name ∈ q.pieces, Visible name) ∧
      t.exists? q = true ∧ p.isMatch q.text = true) ∧
      ∃ found, t.listing p = .ok found ∧ q.text ∈ found := by
  intro t p q
  have hcompile : Pattern.compile "$\x7b*x\x7d/**/$\x7b*x\x7d.?" = .ok p := by decide +kernel
  have hwhole : Pattern.Whole p.source.toList := by decide +kernel
  have hbracket : '[' ∉ p.source.toList := by decide +kernel
  have halone : p.Standalone := Pattern.standalone_of_whole hcompile hwhole
  have hvisible : ∀ name ∈ q.pieces, Visible name := by decide +kernel
  have hexists : t.exists? q = true := by decide +kernel
  have hmatch : p.isMatch q.text = true := by decide +kernel
  obtain ⟨found, hfound, hmem⟩ := mem_listing_iff hbracket halone hvisible hexists hmatch
  exact ⟨⟨hcompile, hwhole⟩, ⟨hbracket, halone, hvisible, hexists, hmatch⟩, found, hfound,
    hmem.2 (by decide +kernel)⟩

/-- Behind a last `**` the listing misses a file, though the pattern matches it. -/
theorem listing_misses_file :
    ¬∀ (t : Tree) (source : String) (p : Pattern) (q : Path), Pattern.compile source = .ok p →
      '[' ∉ p.source.toList → p.Standalone → (∀ name ∈ q.pieces, Visible name) →
      t.exists? q = true → p.isMatch q.text = true →
      ∃ found, t.listing p = .ok found ∧ q.text ∈ found := by
  intro h
  let t := ((bare ["w"]).put ["w", "dir"] .directory).put ["w", "dir", "a.txt"] (.file ⟨#[]⟩)
  let p : Pattern := ⟨[.literal "dir/", .globStar], by decide⟩
  obtain ⟨found, hfound, hmem⟩ := h t "dir/**" p ⟨"dir/a.txt"⟩ (by decide +kernel) (by decide +kernel)
    (by decide) (by decide +kernel) (by decide +kernel) (by decide +kernel)
  have hnone : t.listing p = .ok ∅ := by decide +kernel
  rw [hnone] at hfound
  cases hfound
  exact absurd hmem List.not_mem_nil

end Tree
end DocGraph
