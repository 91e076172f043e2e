import DocGraph.Latex.Scan
import DocGraph.Proofs.Tree.Location

/-!
# DocGraph.Proofs.Latex.Scan

What the scan of a LaTeX document depends on.

* `follow`       — what one reference of a source adds to a scan.
* `Scan.Grows`   — files that were looked at stay so.
* `pending`, `unvisited` — the ways to write files that have yet to be looked at, of those given and
  of those in the tree.
* `scanFrom_stable` — with more levels than unvisited files, their number makes no difference:
  `longestChain` is no limit.
* `scanFrom_congr`  — a scan reads nothing but the files that it ends with.
* `scan_congr`      — so trees that agree on these have the same scan.
-/

namespace DocGraph
namespace Latex

/-- What a source adds to a scan by one of its references. `deeper` scans an included source. -/
def follow (deeper : Scan → Path → Path → Scan) (dir : Path) (scan : Scan) (r : Reference) : Scan :=
  match r.kind with
  | .bibliography => { scan with bib := scan.bib.insert (r.target dir) }
  | .graphics => { scan with implicit := scan.implicit.insert (r.target dir) }
  | .source =>
    deeper { scan with implicit := scan.implicit.insert (r.target dir) } (r.target dir)
      (r.directoryFrom dir)

/-- The scan after a look at a source. -/
def Scan.visit (scan : Scan) (path : Path) : Scan :=
  { scan with gendeps := scan.gendeps.insert path }

theorem scanFrom_succ (t : Tree) (n : Nat) (scan : Scan) (path dir : Path) :
    scanFrom t (n + 1) scan path dir =
      if scan.gendeps.contains path.components then scan
      else match t.read? path with
        | none => scan.visit path
        | some content =>
          (references (Text.decodeLossy content)).foldl (follow (scanFrom t n) dir)
            (scan.visit path) := rfl

/-! ## Growth -/

/-- What was looked at in the first scan was so in the second. -/
def Scan.Grows (s s' : Scan) : Prop := ∀ p ∈ s.gendeps, p ∈ s'.gendeps

theorem Scan.Grows.refl (s : Scan) : s.Grows s := fun _ hp => hp

theorem Scan.Grows.trans {s s' s'' : Scan} (h : s.Grows s') (h' : s'.Grows s'') : s.Grows s'' :=
  fun p hp => h' p (h p hp)

theorem Scan.grows_visit (s : Scan) (path : Path) : s.Grows (s.visit path) :=
  fun _ hp => SortedBy.mem_insert.2 (.inl hp)

theorem Scan.mem_visit {s : Scan} {path : Path}
    (h : s.gendeps.contains path.components = false) : path ∈ (s.visit path).gendeps := by
  refine SortedBy.mem_insert.2 (.inr ⟨rfl, fun b hb hkey => ?_⟩)
  rw [SortedBy.contains_iff.2 ⟨b, hb, hkey⟩] at h
  cases h

section

variable {deeper : Scan → Path → Path → Scan}

theorem follow_source {dir : Path} {s : Scan} {r : Reference} (h : r.kind = .source) :
    follow deeper dir s r = deeper { s with implicit := s.implicit.insert (r.target dir) }
      (r.target dir) (r.directoryFrom dir) := by
  rw [follow, h]

theorem follow_congr {deeper' : Scan → Path → Path → Scan} {dir : Path} {s : Scan} {r : Reference}
    (h : r.kind = .source → follow deeper dir s r = follow deeper' dir s r) :
    follow deeper dir s r = follow deeper' dir s r := by
  cases hkind : r.kind with
  | source => exact h hkind
  | graphics => rw [follow, follow, hkind]
  | bibliography => rw [follow, follow, hkind]

theorem grows_follow (h : ∀ (s : Scan) p d, s.Grows (deeper s p d)) (dir : Path) (s : Scan)
    (r : Reference) : s.Grows (follow deeper dir s r) := by
  unfold follow
  split
  · exact .refl s
  · exact .refl s
  · exact h { s with implicit := s.implicit.insert (r.target dir) } _ _

theorem grows_foldl {step : Scan → Reference → Scan} (h : ∀ (s : Scan) r, s.Grows (step s r))
    (l : List Reference) (s : Scan) : s.Grows (l.foldl step s) := by
  induction l generalizing s with
  | nil => exact .refl s
  | cons r l ih => exact (h s r).trans (ih (step s r))

/-- Steps that agree wherever the first run comes along make the same of a list. -/
theorem foldl_congr_of_grows {step step' : Scan → Reference → Scan} {l : List Reference} {s : Scan}
    (hgrows : ∀ (s : Scan) r, s.Grows (step s r))
    (h : ∀ mid r, s.Grows mid → (step mid r).Grows (l.foldl step s) →
      step mid r = step' mid r) :
    l.foldl step s = l.foldl step' s := by
  induction l generalizing s with
  | nil => rfl
  | cons r l ih =>
    have hstep : step s r = step' s r := h s r (.refl s) (grows_foldl hgrows l _)
    rw [List.foldl_cons, List.foldl_cons, ← hstep]
    exact ih fun mid q hmid => h mid q ((hgrows s r).trans hmid)

end

theorem grows_scanFrom (t : Tree) (n : Nat) (s : Scan) (path dir : Path) :
    s.Grows (scanFrom t n s path dir) := by
  induction n generalizing s path dir with
  | zero => exact .refl s
  | succ n ih =>
    rw [scanFrom_succ]
    split
    · exact .refl s
    · split
      · exact s.grows_visit path
      · exact (s.grows_visit path).trans (grows_foldl (grows_follow ih dir) _ _)

theorem visit_grows_scanFrom {t : Tree} {n : Nat} {s : Scan} {path dir : Path}
    (hnew : s.gendeps.contains path.components = false) :
    (s.visit path).Grows (scanFrom t (n + 1) s path dir) := by
  rw [scanFrom_succ, hnew, if_neg Bool.false_ne_true]
  split
  · exact .refl _
  · exact grows_foldl (grows_follow (grows_scanFrom t n) dir) _ _

/-! ## The number of levels -/

/-- The ways to write files of the tree that have yet to be looked at. -/
def unvisited (t : Tree) (s : Scan) : List (List Component) :=
  t.spellings.filter fun cs => !s.gendeps.contains cs

/-- Of the given ways to write files, those that have yet to be looked at. -/
def pending (known : List (List Component)) (s : Scan) : List (List Component) :=
  known.filter fun cs => !s.gendeps.contains cs

theorem pending_of_grows (known : List (List Component)) {s s' : Scan} (h : s.Grows s') :
    pending known s' = (pending known s).filter fun cs => !s'.gendeps.contains cs := by
  rw [pending, pending, List.filter_filter]
  refine List.filter_congr fun cs _ => ?_
  cases hs : s.gendeps.contains cs with
  | false => rw [Bool.not_false, Bool.and_true]
  | true =>
    obtain ⟨p, hp, rfl⟩ := SortedBy.contains_iff.1 hs
    rw [SortedBy.contains_iff.2 ⟨p, h p hp, rfl⟩]
    rfl

theorem length_pending_le (known : List (List Component)) {s s' : Scan} (h : s.Grows s') :
    (pending known s').length ≤ (pending known s).length := by
  rw [pending_of_grows known h]
  exact List.length_filter_le _ _

theorem length_pending_visit_lt {known : List (List Component)} {s : Scan} {path : Path}
    (hnew : s.gendeps.contains path.components = false) (hpath : path.components ∈ known) :
    (pending known (s.visit path)).length < (pending known s).length := by
  rw [pending_of_grows known (s.grows_visit path), List.length_filter_lt_length_iff_exists]
  refine ⟨path.components, List.mem_filter.2 ⟨hpath, by rw [hnew]; rfl⟩, ?_⟩
  rw [SortedBy.contains_iff.2 ⟨path, Scan.mem_visit hnew, rfl⟩]
  exact nofun

theorem length_unvisited_le (t : Tree) {s s' : Scan} (h : s.Grows s') :
    (unvisited t s').length ≤ (unvisited t s).length :=
  length_pending_le t.spellings h

theorem length_unvisited_visit_lt {t : Tree} {s : Scan} {path : Path}
    (hnew : s.gendeps.contains path.components = false) (hpath : path.components ∈ t.spellings) :
    (unvisited t (s.visit path)).length < (unvisited t s).length :=
  length_pending_visit_lt hnew hpath

/-- A source that can be read makes the same for two numbers of levels if everything that it
includes does. -/
theorem scanFrom_succ_congr {t : Tree} {m n : Nat} {s : Scan} {path : Path} (dir : Path)
    (h : s.gendeps.contains path.components = false → (t.read? path).isSome →
      ∀ mid : Scan, (s.visit path).Grows mid → ∀ p d : Path,
        scanFrom t m mid p.normalize d = scanFrom t n mid p.normalize d) :
    scanFrom t (m + 1) s path dir = scanFrom t (n + 1) s path dir := by
  rw [scanFrom_succ, scanFrom_succ]
  cases hnew : s.gendeps.contains path.components with
  | true => rw [if_pos rfl, if_pos rfl]
  | false =>
    rw [if_neg Bool.false_ne_true, if_neg Bool.false_ne_true]
    cases hread : t.read? path with
    | none => rfl
    | some content =>
      have hdeeper := h hnew (by rw [hread]; rfl)
      refine foldl_congr_of_grows (grows_follow (grows_scanFrom t m) dir) fun mid r hmid _ => ?_
      refine follow_congr fun hsource => ?_
      rw [follow_source hsource, follow_source hsource]
      exact hdeeper { mid with implicit := mid.implicit.insert (r.target dir) } hmid _ _

theorem scanFrom_stable (t : Tree) {m n : Nat} {s : Scan} (hm : (unvisited t s).length < m)
    (hn : (unvisited t s).length < n) (p dir : Path) :
    scanFrom t m s p.normalize dir = scanFrom t n s p.normalize dir := by
  induction m generalizing n s p dir with
  | zero => exact absurd hm (Nat.not_lt_zero _)
  | succ m ih =>
    cases n with
    | zero => exact absurd hn (Nat.not_lt_zero _)
    | succ n =>
      refine scanFrom_succ_congr dir fun hnew hread mid hmid q d => ?_
      -- the source itself is looked at before those it includes, so fewer are left for them
      have hvisit := length_unvisited_visit_lt hnew (Tree.mem_spellings_of_read? hread)
      have hmore := length_unvisited_le t hmid
      exact ih (by omega) (by omega) q d

/-- The document itself need not be in normal form. -/
theorem scan_eq {t : Tree} {n : Nat} (h : longestChain t ≤ n) (document : Path) :
    scan t document = scanFrom t n .empty document document.parentDir := by
  obtain ⟨k, rfl⟩ : ∃ k, n = k + 1 := ⟨n - 1, by rw [longestChain] at h; omega⟩
  rw [longestChain, ← t.length_spellings] at h
  rw [scan, longestChain, ← t.length_spellings]
  refine scanFrom_succ_congr _ fun _ _ mid _ p d => ?_
  have hmid : (unvisited t mid).length ≤ t.spellings.length := List.length_filter_le _ _
  exact scanFrom_stable t (by omega) (by omega) p d

/-! ## What is read -/

theorem scanFrom_congr {t t' : Tree} {n : Nat} {s : Scan} {path dir : Path}
    (h : ∀ p ∈ (scanFrom t n s path dir).gendeps, t.read? p = t'.read? p) :
    scanFrom t n s path dir = scanFrom t' n s path dir := by
  induction n generalizing s path dir with
  | zero => rfl
  | succ n ih =>
    cases hnew : s.gendeps.contains path.components with
    | true => rw [scanFrom_succ, scanFrom_succ, if_pos hnew, if_pos hnew]
    | false =>
      have hvisit : (s.visit path).Grows (scanFrom t (n + 1) s path dir) :=
        visit_grows_scanFrom hnew
      have hread : t.read? path = t'.read? path := h path (hvisit path (Scan.mem_visit hnew))
      rw [scanFrom_succ, hnew, if_neg Bool.false_ne_true] at h
      rw [scanFrom_succ, scanFrom_succ, hnew, if_neg Bool.false_ne_true, if_neg Bool.false_ne_true,
        ← hread]
      cases hcontent : t.read? path with
      | none => rfl
      | some content =>
        rw [hcontent] at h
        dsimp only at h
        refine foldl_congr_of_grows (grows_follow (grows_scanFrom t n) dir) fun mid r _ hend => ?_
        refine follow_congr fun hsource => ?_
        rw [follow_source hsource] at hend
        rw [follow_source hsource, follow_source hsource]
        exact ih fun p hp => h p (hend p hp)

/-- Trees that agree on the files that were looked at in the first have the same scan. -/
theorem scan_congr {t t' : Tree} {document : Path}
    (h : ∀ p ∈ (scan t document).gendeps, t.read? p = t'.read? p) :
    scan t document = scan t' document := by
  have hfirst := scan_eq (Nat.le_max_left (longestChain t) (longestChain t')) document
  have hsecond := scan_eq (Nat.le_max_right (longestChain t) (longestChain t')) document
  rw [hfirst] at h
  rw [hfirst, hsecond]
  exact scanFrom_congr h

end Latex
end DocGraph
