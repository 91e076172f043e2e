import DocGraph.Graph.Assembly
import DocGraph.Proofs.Path.Normal
import DocGraph.Proofs.Tree.Location

/-!
# DocGraph.Proofs.Tree.Directory

The directories above a path.

* `Tree.leads`         — whether pieces lead from a location to a directory.
* `isDirectory_congr`  — whether a path leads to a directory depends on its components only.
* `Tree.IsNearest`     — the lowest directory above a path.
* `nearestDirectory_cases` — what is found is the lowest directory above a path, or the working
  directory if there is none.
-/

namespace DocGraph
namespace Tree

/-- Whether pieces lead from a location to a directory. -/
def leads (t : Tree) (loc : Location) (ps : List (List Char)) : Bool :=
  (ps.foldlM t.enter? loc).any t.isDirectoryAt

variable {t : Tree} {loc : Location} {piece : List Char} {ps : List (List Char)} {p q : Path}

theorem leads_cons : t.leads loc (piece :: ps) = (t.enter? loc piece).any (t.leads · ps) := by
  rw [leads, List.foldlM_cons]
  cases t.enter? loc piece with
  | none => rfl
  | some loc' => rfl

theorem enter?_of_not_directory (h : t.isDirectoryAt loc = false) : t.enter? loc piece = none := by
  rw [enter?, h]
  rfl

theorem leads_of_not_directory (h : t.isDirectoryAt loc = false) : t.leads loc ps = false := by
  cases ps with
  | nil => exact h
  | cons piece ps =>
    rw [leads_cons, enter?_of_not_directory h]
    rfl

/-- In a directory, a filler leads nowhere else. -/
theorem leads_filler (h : Path.isFiller piece = true) :
    t.leads loc (piece :: ps) = t.leads loc ps := by
  cases hd : t.isDirectoryAt loc with
  | false => rw [leads_of_not_directory hd, leads_of_not_directory hd]
  | true =>
    have henter : t.enter? loc piece = some loc := by
      rw [enter?, hd, Path.isFiller_iff.1 h]
      rfl
    rw [leads_cons, henter]
    rfl

theorem leads_filter (t : Tree) (loc : Location) (ps : List (List Char)) :
    t.leads loc (ps.filter fun piece => !Path.isFiller piece) = t.leads loc ps := by
  induction ps generalizing loc with
  | nil => rfl
  | cons piece ps ih =>
    cases hf : Path.isFiller piece with
    | true => rw [List.filter_cons_of_neg (by simp [hf]), leads_filler hf, ih]
    | false =>
      rw [List.filter_cons_of_pos (by simp [hf]), leads_cons, leads_cons]
      simp only [ih]

theorem isDirectory_eq (t : Tree) (p : Path) :
    t.isDirectory p = (!p.text.isEmpty && t.admits p && t.leads (t.start p) p.pieces) := by
  rw [isDirectory, at?, locate?, leads]
  cases p.text.isEmpty with
  | true => rfl
  | false =>
    cases t.admits p with
    | false => rfl
    | true =>
      cases p.pieces.foldlM t.enter? (t.start p) with
      | none => rfl
      | some loc => rfl

/-- Whether a path leads to a directory depends on its components only. -/
theorem isDirectory_congr (t : Tree) (h : p.Same q) : t.isDirectory p = t.isDirectory q := by
  have hleads : ∀ loc, t.leads loc p.pieces = t.leads loc q.pieces := by
    intro loc
    rw [← leads_filter, ← leads_filter t loc q.pieces, p.filter_pieces, q.filter_pieces, h]
  have habsolute : p.isAbsolute = q.isAbsolute := by
    rw [Bool.eq_iff_iff, Path.isAbsolute_iff, Path.isAbsolute_iff, h]
  have hempty : p.text.isEmpty = q.text.isEmpty := by
    rw [Bool.eq_iff_iff, String.isEmpty_iff, String.isEmpty_iff, Path.text_eq_empty_iff,
      Path.text_eq_empty_iff, h]
  have hadmits : t.admits p = t.admits q := by rw [admits, admits, Path.size, Path.size, h]
  rw [isDirectory_eq, isDirectory_eq, hleads, start, start, habsolute, hempty, hadmits]

theorem isDirectory_of_components_eq_nil (h : p.components = []) : t.isDirectory p = false := by
  rw [t.isDirectory_congr (q := ⟨""⟩) h]
  rfl

theorem exists?_of_isDirectory (h : t.isDirectory p = true) : t.exists? p = true := by
  rw [isDirectory, at?] at h
  rw [exists?]
  cases hl : t.locate? p with
  | none =>
    rw [hl] at h
    cases h
  | some loc => rfl

theorem isDirectory_here (t : Tree) : t.isDirectory ⟨"."⟩ = true := by
  rw [isDirectory_eq, t.admits_here]
  change t.leads t.workdir [['.']] = true
  rw [leads_filler rfl]
  exact t.isDirectoryAt_workdir

/-! ## The nearest directory -/

/-- `d` is the lowest directory above `p`. -/
structure IsNearest (t : Tree) (d p : Path) : Prop where
  isDirectory : t.isDirectory d = true
  above : d.Above p
  between : ∀ e, d.Above e → e.Above p → t.isDirectory e = false

/-- The first directory on the way up, if there is one, is the lowest of all that are above. -/
theorem isNearest_of_find? (t : Tree) {n : Nat} {p : Path} (hn : p.components.length ≤ n) :
    (∃ d, ((Path.ancestors.go n p).drop 1).find? (fun d => !d.text.isEmpty && t.isDirectory d) =
        some d ∧ t.IsNearest d p) ∨
      ((Path.ancestors.go n p).drop 1).find? (fun d => !d.text.isEmpty && t.isDirectory d) = none ∧
        ∀ e : Path, e.Above p → t.isDirectory e = false := by
  induction n generalizing p with
  | zero =>
    refine .inr ⟨rfl, ?_⟩
    intro e he
    have hp := List.length_eq_zero_iff.1 (Nat.le_zero.1 hn)
    exact isDirectory_of_components_eq_nil (List.prefix_nil.1 (hp ▸ he.1))
  | succ n ih =>
    cases hparent : p.parent? with
    | none =>
      rw [Path.ancestors.go, hparent]
      exact .inr ⟨rfl, fun e he =>
        isDirectory_of_components_eq_nil (Path.components_of_above hparent he)⟩
    | some q =>
      -- the parent has one component less, so the bound lasts for the whole way up
      have hlen : q.components.length ≤ n := by
        obtain ⟨c, hc⟩ := Path.components_of_parent? hparent
        rw [hc, List.length_append, List.length_singleton] at hn
        omega
      have hgo : (Path.ancestors.go (n + 1) p).drop 1 =
          q :: (Path.ancestors.go n q).drop 1 := by
        rw [Path.ancestors.go, hparent, ← Path.ancestors_go_eq]
        rfl
      rw [hgo]
      cases hq : t.isDirectory q with
      | true =>
        have hpred : (!q.text.isEmpty && t.isDirectory q) = true := by
          rw [isDirectory_eq] at hq ⊢
          simp_all
        refine .inl ⟨q, List.find?_cons_of_pos hpred, hq, Path.above_of_parent? hparent, ?_⟩
        intro e hqe hep
        rcases (Path.above_iff_of_parent? hparent).1 hep with hsame | habove
        · exact absurd hsame.symm hqe.2
        · exact absurd habove hqe.asymm
      | false =>
        rw [List.find?_cons_of_neg (by simp [hq])]
        have habove : ∀ e : Path, e.Above p → t.isDirectory e = false ∨ e.Above q := by
          intro e he
          rcases (Path.above_iff_of_parent? hparent).1 he with hsame | he
          · exact .inl ((t.isDirectory_congr hsame).trans hq)
          · exact .inr he
        rcases ih hlen with ⟨d, hfind, hd⟩ | ⟨hfind, hnone⟩
        · refine .inl ⟨d, hfind, hd.isDirectory, (Path.above_iff_of_parent? hparent).2
            (.inr hd.above), ?_⟩
          intro e hde hep
          rcases habove e hep with he | he
          · exact he
          · exact hd.between e hde he
        · refine .inr ⟨hfind, ?_⟩
          intro e hep
          rcases habove e hep with he | he
          · exact he
          · exact hnone e he

/-- What is found is the lowest directory above a path, or the working directory if there is
none. -/
theorem nearestDirectory_cases (t : Tree) (p : Path) :
    t.IsNearest (Assembly.nearestDirectory t p) p ∨
      Assembly.nearestDirectory t p = ⟨"."⟩ ∧ ∀ e : Path, e.Above p → t.isDirectory e = false := by
  rw [Assembly.nearestDirectory, Path.ancestors]
  rcases isNearest_of_find? t p.components_length_le with ⟨d, hfind, hd⟩ | ⟨hfind, hnone⟩
  · rw [hfind]
    exact .inl hd
  · rw [hfind]
    exact .inr ⟨rfl, hnone⟩

end Tree
end DocGraph
