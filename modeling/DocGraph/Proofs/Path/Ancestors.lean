import DocGraph.Path.Basic
import Mathlib.Data.List.DropRight

/-!
# DocGraph.Proofs.Path.Ancestors

The paths above a path.

* `components_cases`      — a path is empty, absolute or relative, as its first component says.
* `Path.Above`            — the components of one path start those of another one, which has more.
* `pieces_ofPieces`       — pieces without a slash come back from the text that they make.
* `components_of_parent?` — a parent has all components but the last.
* `components_of_parent?_eq_none` — only the root and the empty path have no parent.
* `above_iff_of_parent?`  — above a path are its parent and what is above that.
* `components_of_above`   — nothing but the empty path is above a path without parent.
* `components_length_le`  — a path has no more components than characters.
-/

namespace DocGraph

theorem Component.ne_root_of_ofPiece? {piece : List Char} {c : Component}
    (h : ofPiece? piece = some c) : c ≠ .root := by
  rintro rfl
  unfold ofPiece? at h
  split at h
  all_goals cases h

namespace Path

/-- The components of `d` start those of `p`, which has more. -/
def Above (d p : Path) : Prop := d.components <+: p.components ∧ ¬d.Same p

/-! ## Pieces -/

theorem splitOn_slash (cs : List Char) : ('/' :: cs).splitOn '/' = [] :: cs.splitOn '/' :=
  List.splitOn_append_cons_self [] cs

/-- A character other than a slash belongs to the first piece. -/
theorem exists_splitOn_cons {c : Char} (hc : c ≠ '/') (cs : List Char) : ∃ first rest,
    cs.splitOn '/' = first :: rest ∧ (c :: cs).splitOn '/' = (c :: first) :: rest := by
  obtain ⟨first, rest, hsplit⟩ := List.exists_cons_of_ne_nil (List.splitOn_ne_nil '/' cs)
  refine ⟨first, rest, hsplit, ?_⟩
  rw [List.splitOn, List.splitOnP_cons_eq_if_modifyHead, if_neg (by simpa using hc), ← List.splitOn,
    hsplit, List.modifyHead_cons]

theorem mem_splitOn_cons {c : Char} {cs piece : List Char} (h : piece ∈ (c :: cs).splitOn '/') :
    piece = [] ∨ piece ∈ cs.splitOn '/' ∨ c ≠ '/' ∧ ∃ first ∈ cs.splitOn '/', piece = c :: first := by
  by_cases hc : c = '/'
  · rw [hc, splitOn_slash] at h
    exact (List.mem_cons.1 h).imp_right .inl
  · obtain ⟨first, rest, hsplit, hcons⟩ := exists_splitOn_cons hc cs
    rw [hcons] at h
    rw [hsplit]
    rcases List.mem_cons.1 h with rfl | h
    · exact .inr (.inr ⟨hc, first, List.mem_cons_self, rfl⟩)
    · exact .inr (.inl (List.mem_cons_of_mem _ h))

theorem slash_notMem_of_mem_splitOn {cs piece : List Char} (h : piece ∈ cs.splitOn '/') :
    '/' ∉ piece := by
  induction cs generalizing piece with
  | nil =>
    rw [List.splitOn_nil, List.mem_singleton] at h
    rw [h]
    exact List.not_mem_nil
  | cons c cs ih =>
    rcases mem_splitOn_cons h with rfl | h | ⟨hc, first, hfirst, rfl⟩
    · exact List.not_mem_nil
    · exact ih h
    · rw [List.mem_cons, not_or]
      exact ⟨Ne.symm hc, ih hfirst⟩

/-- Every character of a piece stands in the text. -/
theorem mem_of_mem_splitOn {cs piece : List Char} {c : Char} (h : piece ∈ cs.splitOn '/')
    (hc : c ∈ piece) : c ∈ cs := by
  induction cs generalizing piece with
  | nil =>
    rw [List.splitOn_nil, List.mem_singleton] at h
    rwa [h] at hc
  | cons d cs ih =>
    rcases mem_splitOn_cons h with rfl | h | ⟨-, first, hfirst, rfl⟩
    · cases hc
    · exact List.mem_cons_of_mem _ (ih h hc)
    · rcases List.mem_cons.1 hc with rfl | hc
      · exact List.mem_cons_self
      · exact List.mem_cons_of_mem _ (ih hfirst hc)

section

variable {cs : List Char} (h : [] ∉ cs.splitOn '/')
include h

/-- Without empty pieces, no slash stands at the start. -/
theorem head?_of_nil_notMem : (cs.head? == some '/') = false := by
  refine beq_false_of_ne fun hhead => ?_
  obtain ⟨rest, hrest⟩ := List.head?_eq_some_iff.1 hhead
  rw [hrest, splitOn_slash] at h
  exact h List.mem_cons_self

theorem getLast?_of_nil_notMem : (cs.getLast? == some '/') = false := by
  refine beq_false_of_ne fun hlast => ?_
  obtain ⟨front, hfront⟩ := List.getLast?_eq_some_iff.1 hlast
  rw [hfront, List.splitOn_append_cons_self] at h
  exact h (List.mem_append_right _ List.mem_cons_self)

theorem ne_nil_of_nil_notMem : cs ≠ [] := by
  rintro rfl
  exact h List.mem_cons_self

end

theorem eq_of_pieces_eq {p q : Path} (h : p.pieces = q.pieces) : p = q := by
  rw [← p.ofPieces_pieces, h, q.ofPieces_pieces]

theorem slash_notMem_of_mem_pieces {p : Path} {piece : List Char} (h : piece ∈ p.pieces) :
    '/' ∉ piece := slash_notMem_of_mem_splitOn h

theorem exists_pieces (p : Path) : ∃ first rest, p.pieces = first :: rest :=
  List.exists_cons_of_ne_nil (List.splitOn_ne_nil _ _)

theorem pieces_ofPieces {ps : List (List Char)} (hne : ps ≠ []) (h : ∀ piece ∈ ps, '/' ∉ piece) :
    (ofPieces ps).pieces = ps := by
  rw [pieces, ofPieces, String.toList_ofList, List.splitOn_intercalate '/' h hne]

theorem isFiller_iff {piece : List Char} :
    isFiller piece = true ↔ Component.ofPiece? piece = none := by
  unfold Component.ofPiece?
  split
  · simp [isFiller]
  · simp [isFiller]
  · simp [isFiller]
  · next hempty hdot _ =>
    simpa [isFiller] using ⟨hempty, hdot⟩

/-- The first piece, if there is something in it, is a component of its own. -/
theorem exists_componentsOf_cons {first : List Char} (h : first ≠ []) :
    ∃ c, c ≠ .root ∧
      ∀ rest, componentsOf (first :: rest) = c :: rest.filterMap Component.ofPiece? := by
  by_cases hdot : first = ['.']
  · exact ⟨.here, nofun, fun rest => by rw [hdot]; rfl⟩
  · obtain ⟨c, hc⟩ : ∃ c, Component.ofPiece? first = some c := by
      rw [← Option.isSome_iff_exists, ← Option.ne_none_iff_isSome]
      intro hnone
      have hfiller := isFiller_iff.2 hnone
      simp [isFiller, h, hdot] at hfiller
    refine ⟨c, Component.ne_root_of_ofPiece? hc, fun rest => ?_⟩
    rw [componentsOf, List.filterMap_cons_some hc]
    · intro _ _ he
      exact h (List.cons.inj he).1
    · intro _ he
      exact hdot (List.cons.inj he).1

theorem componentsOf_nil_cons {rest : List (List Char)} (h : rest ≠ []) :
    componentsOf ([] :: rest) = .root :: rest.filterMap Component.ofPiece? := by
  obtain ⟨r, rs, rfl⟩ := List.exists_cons_of_ne_nil h
  rfl

/-- A path is empty, starts at the root, or starts with another component. -/
theorem components_cases (p : Path) :
    (p.text = "" ∧ p.components = []) ∨
    (p.text ≠ "" ∧ p.isAbsolute = true ∧ ∃ cs, p.components = .root :: cs) ∨
    (p.text ≠ "" ∧ p.isAbsolute = false ∧ ∃ c cs, c ≠ .root ∧ p.components = c :: cs) := by
  cases htext : p.text.toList with
  | nil =>
    refine .inl ⟨String.toList_eq_nil_iff.1 htext, ?_⟩
    rw [components, pieces, htext]
    rfl
  | cons c cs =>
    have hne : p.text ≠ "" := by
      intro hempty
      rw [hempty] at htext
      cases htext
    by_cases hc : c = '/'
    · have hpieces : p.pieces = [] :: cs.splitOn '/' := by rw [pieces, htext, hc, splitOn_slash]
      refine .inr (.inl ⟨hne, ?_, ?_⟩)
      · rw [isAbsolute, htext, hc]
        rfl
      · rw [components, hpieces, componentsOf_nil_cons (List.splitOn_ne_nil _ _)]
        exact ⟨_, rfl⟩
    · obtain ⟨first, rest, -, hsplit⟩ := exists_splitOn_cons hc cs
      have hpieces : p.pieces = (c :: first) :: rest := by rw [pieces, htext, hsplit]
      obtain ⟨x, hx, hcs⟩ := exists_componentsOf_cons (List.cons_ne_nil c first)
      refine .inr (.inr ⟨hne, ?_, x, ?_⟩)
      · rw [isAbsolute, htext]
        simpa using hc
      · rw [components, hpieces, hcs]
        exact ⟨_, hx, rfl⟩

theorem text_eq_empty_iff {p : Path} : p.text = "" ↔ p.components = [] := by
  rcases p.components_cases with ⟨ht, hc⟩ | ⟨ht, -, cs, hc⟩ | ⟨ht, -, c, cs, -, hc⟩
  · exact ⟨fun _ => hc, fun _ => ht⟩
  · rw [hc]
    exact ⟨fun h => absurd h ht, nofun⟩
  · rw [hc]
    exact ⟨fun h => absurd h ht, nofun⟩

theorem isAbsolute_iff {p : Path} : p.isAbsolute = true ↔ p.components.head? = some .root := by
  rcases p.components_cases with ⟨ht, hc⟩ | ⟨-, ha, cs, hc⟩ | ⟨-, ha, c, cs, hroot, hc⟩
  · rw [isAbsolute, ht, hc]
    exact ⟨nofun, nofun⟩
  · rw [ha, hc]
    exact ⟨fun _ => rfl, fun _ => rfl⟩
  · rw [ha, hc]
    exact ⟨nofun, fun h => absurd (Option.some.inj h) hroot⟩

/-! ## The last component -/

/-- Fillers at the end name nothing. -/
theorem filterMap_dropTrailing (ps : List (List Char)) :
    (Text.dropTrailing isFiller ps).filterMap Component.ofPiece? =
      ps.filterMap Component.ofPiece? := by
  change (ps.rdropWhile isFiller).filterMap Component.ofPiece? = _
  induction ps using List.reverseRecOn with
  | nil => rfl
  | append_singleton ps piece ih =>
    by_cases hp : isFiller piece = true
    · rw [List.rdropWhile_concat_pos _ _ _ hp, ih, List.filterMap_append]
      simp [isFiller_iff.1 hp]
    · rw [List.rdropWhile_concat_neg _ _ _ hp]

theorem mem_of_mem_dropTrailing {ps : List (List Char)} {piece : List Char}
    (h : piece ∈ Text.dropTrailing isFiller ps) : piece ∈ ps :=
  (List.rdropWhile_prefix isFiller ps).subset h

/-- Without fillers at the end, pieces end with a component. -/
theorem dropTrailing_eq_nil_or (ps : List (List Char)) :
    Text.dropTrailing isFiller ps = [] ∨ ∃ before piece c,
      Text.dropTrailing isFiller ps = before ++ [piece] ∧ Component.ofPiece? piece = some c := by
  rcases List.eq_nil_or_concat' (Text.dropTrailing isFiller ps) with h | ⟨before, piece, h⟩
  · exact .inl h
  · have hr : ps.rdropWhile isFiller = before ++ [piece] := h
    have hlast : ¬isFiller piece = true := by
      have hne : ps.rdropWhile isFiller ≠ [] := by
        rw [hr]
        exact List.append_ne_nil_of_right_ne_nil _ (List.cons_ne_nil _ _)
      have hnot := List.rdropWhile_last_not isFiller ps hne
      simpa only [hr, List.getLast_append_singleton] using hnot
    rw [isFiller_iff] at hlast
    obtain ⟨c, hc⟩ := Option.ne_none_iff_exists'.1 hlast
    exact .inr ⟨before, piece, c, h, hc⟩

/-! ## Parents -/

section

variable {p q : Path} {first piece : List Char} {rest before : List (List Char)}

/-- Only the first piece names something. -/
theorem parent?_of_first (hp : p.pieces = first :: rest)
    (hk : Text.dropTrailing isFiller rest = []) :
    p.parent? = if first = [] then none else some ⟨""⟩ := by
  have hlast : lastPiece p.pieces = ([], first) := by
    rw [hp, lastPiece]
    simp only [hk]
    rfl
  rw [parent?, hlast]
  cases first with
  | nil => rfl
  | cons c cs => rfl

theorem parent?_of_later (hp : p.pieces = first :: rest)
    (hk : Text.dropTrailing isFiller rest = before ++ [piece]) :
    p.parent? = if first :: Text.dropTrailing isFiller before = [[]] then some ⟨"/"⟩
      else some (ofPieces (first :: Text.dropTrailing isFiller before)) := by
  have hlast : lastPiece p.pieces = (first :: before, piece) := by
    rw [hp, lastPiece]
    simp only [hk, List.getLast?_concat, List.dropLast_concat]
  rw [parent?, hlast]
  dsimp only
  split
  · next he =>
    rw [if_pos he]
  · next hne =>
    rw [if_neg hne]

/-- A parent has all components but the last. -/
theorem components_of_parent? (h : p.parent? = some q) :
    ∃ c, p.components = q.components ++ [c] := by
  obtain ⟨first, rest, hp⟩ := p.exists_pieces
  rcases dropTrailing_eq_nil_or rest with hk | ⟨before, piece, c, hk, hc⟩
  · rw [parent?_of_first hp hk] at h
    split at h
    · cases h
    · next hfirst =>
      cases h
      obtain ⟨c, -, hcs⟩ := exists_componentsOf_cons hfirst
      refine ⟨c, ?_⟩
      rw [components, hp, hcs, ← filterMap_dropTrailing, hk]
      rfl
  · have hrest : rest.filterMap Component.ofPiece? =
        (Text.dropTrailing isFiller before).filterMap Component.ofPiece? ++ [c] := by
      rw [← filterMap_dropTrailing rest, hk, List.filterMap_append, filterMap_dropTrailing,
        List.filterMap_cons_some hc, List.filterMap_nil]
    have hne : rest ≠ [] := by
      rintro rfl
      simp [Text.dropTrailing] at hk
    refine ⟨c, ?_⟩
    rw [parent?_of_later hp hk] at h
    split at h
    · next hroot =>
      cases h
      obtain ⟨rfl, hb⟩ := List.cons.inj hroot
      rw [components, hp, componentsOf_nil_cons hne, hrest, hb]
      rfl
    · next hroot =>
      cases h
      have hslash : ∀ x ∈ first :: Text.dropTrailing isFiller before, '/' ∉ x := by
        intro x hx
        refine p.slash_notMem_of_mem_pieces ?_
        rw [hp]
        rcases List.mem_cons.1 hx with rfl | hx
        · exact List.mem_cons_self
        · refine List.mem_cons_of_mem _ (mem_of_mem_dropTrailing ?_)
          rw [hk]
          exact List.mem_append_left _ (mem_of_mem_dropTrailing hx)
      rw [components, components, pieces_ofPieces (List.cons_ne_nil _ _) hslash, hp]
      by_cases hfirst : first = []
      · subst hfirst
        have hb : Text.dropTrailing isFiller before ≠ [] := fun hb => hroot (by rw [hb])
        rw [componentsOf_nil_cons hb, componentsOf_nil_cons hne, hrest, List.cons_append]
      · obtain ⟨c', -, hcs⟩ := exists_componentsOf_cons hfirst
        rw [hcs, hcs, hrest, List.cons_append]

/-- Only the root and the empty path have no parent. -/
theorem components_of_parent?_eq_none (h : p.parent? = none) :
    p.components = [] ∨ p.components = [.root] := by
  obtain ⟨first, rest, hp⟩ := p.exists_pieces
  rcases dropTrailing_eq_nil_or rest with hk | ⟨before, piece, c, hk, -⟩
  · rw [parent?_of_first hp hk] at h
    split at h
    · next hfirst =>
      rw [components, hp, hfirst]
      by_cases hrest : rest = []
      · exact .inl (by rw [hrest]; rfl)
      · rw [componentsOf_nil_cons hrest, ← filterMap_dropTrailing, hk]
        exact .inr rfl
    · cases h
  · rw [parent?_of_later hp hk] at h
    split at h
    · cases h
    · cases h

end

/-! ## What is above -/

theorem above_of_parent? {p q : Path} (h : p.parent? = some q) : q.Above p := by
  obtain ⟨c, hc⟩ := components_of_parent? h
  refine ⟨⟨[c], hc.symm⟩, ?_⟩
  intro hsame
  rw [Same, hc] at hsame
  simpa using congrArg List.length hsame

theorem Above.asymm {p q : Path} (h : p.Above q) : ¬q.Above p := by
  intro hq
  exact h.2 (h.1.eq_of_length_le hq.1.length_le)

/-- Above a path are its parent and what is above that. -/
theorem above_iff_of_parent? {d p q : Path} (h : p.parent? = some q) :
    d.Above p ↔ d.Same q ∨ d.Above q := by
  obtain ⟨c, hc⟩ := components_of_parent? h
  constructor
  · rintro ⟨hpre, hne⟩
    rw [hc, List.prefix_concat_iff] at hpre
    rcases hpre with he | hpre
    · exact absurd (he.trans hc.symm) hne
    · by_cases hsame : d.Same q
      · exact .inl hsame
      · exact .inr ⟨hpre, hsame⟩
  · rintro (hsame | habove)
    · have hq := above_of_parent? h
      rw [Above, Same, hsame]
      exact hq
    · refine ⟨hc ▸ habove.1.trans (List.prefix_append _ _), ?_⟩
      intro hsame
      have hlen := habove.1.length_le
      rw [hsame, hc, List.length_append, List.length_singleton] at hlen
      omega

/-- At most the empty path is above one without parent. -/
theorem components_of_above {d p : Path} (h : p.parent? = none) (hd : d.Above p) :
    d.components = [] := by
  obtain ⟨hpre, hne⟩ := hd
  rcases components_of_parent?_eq_none h with hp | hp
  · rw [hp] at hpre
    exact List.prefix_nil.1 hpre
  · rw [hp, ← List.nil_append [Component.root], List.prefix_concat_iff] at hpre
    rcases hpre with he | hnil
    · exact absurd (he.trans hp.symm) hne
    · exact List.prefix_nil.1 hnil

theorem ancestors_go_eq (n : Nat) (p : Path) :
    ancestors.go n p = p :: (ancestors.go n p).drop 1 := by
  cases n with
  | zero => rfl
  | succ n => rfl

/-- Every piece after the first takes a slash, and a component takes a character more. -/
theorem length_filterMap_ofPiece? (first : List Char) (rest : List (List Char)) :
    first.length + rest.length + (rest.filterMap Component.ofPiece?).length ≤
      (['/'].intercalate (first :: rest)).length := by
  induction rest generalizing first with
  | nil => simp
  | cons piece rest ih =>
    have hpiece : ((piece :: rest).filterMap Component.ofPiece?).length ≤
        piece.length + (rest.filterMap Component.ofPiece?).length := by
      cases piece with
      | nil => rw [List.filterMap_cons_none rfl]; omega
      | cons c cs =>
        cases hc : Component.ofPiece? (c :: cs) with
        | none => rw [List.filterMap_cons_none hc]; omega
        | some x => rw [List.filterMap_cons_some hc, List.length_cons, List.length_cons]; omega
    have hrest := ih piece
    rw [List.intercalate_cons_cons]
    simp only [List.length_append, List.length_cons, List.length_nil]
    omega

/-- A path has no more components than characters. -/
theorem components_length_le (p : Path) : p.components.length ≤ p.text.length := by
  obtain ⟨first, rest, hp⟩ := p.exists_pieces
  have hlen : (['/'].intercalate (first :: rest)).length = p.text.length := by
    rw [← hp, pieces, List.intercalate_splitOn, String.length_toList]
  have hle := length_filterMap_ofPiece? first rest
  rw [components, hp]
  cases first with
  | nil =>
    by_cases hrest : rest = []
    · rw [hrest]
      exact Nat.zero_le _
    · have hpos := List.length_pos_iff.2 hrest
      rw [componentsOf_nil_cons hrest, List.length_cons]
      omega
  | cons c cs =>
    obtain ⟨x, -, hx⟩ := exists_componentsOf_cons (List.cons_ne_nil c cs)
    rw [hx, List.length_cons]
    rw [List.length_cons] at hle
    omega

end Path
end DocGraph
