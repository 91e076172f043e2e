import DocGraph.Proofs.Pattern.Expression
import Mathlib.Data.List.Forall2

/-!
# DocGraph.Proofs.Pattern.Greedy

Which reading of a text a match picks.

* `Decomposes ts q pieces` — `q` is cut into one piece per token, and all occurrences of a name stand
  for the same piece.
* `choices`       — the lengths that the tokens are free to choose.
* `GreedyFor`     — the decomposition with the greatest choices, the ones further left first.
* `ReadsBy`       — a reading token by token, with its pieces. `decomposes_iff`: its pieces are a
  decomposition, and every decomposition can be read so.
* `cut_greedy`    — what a search ends with is read by the greatest choices.
* `captures_greedy` — a match of the regular expression gives the values of the greedy decomposition,
  and there is none only if there is no decomposition.
-/

namespace DocGraph
namespace Pattern

/-! ## Decompositions -/

/-- A text is cut into one piece per token, where all occurrences of a name stand for the same. -/
structure Decomposes (ts : List Token) (q : List Char) (pieces : List (List Char)) : Prop where
  joined : pieces.flatten = q
  /-- Each piece is one that its token can stand for on its own. -/
  taken : List.Forall₂ (fun t piece => Takes [] piece t) ts pieces
  agree : ∀ name piece piece', (.named name, piece) ∈ ts.zip pieces →
    (.named name, piece') ∈ ts.zip pieces → piece = piece'

/-- Whether a token can choose its length behind the names that were seen. -/
def isFree (seen : List String) : Token → Bool
  | .star | .globStar => true
  | .named name => name ∉ seen
  | _ => false

/-- The lengths of the pieces that were free to choose, behind the names that were seen. -/
def choices : List String → List Token → List (List Char) → List Nat
  | seen, t :: ts, piece :: pieces =>
    (if isFree seen t then [piece.length] else []) ++ choices (t.name?.toList ++ seen) ts pieces
  | _, _, _ => []

/-- Of all decompositions, the one with the greatest choices. The ones further left count first. -/
structure GreedyFor (ts : List Token) (q : List Char) (pieces : List (List Char)) : Prop where
  decomposes : Decomposes ts q pieces
  greatest : ∀ other, Decomposes ts q other → other = pieces ∨
    choices [] ts other < choices [] ts pieces

theorem GreedyFor.unique {ts : List Token} {q : List Char} {pieces other : List (List Char)}
    (h : GreedyFor ts q pieces) (h' : GreedyFor ts q other) : other = pieces := by
  rcases h.greatest other h'.decomposes with heq | hlt
  · exact heq
  · rcases h'.greatest pieces h.decomposes with heq | hlt'
    · exact heq.symm
    · exact absurd hlt' (List.lt_asymm hlt)

/-! ## Readings with their pieces -/

/-- A reading along tokens by the pieces that they take. -/
inductive ReadsBy : List Token → Found → List (List Char) → Found → Prop where
  | nil {found : Found} : ReadsBy [] found [] found
  | cons {t : Token} {ts : List Token} {found f : Found} {piece : List Char}
      {pieces : List (List Char)} (h : Takes found piece t)
      (hr : ReadsBy ts (record found piece t) pieces f) :
      ReadsBy (t :: ts) found (piece :: pieces) f

theorem ReadsBy.reads {ts : List Token} {found f : Found} {pieces : List (List Char)}
    (h : ReadsBy ts found pieces f) : Reads ts found pieces.flatten f := by
  induction h with
  | nil => exact .nil
  | cons ht _ ih => exact .cons ht ih

theorem ReadsBy.value?_eq {ts : List Token} {found f : Found} {pieces : List (List Char)}
    (h : ReadsBy ts found pieces f) {name : String} {piece : List Char}
    (hmem : (.named name, piece) ∈ ts.zip pieces) : value? f name = some piece := by
  induction h with
  | nil => cases hmem
  | cons ht hr ih =>
    rw [List.zip_cons_cons] at hmem
    rcases List.mem_cons.1 hmem with heq | hmem
    · cases heq
      exact value?_mono hr.reads.extends_found (value?_record ht)
    · exact ih hmem

theorem ReadsBy.mem_zip {ts : List Token} {found f : Found} {pieces : List (List Char)}
    (h : ReadsBy ts found pieces f) {e : String × List Char} (he : e ∈ f) :
    e ∈ found ∨ (.named e.1, e.2) ∈ ts.zip pieces := by
  induction h with
  | nil => exact .inl he
  | @cons t ts found f piece pieces ht hr ih =>
    rw [List.zip_cons_cons]
    rcases ih he with hrecord | hmem
    · cases t with
      | named name =>
        cases hv : value? found name with
        | none =>
          rw [record_of_unknown hv] at hrecord
          rcases List.mem_append.1 hrecord with hfound | hnew
          · exact .inl hfound
          · cases List.mem_singleton.1 hnew
            exact .inr List.mem_cons_self
        | some v =>
          rw [record_of_known (by simp [hv])] at hrecord
          exact .inl hrecord
      | _ => exact .inl hrecord
    · exact .inr (List.mem_cons_of_mem _ hmem)

/-- A piece that a token takes behind some values is one that it can stand for on its own. -/
theorem takes_nil {found : Found} (hfound : ∀ e ∈ found, '/' ∉ e.2) {piece : List Char} {t : Token}
    (h : Takes found piece t) : Takes [] piece t := by
  cases t with
  | named name =>
    rw [takes_of_unknown rfl]
    cases hv : value? found name with
    | none => exact (takes_of_unknown hv).1 h
    | some v =>
      rw [(takes_of_known hv).1 h]
      obtain ⟨l₁, l₂, rfl, -⟩ := List.lookup_eq_some_iff.1 hv
      exact hfound (name, v) (by simp)
  | _ => exact h

theorem ReadsBy.taken {ts : List Token} {found f : Found} {pieces : List (List Char)}
    (h : ReadsBy ts found pieces f) (hfound : ∀ e ∈ found, '/' ∉ e.2) :
    List.Forall₂ (fun t piece => Takes [] piece t) ts pieces := by
  induction h with
  | nil => exact .nil
  | @cons t ts found f piece pieces ht hr ih =>
    refine .cons (takes_nil hfound ht) (ih ?_)
    have hstep : Reads [t] found (piece ++ []) (record found piece t) := .cons ht .nil
    exact hstep.noSlash hfound

/-- Pieces can be read one after the other if those of one name are the same, and are the value that
the name has already. -/
theorem exists_readsBy {ts : List Token} {pieces : List (List Char)} {found : Found}
    (htaken : List.Forall₂ (fun t piece => Takes [] piece t) ts pieces)
    (hagree : ∀ name piece piece', (.named name, piece) ∈ ts.zip pieces →
      (.named name, piece') ∈ ts.zip pieces → piece = piece')
    (hknown : ∀ name piece v, (.named name, piece) ∈ ts.zip pieces →
      value? found name = some v → piece = v) : ∃ f, ReadsBy ts found pieces f := by
  induction htaken generalizing found with
  | nil => exact ⟨found, .nil⟩
  | @cons t piece ts pieces ht _ ih =>
    rw [List.zip_cons_cons] at hagree hknown
    have htakes : Takes found piece t := by
      cases t with
      | named name =>
        cases hv : value? found name with
        | none => exact (takes_of_unknown hv).2 ((takes_of_unknown rfl).1 ht)
        | some v => exact (takes_of_known hv).2 (hknown name piece v List.mem_cons_self hv)
      | _ => exact ht
    have hrecorded : ∀ name p v, (.named name, p) ∈ ts.zip pieces →
        value? (record found piece t) name = some v → p = v := by
      intro name p v hp hv
      have hp := List.mem_cons_of_mem (t, piece) hp
      by_cases hname : t = .named name
      · -- the value is the piece that was just recorded
        subst hname
        rw [value?_record htakes, Option.some_inj] at hv
        rw [← hv]
        exact hagree name p piece hp List.mem_cons_self
      · refine hknown name p v hp ?_
        cases t with
        | named name' =>
          rwa [value?_record_of_ne fun h => hname (congrArg Token.named h.symm)] at hv
        | _ => exact hv
    obtain ⟨f, hf⟩ := ih
      (fun name p p' hp hp' =>
        hagree name p p' (List.mem_cons_of_mem _ hp) (List.mem_cons_of_mem _ hp'))
      hrecorded
    exact ⟨f, .cons htakes hf⟩

theorem decomposes_iff {ts : List Token} {q : List Char} {pieces : List (List Char)} :
    Decomposes ts q pieces ↔ pieces.flatten = q ∧ ∃ f, ReadsBy ts [] pieces f := by
  constructor
  · rintro ⟨hjoined, htaken, hagree⟩
    exact ⟨hjoined, exists_readsBy htaken hagree fun _ _ _ _ h => nomatch h⟩
  · rintro ⟨hjoined, f, hf⟩
    refine ⟨hjoined, hf.taken fun e he => absurd he List.not_mem_nil, ?_⟩
    intro name piece piece' hpiece hpiece'
    exact Option.some.inj ((hf.value?_eq hpiece).symm.trans (hf.value?_eq hpiece'))

/-! ## Choices -/

theorem choices_congr {seen seen' : List String} (h : ∀ name, name ∈ seen ↔ name ∈ seen')
    (ts : List Token) (pieces : List (List Char)) :
    choices seen ts pieces = choices seen' ts pieces := by
  induction ts generalizing seen seen' pieces with
  | nil => rfl
  | cons t ts ih =>
    cases pieces with
    | nil => rfl
    | cons piece pieces =>
      have hfree : isFree seen t = isFree seen' t := by
        cases t with
        | named name => simp [isFree, h]
        | _ => rfl
      have hseen : ∀ name, name ∈ t.name?.toList ++ seen ↔ name ∈ t.name?.toList ++ seen' :=
        fun name => by rw [List.mem_append, List.mem_append, h]
      rw [choices, choices, hfree, ih hseen]

theorem choices_cons (found : Found) (t : Token) (ts : List Token) (piece : List Char)
    (pieces : List (List Char)) :
    choices (found.map Prod.fst) (t :: ts) (piece :: pieces) =
      (if isFree (found.map Prod.fst) t then [piece.length] else []) ++
        choices ((record found piece t).map Prod.fst) ts pieces := by
  rw [choices, choices_congr mem_seen_record]

/-! ## The order of a search -/

theorem downFrom_decreasing (k : Nat) : (downFrom k).Pairwise (· > ·) := by
  induction k with
  | zero => exact List.pairwise_singleton _ _
  | succ k ih =>
    refine List.pairwise_cons.2 ⟨fun n hn => ?_, ih⟩
    have hle := mem_downFrom.1 hn
    omega

theorem exactly_eq_or (s q : List Char) : exactly s q = [] ∨ ∃ n, exactly s q = [n] := by
  unfold exactly
  split
  · exact .inr ⟨_, rfl⟩
  · exact .inl rfl

theorem oneIf_eq_or (p : Char → Bool) (q : List Char) : oneIf p q = [] ∨ ∃ n, oneIf p q = [n] := by
  unfold oneIf
  split
  · split
    · exact .inr ⟨_, rfl⟩
    · exact .inl rfl
  · exact .inl rfl

/-- A token that is free tries the greatest length first. Any other has one length at most. -/
theorem lengths_cases (found : Found) (q : List Char) (t : Token) :
    (isFree (found.map Prod.fst) t = true ∧ (lengths found q t).Pairwise (· > ·)) ∨
      lengths found q t = [] ∨ ∃ n, lengths found q t = [n] := by
  cases t with
  | literal s => exact .inr (exactly_eq_or _ _)
  | single => exact .inr (oneIf_eq_or _ _)
  | star => exact .inl ⟨rfl, downFrom_decreasing _⟩
  | globStar => exact .inl ⟨rfl, downFrom_decreasing _⟩
  | charClass negated body => exact .inr (oneIf_eq_or _ _)
  | named name =>
    rw [lengths]
    cases hv : value? found name with
    | none =>
      refine .inl ⟨?_, downFrom_decreasing _⟩
      have hnew : name ∉ found.map Prod.fst := by
        rw [← value?_isSome, hv]
        exact Bool.false_ne_true
      simp only [isFree, hnew, not_false_eq_true, decide_true]
    | some v => exact .inr (exactly_eq_or _ _)

/-- Where a search with the lengths `before` fails and with `n` succeeds, a length behind `n` is
smaller, and the token was free to choose it. -/
theorem free_and_lt_of_mem {found : Found} {q : List Char} {t : Token} {before after : List Nat}
    {n m : Nat} (h : lengths found q t = before ++ n :: after) (hm : m ∈ after) :
    isFree (found.map Prod.fst) t = true ∧ m < n := by
  rcases lengths_cases found q t with ⟨hfree, hdecreasing⟩ | hnil | ⟨k, hone⟩
  · rw [h] at hdecreasing
    have hafter := (List.pairwise_append.1 hdecreasing).2.1
    exact ⟨hfree, (List.pairwise_cons.1 hafter).1 m hm⟩
  · rw [hnil] at h
    exact absurd (congrArg List.length h) (by simp)
  · rw [hone] at h
    have hlength := congrArg List.length h
    have hpos := List.length_pos_of_mem hm
    simp at hlength
    omega

/-- What a search ends with is read by pieces, and any others have smaller choices. -/
theorem cut_greedy {ts : List Token} {found f : Found} {q : List Char}
    (h : cut ts found q = some f) : ∃ pieces, pieces.flatten = q ∧ ReadsBy ts found pieces f ∧
      ∀ other g, other.flatten = q → ReadsBy ts found other g → other = pieces ∨
        choices (found.map Prod.fst) ts other < choices (found.map Prod.fst) ts pieces := by
  induction ts generalizing found q with
  | nil =>
    rw [cut] at h
    split at h
    · next hq =>
      cases h
      refine ⟨[], (List.isEmpty_iff.1 hq).symm, .nil, ?_⟩
      intro other g _ hother
      cases hother
      exact .inl rfl
    · cases h
  | cons t ts ih =>
    -- the search ends with the first length from which the other tokens can go on; those behind it
    -- are smaller, those before it lead to no reading
    rw [cut] at h
    obtain ⟨before, n, after, hlengths, hcut, hbefore⟩ := List.findSome?_eq_some_iff.1 h
    obtain ⟨pieces, hjoined, hreads, hgreatest⟩ := ih hcut
    have hn : n ∈ lengths found q t := by simp [hlengths]
    obtain ⟨hle, htakes⟩ := mem_lengths.1 hn
    refine ⟨q.take n :: pieces, ?_, .cons htakes hreads, ?_⟩
    · rw [List.flatten_cons, hjoined, List.take_append_drop]
    · intro other g hother hg
      cases hg with
      | @cons _ _ _ _ piece others ht hr =>
        rw [List.flatten_cons] at hother
        have htake : q.take piece.length = piece := by rw [← hother, List.take_left]
        have hdrop : q.drop piece.length = others.flatten := by rw [← hother, List.drop_left]
        have hm : piece.length ∈ lengths found q t := by
          refine mem_lengths.2 ⟨by simp [← hother], ?_⟩
          rwa [htake]
        rw [choices_cons, choices_cons]
        rw [hlengths] at hm
        rcases List.mem_append.1 hm with hm | hm
        · have hnone := hbefore _ hm
          have hsome := cut_complete hr.reads
          rw [htake, hdrop] at hnone
          rw [hnone] at hsome
          cases hsome
        · rcases List.mem_cons.1 hm with hsame | hm
          · -- the same length, so that the rest decides
            have hpiece : piece = q.take n := by rw [← hsame, htake]
            have hrest : others.flatten = q.drop n := by rw [← hsame, hdrop]
            subst hpiece
            rcases hgreatest others g hrest hr with rfl | hlt
            · exact .inl rfl
            · exact .inr (List.append_left_lt hlt)
          · obtain ⟨hfree, hlt⟩ := free_and_lt_of_mem hlengths hm
            right
            rw [if_pos hfree, if_pos hfree, List.length_take_of_le hle]
            exact List.cons_lt_cons_iff.2 (.inl hlt)

/-! ## Matches -/

/-- What a reading finds are the pieces of the named wildcards. -/
theorem ReadsBy.forall₂_values {p : Pattern} {f : Found} {pieces : List (List Char)}
    (h : ReadsBy p.tokens [] pieces f) :
    List.Forall₂ (fun name value => (.named name, value.toList) ∈ p.tokens.zip pieces) p.names
      (f.map fun e => String.ofList e.2) := by
  have hnames : f.map Prod.fst = p.names := h.reads.names
  rw [← hnames, List.forall₂_map_left_iff, List.forall₂_map_right_iff, List.forall₂_same]
  intro e he
  rw [String.toList_ofList]
  exact (h.mem_zip he).resolve_left List.not_mem_nil

theorem Decomposes.rightUnique {ts : List Token} {q : List Char} {pieces : List (List Char)}
    (h : Decomposes ts q pieces) : Relator.RightUnique fun (name : String) (value : String) =>
      (Token.named name, value.toList) ∈ ts.zip pieces :=
  fun name _ _ hv hv' => String.toList_inj.1 (h.agree name _ _ hv hv')

theorem exists_greedyFor {ts : List Token} {q : List Char} {f : Found}
    (h : cut ts [] q = some f) : ∃ pieces, GreedyFor ts q pieces ∧ ReadsBy ts [] pieces f := by
  obtain ⟨pieces, hjoined, hreads, hgreatest⟩ := cut_greedy h
  refine ⟨pieces, ⟨decomposes_iff.2 ⟨hjoined, f, hreads⟩, fun other hother => ?_⟩, hreads⟩
  obtain ⟨hother, g, hg⟩ := decomposes_iff.1 hother
  exact hgreatest other g hother hg

theorem cut_isSome_of_decomposes {ts : List Token} {q : List Char} {pieces : List (List Char)}
    (h : Decomposes ts q pieces) : (cut ts [] q).isSome = true := by
  obtain ⟨rfl, f, hf⟩ := decomposes_iff.1 h
  exact cut_complete hf.reads

/-- A pattern matches like its regular expression. It does not match only if no decomposition of the
path exists. Otherwise a match gives the values of the names in the greedy decomposition. -/
theorem captures_greedy (p : Pattern) (path : String) :
    (∃ ps, Regex.read? p.anchored = some ps ∧ p.captures path = Regex.captures ps p.names path) ∧
    (p.captures path = none ↔ ¬∃ pieces, Decomposes p.tokens path.toList pieces) ∧
    ∀ values, p.captures path = some values ↔
      ∃ pieces, GreedyFor p.tokens path.toList pieces ∧
        List.Forall₂ (fun name value => (.named name, value.toList) ∈ p.tokens.zip pieces)
          p.names values := by
  refine ⟨?_, ?_⟩
  · obtain ⟨ps, hread, hcaptures⟩ := captures_expression p
    exact ⟨ps, hread, hcaptures path⟩
  rw [captures]
  cases hcut : cut p.tokens [] path.toList with
  | none =>
    have hno : ¬∃ pieces, Decomposes p.tokens path.toList pieces := by
      rintro ⟨pieces, hpieces⟩
      have hsome := cut_isSome_of_decomposes hpieces
      rw [hcut] at hsome
      cases hsome
    refine ⟨iff_of_true rfl hno, fun values => iff_of_false (Option.some_ne_none values).symm ?_⟩
    rintro ⟨pieces, hgreedy, -⟩
    exact hno ⟨pieces, hgreedy.decomposes⟩
  | some f =>
    obtain ⟨pieces, hgreedy, hreads⟩ := exists_greedyFor hcut
    have hvalues := hreads.forall₂_values
    have hdecomposes := not_not_intro (Exists.intro pieces hgreedy.decomposes)
    refine ⟨iff_of_false (Option.some_ne_none _) hdecomposes, fun values => ?_⟩
    rw [Option.map_some, Option.some_inj]
    constructor
    · rintro rfl
      exact ⟨pieces, hgreedy, hvalues⟩
    · rintro ⟨other, hother, hforall⟩
      rw [hgreedy.unique hother] at hforall
      exact hgreedy.decomposes.rightUnique.forall₂ hvalues hforall

/-- Both occurrences of a name stand for the same text, which the last wildcard leaves no longer. -/
example : captures ⟨[.named "x", .named "x", .star], by decide⟩ "aaaaa" = some ["aa"] := by decide

end Pattern
end DocGraph
