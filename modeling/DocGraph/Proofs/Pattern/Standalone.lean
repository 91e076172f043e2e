import DocGraph.Proofs.Glob.Fitting
import DocGraph.Proofs.Pattern.Merging
import DocGraph.Proofs.Pattern.Substitution

/-!
# DocGraph.Proofs.Pattern.Standalone

Patterns in which every `**` is a piece of its own.

* `Token.parted`         — two neighbouring tokens keep a `**` apart by a slash.
* `Pattern.Standalone`   — all neighbours do.
* `isChain_merged`       — merging wildcards keeps them apart.
* `Glob.FitsOpen`        — the pieces of a glob fit the names of a path, and the first piece fits the
  first name by itself.
* `fitsOpen_of_covers`   — the pieces of tokens fit the names that the tokens cover.
* `standalone_of_whole`  — a compiled pattern is standalone if every `**` stands between slashes in
  its source, or at an end.
* `fitsAlong_of_isMatch` — the pieces of the plain glob fit the names of every path that the pattern
  matches.
-/

namespace DocGraph

namespace Token

/-- Whether a slash stands between two neighbouring tokens one of which is `**`. -/
def parted : Token → Token → Bool
  | literal s, globStar => Text.endsWith '/' s
  | globStar, literal s => s.toList.head? == some '/'
  | globStar, _ | _, globStar => false
  | _, _ => true

theorem parted_plain (a b : Token) : parted a.plain b.plain = parted a b := by
  cases a <;> cases b <;> rfl

/-- Where slashes keep `**` apart, only `?` and `*` are merged. -/
theorem parted_covering {d t u : Token} (hu : covering? d t = some u) (h : parted d t = true)
    (a : Token) : parted a u = parted a d ∧ parted u a = parted t a := by
  cases d <;> cases t <;> cases hu <;> first | cases h; done | cases a <;> exact ⟨rfl, rfl⟩

theorem isChain_mergeInto {done ts : List Token} {t : Token}
    (h : (done.reverse ++ t :: ts).IsChain fun a b => parted a b = true) :
    ((mergeInto done t).reverse ++ ts).IsChain fun a b => parted a b = true := by
  cases done with
  | nil =>
    rw [mergeInto_nil]
    exact h
  | cons d done =>
    rw [mergeInto_cons]
    split
    · next u hu =>
      rw [List.reverse_cons, List.append_assoc] at h ⊢
      obtain ⟨hfront, hback⟩ := List.isChain_split.1 h
      obtain ⟨hpair, hback⟩ := List.isChain_cons_cons.1 hback
      refine List.isChain_split.2 ⟨?_, ?_⟩
      · obtain ⟨hdone, -, hlast⟩ := List.isChain_append.1 hfront
        refine List.isChain_append.2 ⟨hdone, .singleton u, fun a ha b hb => ?_⟩
        obtain rfl := Option.some.inj hb
        rw [(parted_covering hu hpair a).1]
        exact hlast a ha d rfl
      · obtain ⟨hhead, hts⟩ := List.isChain_cons.1 hback
        refine List.isChain_cons.2 ⟨fun a ha => ?_, hts⟩
        rw [(parted_covering hu hpair a).2]
        exact hhead a ha
    · rw [List.reverse_cons, List.append_assoc]
      exact h

theorem isChain_merged {ts : List Token} (h : ts.IsChain fun a b => parted a b = true) :
    (merged ts).IsChain fun a b => parted a b = true := by
  have hfoldl (done us : List Token)
      (hus : (done.reverse ++ us).IsChain fun a b => parted a b = true) :
      (us.foldl mergeInto done).reverse.IsChain fun a b => parted a b = true := by
    induction us generalizing done with
    | nil => rwa [List.append_nil] at hus
    | cons t us ih => exact ih _ (isChain_mergeInto hus)
  refine hfoldl [] _ ((List.isChain_map _).2 ?_)
  simpa only [parted_plain] using h

end Token

namespace Glob

variable {g q : List Char}

/-- Text without slashes belongs to the first piece of what follows it. -/
theorem exists_splitOn_append {run : List Char} (h : '/' ∉ run) (q : List Char) : ∃ first rest,
    q.splitOn '/' = first :: rest ∧ (run ++ q).splitOn '/' = (run ++ first) :: rest := by
  induction run with
  | nil =>
    obtain ⟨first, rest, hsplit⟩ := List.exists_cons_of_ne_nil (List.splitOn_ne_nil '/' q)
    exact ⟨first, rest, hsplit, hsplit⟩
  | cons c run ih =>
    rw [List.mem_cons, not_or] at h
    obtain ⟨first, rest, hsplit, hrun⟩ := ih h.2
    obtain ⟨first', rest', hsplit', hcons⟩ := Path.exists_splitOn_cons (Ne.symm h.1) (run ++ q)
    obtain ⟨rfl, rfl⟩ := List.cons.inj (hrun.symm.trans hsplit')
    exact ⟨first, rest, hsplit, hcons⟩

theorem exists_piece {run : List Char} (h : '/' ∉ run) (front back : List Char) :
    ∃ piece ∈ (front ++ (run ++ back)).splitOn '/', run <:+: piece := by
  induction front with
  | nil =>
    obtain ⟨first, rest, -, hsplit⟩ := exists_splitOn_append h back
    exact ⟨run ++ first, hsplit ▸ List.mem_cons_self, (List.prefix_append run first).isInfix⟩
  | cons c front ih =>
    obtain ⟨piece, hpiece, hrun⟩ := ih
    rw [List.cons_append]
    by_cases hc : c = '/'
    · rw [hc, Path.splitOn_slash]
      exact ⟨piece, List.mem_cons_of_mem _ hpiece, hrun⟩
    · obtain ⟨first, rest, hsplit, hcons⟩ := Path.exists_splitOn_cons hc (front ++ (run ++ back))
      rw [hsplit] at hpiece
      rw [hcons]
      rcases List.mem_cons.1 hpiece with rfl | hpiece
      · exact ⟨c :: piece, List.mem_cons_self, hrun.trans (List.suffix_cons c piece).isInfix⟩
      · exact ⟨piece, List.mem_cons_of_mem _ hpiece, hrun⟩

/-- What starts with an empty piece is empty itself, or starts with a slash. -/
theorem splitOn_append_of_splitOn_eq {rest : List (List Char)} (h : q.splitOn '/' = [] :: rest)
    (run : List Char) : (run ++ q).splitOn '/' = run.splitOn '/' ++ rest := by
  cases q with
  | nil =>
    cases h
    rw [List.append_nil, List.append_nil]
  | cons c q =>
    by_cases hc : c = '/'
    · rw [hc, Path.splitOn_slash] at h
      rw [hc, List.splitOn_append_cons_self, (List.cons.inj h).2]
    · obtain ⟨first, others, -, hcons⟩ := Path.exists_splitOn_cons hc q
      rw [hcons] at h
      cases h

/-- The pieces of a glob fit the names of a path, and the first piece fits the first name by
itself. -/
def FitsOpen (g q : List Char) : Prop :=
  ∃ piece pieces name names, g.splitOn '/' = piece :: pieces ∧ q.splitOn '/' = name :: names ∧
    Fits piece name ∧ FitsAlong pieces names

theorem FitsOpen.along (h : FitsOpen g q) : FitsAlong (g.splitOn '/') (q.splitOn '/') := by
  obtain ⟨piece, pieces, name, names, hg, hq, hfits, halong⟩ := h
  rw [hg, hq]
  exact .cons hfits halong

theorem FitsOpen.nil : FitsOpen [] [] := ⟨[], [], [], [], rfl, rfl, .nil, .nil⟩

theorem FitsOpen.slash (h : FitsAlong (g.splitOn '/') (q.splitOn '/')) :
    FitsOpen ('/' :: g) ('/' :: q) :=
  ⟨[], g.splitOn '/', [], q.splitOn '/', Path.splitOn_slash g, Path.splitOn_slash q, .nil, h⟩

theorem FitsOpen.append {front run : List Char} (h : FitsOpen g q) (hfront : '/' ∉ front)
    (hrun : '/' ∉ run) (hfits : ∀ {piece name}, Fits piece name → Fits (front ++ piece) (run ++ name)) :
    FitsOpen (front ++ g) (run ++ q) := by
  obtain ⟨piece, pieces, name, names, hg, hq, hfirst, halong⟩ := h
  obtain ⟨piece', pieces', hg', hfront⟩ := exists_splitOn_append hfront g
  obtain ⟨name', names', hq', hrun⟩ := exists_splitOn_append hrun q
  obtain ⟨rfl, rfl⟩ := List.cons.inj (hg.symm.trans hg')
  obtain ⟨rfl, rfl⟩ := List.cons.inj (hq.symm.trans hq')
  exact ⟨_, _, _, _, hfront, hrun, hfits hfirst, halong⟩

theorem FitsOpen.text (h : FitsOpen g q) (s : List Char) : FitsOpen (s ++ g) (s ++ q) := by
  induction s with
  | nil => exact h
  | cons c s ih =>
    by_cases hc : c = '/'
    · rw [hc]
      exact .slash ih.along
    · have hslash : '/' ∉ [c] := by simpa using Ne.symm hc
      exact ih.append hslash hslash .char

/-- Behind `**` and in front of a slash, or at the end, any text fits. -/
theorem FitsOpen.deep (h : FitsOpen g q) (hg : g = [] ∨ g.head? = some '/') (run : List Char) :
    FitsAlong (('*' :: '*' :: g).splitOn '/') ((run ++ q).splitOn '/') := by
  obtain ⟨piece, pieces, name, names, hpieces, hnames, hfits, halong⟩ := h
  have hempty : piece = [] := by
    rcases hg with rfl | hg
    · cases hpieces
      rfl
    · obtain ⟨rest, rfl⟩ := List.head?_eq_some_iff.1 hg
      exact (List.cons.inj (hpieces.symm.trans (Path.splitOn_slash rest))).1
  subst hempty
  cases hfits
  rw [splitOn_append_of_splitOn_eq hnames,
    show '*' :: '*' :: g = ['*', '*'] ++ g from rfl, splitOn_append_of_splitOn_eq hpieces]
  exact .deep _ (List.splitOn_ne_nil _ _) halong

end Glob

namespace Pattern

open Token Glob

/-- The text of tokens, character by character. -/
def spelled (ts : List Token) : List Char := ts.flatMap fun t => t.spelling.toList

theorem spelled_cons (t : Token) (ts : List Token) :
    spelled (t :: ts) = t.spelling.toList ++ spelled ts := List.flatMap_cons

theorem toList_glob (p : Pattern) : p.glob.toList = spelled (merged p.tokens) :=
  p.widened.toList_source

/-- Every `**` is a piece of its own: what stands in front of it ends with a slash, and what follows
it starts with one. -/
def Standalone (p : Pattern) : Prop := p.tokens.IsChain fun a b => parted a b = true

instance (p : Pattern) : Decidable p.Standalone :=
  inferInstanceAs (Decidable (List.IsChain _ _))

theorem head?_spelled {ts : List Token} (h : ∀ t ∈ ts.head?, parted .globStar t = true) :
    spelled ts = [] ∨ (spelled ts).head? = some '/' := by
  cases ts with
  | nil => exact .inl rfl
  | cons t ts =>
    have ht := h t rfl
    cases t with
    | literal s =>
      obtain ⟨rest, hs⟩ := List.head?_eq_some_iff.1 (beq_iff_eq.1 ht)
      rw [spelled_cons, spelling, hs]
      exact .inr rfl
    | _ => cases ht

/-- The pieces of tokens fit the names that the tokens cover. Only behind a slash a token `**` can come
first, and then its piece takes whole names. -/
theorem fitsOpen_of_covers {ts : List Token} {q : List Char} (h : Covers ts q)
    (halone : ts.IsChain fun a b => parted a b = true) (hbracket : '[' ∉ spelled ts)
    (hnames : ∀ name, .named name ∉ ts) :
    FitsAlong ((spelled ts).splitOn '/') (q.splitOn '/') ∧
      (ts.head? ≠ some .globStar → FitsOpen (spelled ts) q) := by
  induction h with
  | nil => exact ⟨FitsOpen.nil.along, fun _ => .nil⟩
  | @cons t ts piece rest ht _ ih =>
    rw [spelled_cons] at hbracket ⊢
    rw [List.mem_append, not_or] at hbracket
    obtain ⟨hnext, htail⟩ := List.isChain_cons.1 halone
    obtain ⟨hrest, hopen⟩ := ih htail hbracket.2 fun name hmem =>
      hnames name (List.mem_cons_of_mem _ hmem)
    have hboth {g q : List Char} {P : Prop} (h : FitsOpen g q) :
        FitsAlong (g.splitOn '/') (q.splitOn '/') ∧ (P → FitsOpen g q) := ⟨h.along, fun _ => h⟩
    cases t with
    | literal s =>
      rw [show piece = s.toList from ht]
      refine hboth ?_
      by_cases hstars : ts.head? = some .globStar
      · -- the piece of a following `**` starts behind the last slash of the text
        have hslash : s.toList.getLast? = some '/' := beq_iff_eq.1 (hnext .globStar hstars)
        obtain ⟨front, hs⟩ := List.getLast?_eq_some_iff.1 hslash
        rw [spelling, hs, List.append_assoc, List.append_assoc]
        exact (FitsOpen.slash hrest).text front
      · exact (hopen hstars).text s.toList
    | single =>
      obtain ⟨c, hc, rfl⟩ := ht
      have hfront : FitsOpen (spelled ts) rest := hopen fun hstars => by cases hnext _ hstars
      have hslash : '/' ∉ [c] := by simpa using hc.symm
      exact hboth (hfront.append (by decide : '/' ∉ ['?']) hslash .single)
    | star =>
      have hfront : FitsOpen (spelled ts) rest := hopen fun hstars => by cases hnext _ hstars
      exact hboth (hfront.append (by decide : '/' ∉ ['*']) ht (.star piece))
    | globStar =>
      have hfront : FitsOpen (spelled ts) rest := hopen fun hstars => by cases hnext _ hstars
      exact ⟨hfront.deep (head?_spelled hnext) piece, fun hne => absurd rfl hne⟩
    | charClass negated body =>
      refine absurd ?_ hbracket.1
      cases negated <;> simp [spelling]
    | named name => exact absurd List.mem_cons_self (hnames name)

/-! ## Sources -/

/-- Of all tokens only literal text can begin or end with a slash. -/
theorem exists_literal {t : Token} (h : t.spelling.toList.head? = some '/' ∨
    t.spelling.toList.getLast? = some '/') : ∃ s, t = .literal s := by
  cases t with
  | literal s => exact ⟨s, rfl⟩
  | charClass negated body => cases negated <;> simp [spelling, List.getLast?_cons] at h
  | named name => simp [spelling, List.getLast?_cons] at h
  | _ => simp [spelling] at h

/-- Whether every `**` in a text stands between slashes, or at an end. -/
def Whole (cs : List Char) : Prop :=
  ∀ piece ∈ cs.splitOn '/', ['*', '*'] <:+: piece → piece = ['*', '*']

instance (cs : List Char) : Decidable (Whole cs) :=
  inferInstanceAs (Decidable (∀ piece ∈ cs.splitOn '/', _))

theorem Whole.not_infix {front run back : List Char} (h : Whole (front ++ (run ++ back)))
    (hrun : '/' ∉ run) (hstars : ['*', '*'] <:+: run) (hlong : 2 < run.length) : False := by
  obtain ⟨piece, hpiece, hin⟩ := exists_piece hrun front back
  rw [h piece hpiece (hstars.trans hin)] at hin
  exact absurd hin.length_le (Nat.not_le.2 hlong)

theorem parted_of_whole {a b : Token} {front back : List Char}
    (h : Whole (front ++ (a.spelling.toList ++ (b.spelling.toList ++ back))))
    (ha : a ≠ .literal "") (hb : b ≠ .literal "") : parted a b = true := by
  by_cases hright : b = .globStar
  · subst hright
    obtain ⟨before, c, hc⟩ := (List.eq_nil_or_concat' _).resolve_left (spelling_ne_nil ha)
    have hslash : c = '/' := by
      by_contra hne
      have hsplit : front ++ (before ++ [c] ++ (['*', '*'] ++ back)) =
          (front ++ before) ++ ([c, '*', '*'] ++ back) := by simp
      rw [hc, show Token.globStar.spelling.toList = ['*', '*'] from rfl, hsplit] at h
      exact h.not_infix (by simpa using Ne.symm hne) (List.suffix_append [c] _).isInfix
        (Nat.lt_add_one 2)
    have hlast : a.spelling.toList.getLast? = some '/' := by rw [hc, hslash, List.getLast?_concat]
    obtain ⟨s, rfl⟩ := exists_literal (.inr hlast)
    exact beq_iff_eq.2 hlast
  · by_cases hleft : a = .globStar
    · subst hleft
      obtain ⟨c, after, hc⟩ := List.exists_cons_of_ne_nil (spelling_ne_nil hb)
      have hslash : c = '/' := by
        by_contra hne
        have hsplit : front ++ (['*', '*'] ++ (c :: after ++ back)) =
            front ++ (['*', '*', c] ++ (after ++ back)) := by simp
        rw [hc, show Token.globStar.spelling.toList = ['*', '*'] from rfl, hsplit] at h
        exact h.not_infix (by simpa using Ne.symm hne) (List.prefix_append _ [c]).isInfix
          (Nat.lt_add_one 2)
      have hhead : b.spelling.toList.head? = some '/' := by rw [hc, hslash, List.head?_cons]
      obtain ⟨s, rfl⟩ := exists_literal (.inl hhead)
      exact beq_iff_eq.2 hhead
    · cases a <;> cases b <;> first | rfl | exact absurd rfl hleft | exact absurd rfl hright

theorem isChain_of_whole {ts : List Token} (front : List Char) (h : Whole (front ++ spelled ts))
    (hempty : .literal "" ∉ ts) : ts.IsChain fun a b => parted a b = true := by
  induction ts generalizing front with
  | nil => exact .nil
  | cons a ts ih =>
    rw [spelled_cons] at h
    rw [List.mem_cons, not_or] at hempty
    refine List.isChain_cons.2 ⟨fun b hb => ?_, ih (front ++ a.spelling.toList) ?_ hempty.2⟩
    · obtain ⟨rest, rfl⟩ := List.head?_eq_some_iff.1 hb
      rw [spelled_cons] at h
      refine parted_of_whole h (Ne.symm hempty.1) ?_
      rintro rfl
      exact hempty.2 List.mem_cons_self
    · rwa [List.append_assoc]

/-- In a compiled pattern, every `**` is a piece of its own if this is so in its source. -/
theorem standalone_of_whole {source : String} {p : Pattern} (hp : compile source = .ok p)
    (h : Whole p.source.toList) : p.Standalone := by
  rw [toList_source] at h
  exact isChain_of_whole [] h (empty_notMem_of_compile hp)

/-! ## Plain globs -/

theorem bracket_notMem_glob {p : Pattern} (h : '[' ∉ p.source.toList) : '[' ∉ p.glob.toList := by
  rw [toList_source] at h
  rw [toList_glob]
  intro hmem
  obtain ⟨u, hu, hbracket⟩ := List.mem_flatMap.1 hmem
  obtain ⟨t, ht, rfl⟩ := mem_merged hu
  refine h (List.mem_flatMap.2 ⟨t, ht, ?_⟩)
  cases t with
  | named name =>
    have hstar : '[' ∉ "*".toList := by decide
    exact absurd hbracket hstar
  | _ => exact hbracket

/-- The pieces of the plain glob fit the names of every path that the pattern matches. -/
theorem fitsAlong_of_isMatch {p : Pattern} {path : String} (halone : p.Standalone)
    (hbracket : '[' ∉ p.source.toList) (h : p.isMatch path = true) :
    FitsAlong (p.glob.toList.splitOn '/') (path.toList.splitOn '/') := by
  have hglob := bracket_notMem_glob hbracket
  rw [toList_glob] at hglob ⊢
  exact (fitsOpen_of_covers (covers_merged (covers_of_isMatch h)) (isChain_merged halone) hglob
    p.named_notMem_widened).1

end Pattern
end DocGraph
