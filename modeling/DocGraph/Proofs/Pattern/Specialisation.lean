import DocGraph.Proofs.Pattern.Greedy

/-!
# DocGraph.Proofs.Pattern.Specialisation

What a pattern matches once values stand in place of some of its named wildcards.

* `GivesValues`    — a decomposition has, at every name of a binding, the value from there.
* `decomposes_map_bindToken` — with values in place, the decompositions left are these.
* `choices_map_bindToken_lt` — two of them compare by the other choices as they did by all.
* `GreedyFor.map_bindToken`  — so the greedy decomposition stays if it is among them.
* `captures_bind_restrict`   — and putting values in place that a match gave moves no other one.
* `bind_specialises` — all that binding does to matches.
-/

namespace DocGraph
namespace Pattern

/-- Every name that the binding has stands for its value there. -/
def GivesValues (b : Binding) (ts : List Token) (pieces : List (List Char)) : Prop :=
  ∀ name piece v, (.named name, piece) ∈ ts.zip pieces → b.get? name = some v → piece = v.toList

variable {b : Binding} {ts : List Token} {q : List Char} {pieces other : List (List Char)}

/-! ## Decompositions -/

theorem bindToken_eq_named_iff {t : Token} {name : String} :
    bindToken b t = .named name ↔ t = .named name ∧ b.get? name = none := by
  cases t with
  | named n =>
    cases hn : b.get? n with
    | some v =>
      rw [bindToken_of_some hn]
      refine ⟨nofun, ?_⟩
      rintro ⟨h, hnone⟩
      cases h
      rw [hn] at hnone
      cases hnone
    | none =>
      rw [bindToken_of_none hn]
      refine ⟨fun h => ⟨h, ?_⟩, And.left⟩
      cases h
      exact hn
  | _ => exact ⟨nofun, fun h => nomatch h.1⟩

theorem mem_zip_map_bindToken {name : String} {piece : List Char} :
    (.named name, piece) ∈ (ts.map (bindToken b)).zip pieces ↔
      (.named name, piece) ∈ ts.zip pieces ∧ b.get? name = none := by
  rw [List.zip_map_left, List.mem_map]
  constructor
  · rintro ⟨⟨t, piece'⟩, hmem, heq⟩
    obtain ⟨ht, rfl⟩ := Prod.mk.inj heq
    obtain ⟨rfl, hnone⟩ := bindToken_eq_named_iff.1 ht
    exact ⟨hmem, hnone⟩
  · rintro ⟨hmem, hnone⟩
    exact ⟨_, hmem, Prod.ext (bindToken_of_none hnone) rfl⟩

/-- A token with its value in place stands for that value, and any other one for what it did. -/
theorem takes_bindToken_iff (hslash : ∀ name v, b.get? name = some v → '/' ∉ v.toList)
    {t : Token} {piece : List Char} :
    Takes [] piece (bindToken b t) ↔ Takes [] piece t ∧
      ∀ name v, t = .named name → b.get? name = some v → piece = v.toList := by
  cases t with
  | named n =>
    rw [takes_of_unknown rfl]
    cases hn : b.get? n with
    | some v =>
      rw [bindToken_of_some hn]
      constructor
      · intro h
        have hpiece : piece = v.toList := h
        refine ⟨hpiece ▸ hslash n v hn, fun name w hname hw => ?_⟩
        cases hname
        rw [hn, Option.some_inj] at hw
        rw [hpiece, hw]
      · rintro ⟨-, h⟩
        exact h n v rfl hn
    | none =>
      rw [bindToken_of_none hn, takes_of_unknown rfl]
      refine (and_iff_left fun name w hname hw => ?_).symm
      cases hname
      rw [hn] at hw
      cases hw
  | _ => exact (and_iff_left nofun).symm

/-- With values in place, what is left are the decompositions that have them at these names. -/
theorem decomposes_map_bindToken (hslash : ∀ name v, b.get? name = some v → '/' ∉ v.toList) :
    Decomposes (ts.map (bindToken b)) q pieces ↔
      Decomposes ts q pieces ∧ GivesValues b ts pieces := by
  constructor
  · rintro ⟨hjoined, htaken, hagree⟩
    rw [List.forall₂_map_left_iff, List.forall₂_iff_zip] at htaken
    have hgives : GivesValues b ts pieces := fun name piece v hmem =>
      ((takes_bindToken_iff hslash).1 (htaken.2 hmem)).2 name v rfl
    refine ⟨⟨hjoined, List.forall₂_iff_zip.2 ⟨htaken.1, fun hmem => ?_⟩, ?_⟩, hgives⟩
    · exact ((takes_bindToken_iff hslash).1 (htaken.2 hmem)).1
    · intro name piece piece' hmem hmem'
      cases hname : b.get? name with
      | some v => rw [hgives name piece v hmem hname, hgives name piece' v hmem' hname]
      | none =>
        exact hagree name piece piece' (mem_zip_map_bindToken.2 ⟨hmem, hname⟩)
          (mem_zip_map_bindToken.2 ⟨hmem', hname⟩)
  · rintro ⟨⟨hjoined, htaken, hagree⟩, hgives⟩
    rw [List.forall₂_iff_zip] at htaken
    refine ⟨hjoined, ?_, ?_⟩
    · rw [List.forall₂_map_left_iff, List.forall₂_iff_zip]
      refine ⟨htaken.1, fun hmem => (takes_bindToken_iff hslash).2 ⟨htaken.2 hmem, ?_⟩⟩
      rintro name v rfl hname
      exact hgives name _ v hmem hname
    · intro name piece piece' hmem hmem'
      exact hagree name piece piece' (mem_zip_map_bindToken.1 hmem).1
        (mem_zip_map_bindToken.1 hmem').1

theorem GivesValues.tail {t : Token} {piece : List Char}
    (h : GivesValues b (t :: ts) (piece :: pieces)) : GivesValues b ts pieces :=
  fun name piece' v hmem => h name piece' v (List.mem_cons_of_mem _ hmem)

/-! ## Choices -/

/-- The first token decides if it is free to choose and chooses differently, else the others do. -/
theorem choices_cons_lt_iff {seen : List String} {t : Token} {piece piece' : List Char} :
    choices seen (t :: ts) (piece' :: other) < choices seen (t :: ts) (piece :: pieces) ↔
      isFree seen t = true ∧ piece'.length < piece.length ∨
        (isFree seen t = true → piece'.length = piece.length) ∧
          choices (t.name?.toList ++ seen) ts other <
            choices (t.name?.toList ++ seen) ts pieces := by
  rw [choices, choices]
  cases isFree seen t with
  | true => simp [List.cons_lt_cons_iff]
  | false => simp

/-- Two decompositions that have the values of a binding compare by the other choices as they did by
all of them. -/
theorem choices_map_bindToken_lt {seen seen' : List String}
    (hseen : ∀ name, b.get? name = none → (name ∈ seen ↔ name ∈ seen'))
    (hlength : other.length = pieces.length)
    (hother : GivesValues b ts other) (hpieces : GivesValues b ts pieces)
    (h : choices seen ts other < choices seen ts pieces) :
    choices seen' (ts.map (bindToken b)) other < choices seen' (ts.map (bindToken b)) pieces := by
  induction ts generalizing seen seen' other pieces with
  | nil => exact absurd h (List.lt_irrefl _)
  | cons t ts ih =>
    cases other with
    | nil =>
      rw [List.length_eq_zero_iff.1 hlength.symm] at h
      exact absurd h (List.lt_irrefl _)
    | cons piece' other =>
      cases pieces with
      | nil => cases hlength
      | cons piece pieces =>
        have hrest := Nat.succ.inj hlength
        rw [choices_cons_lt_iff] at h
        rw [List.map_cons, choices_cons_lt_iff]
        by_cases hbound : ∃ name v, t = .named name ∧ b.get? name = some v
        · -- both have the value here, so the other tokens decided and still do
          obtain ⟨name, v, rfl, hv⟩ := hbound
          have hsame : piece' = piece := by
            rw [hother name piece' v List.mem_cons_self hv,
              hpieces name piece v List.mem_cons_self hv]
          have hlt := (h.resolve_left fun hhead => by rw [hsame] at hhead; omega).2
          rw [bindToken_of_some hv]
          refine .inr ⟨nofun, ih (fun n hn => ?_) hrest hother.tail hpieces.tail hlt⟩
          have hne : n ≠ name := by
            rintro rfl
            rw [hv] at hn
            cases hn
          simp [Token.name?, hne, hseen n hn]
        · have hkept : bindToken b t = t := by
            cases t with
            | named name =>
              refine bindToken_of_none (Option.eq_none_iff_forall_ne_some.2 fun v hv => ?_)
              exact hbound ⟨name, v, rfl, hv⟩
            | _ => rfl
          have hfree : isFree seen' t = isFree seen t := by
            cases t with
            | named name => simp [isFree, hseen name (bindToken_eq_named_iff.1 hkept).2]
            | _ => rfl
          rw [hkept, hfree]
          refine h.imp_right (And.imp_right ?_)
          refine ih (fun n hn => ?_) hrest hother.tail hpieces.tail
          rw [List.mem_append, List.mem_append, hseen n hn]

/-- The greedy decomposition stays greedy with values in place if it has them. -/
theorem GreedyFor.map_bindToken (hslash : ∀ name v, b.get? name = some v → '/' ∉ v.toList)
    (h : GreedyFor ts q pieces) (hgives : GivesValues b ts pieces) :
    GreedyFor (ts.map (bindToken b)) q pieces := by
  refine ⟨(decomposes_map_bindToken hslash).2 ⟨h.decomposes, hgives⟩, fun other hother => ?_⟩
  obtain ⟨hother, hgives'⟩ := (decomposes_map_bindToken hslash).1 hother
  refine (h.greatest other hother).imp_right ?_
  refine choices_map_bindToken_lt (fun _ _ => Iff.rfl) ?_ hgives' hgives
  rw [← hother.taken.length_eq, ← h.decomposes.taken.length_eq]

/-! ## Matches -/

theorem isMatch_bind_iff (p : Pattern) (path : String)
    (hslash : ∀ name v, b.get? name = some v → '/' ∉ v.toList) :
    (p.bind b).isMatch path = true ↔
      ∃ pieces, Decomposes p.tokens path.toList pieces ∧ GivesValues b p.tokens pieces := by
  rw [isMatch, captures_bind, Option.isSome_map]
  constructor
  · intro h
    obtain ⟨f, hf⟩ := Option.isSome_iff_exists.1 h
    obtain ⟨pieces, hgreedy, -⟩ := exists_greedyFor hf
    exact ⟨pieces, (decomposes_map_bindToken hslash).1 hgreedy.decomposes⟩
  · rintro ⟨pieces, h⟩
    exact cut_isSome_of_decomposes ((decomposes_map_bindToken hslash).2 h)

/-- A reading finds the values of a binding if its pieces are these. -/
theorem givesValues_iff {c : Binding} {f : Found} (h : ReadsBy ts [] pieces f)
    (hc : ∀ e ∈ f, (c.get? e.1).isSome = true) :
    GivesValues c ts pieces ↔ f.map (fun e => String.ofList e.2) = c.values (f.map Prod.fst) := by
  rw [Binding.values, List.map_map]
  constructor
  · intro hgives
    refine List.map_congr_left fun e he => ?_
    have hpiece := hgives e.1 e.2 _ ((h.mem_zip he).resolve_left List.not_mem_nil)
      (Binding.get?_eq_value (hc e he))
    rw [hpiece, String.ofList_toList, Function.comp_apply]
  · intro hvalues name piece v hmem hv
    obtain ⟨l₁, l₂, rfl, -⟩ := List.lookup_eq_some_iff.1 (h.value?_eq hmem)
    have hvalue := List.map_inj_left.1 hvalues (name, piece) (by simp)
    rw [Function.comp_apply, Binding.value, hv, Option.getD_some] at hvalue
    rw [← hvalue, String.toList_ofList]

theorem noSlash_of_captures {p : Pattern} {path : String} {c : Binding} (hc : c.Covers p.names)
    (h : p.captures path = some (c.values p.names)) {name v : String} (hv : c.get? name = some v) :
    '/' ∉ v.toList := by
  have hname : name ∈ p.names := (hc name).1 (by rw [hv]; rfl)
  refine captures_noSlash h (List.mem_map.2 ⟨name, hname, ?_⟩)
  rw [Binding.value, hv, Option.getD_some]

theorem names_bind_restrict {p : Pattern} {c : Binding} (hc : c.Covers p.names)
    (chosen : List String) :
    (p.bind (c.restrict chosen)).names = p.names.filter fun name => name ∉ chosen := by
  rw [names_bind]
  refine List.filter_congr fun name hname => ?_
  obtain ⟨v, hv⟩ := Option.isSome_iff_exists.1 ((hc name).2 hname)
  rw [Binding.get?_restrict, hv]
  by_cases h : name ∈ chosen <;> simp [h]

/-- Putting values in place that a match gave moves none of the others. -/
theorem captures_bind_restrict {p : Pattern} {path : String} {c : Binding}
    (hc : c.Covers p.names) (h : p.captures path = some (c.values p.names))
    (chosen : List String) :
    (p.bind (c.restrict chosen)).captures path =
      some (c.values (p.names.filter fun name => name ∉ chosen)) := by
  obtain ⟨f, hf, hvalues⟩ := Option.map_eq_some_iff.1 h
  obtain ⟨pieces, hgreedy, hreads⟩ := exists_greedyFor hf
  have hnames : f.map Prod.fst = p.names := hreads.reads.names
  have hgives : GivesValues c p.tokens pieces := by
    refine (givesValues_iff hreads fun e he => ?_).2 (hnames ▸ hvalues)
    exact (hc e.1).2 (hnames ▸ List.mem_map_of_mem he)
  have hpart : ∀ name v, (c.restrict chosen).get? name = some v → c.get? name = some v := by
    intro name v hv
    rw [Binding.get?_restrict] at hv
    exact (Option.ite_none_right_eq_some.1 hv).2
  have hbound : GreedyFor (p.tokens.map (bindToken (c.restrict chosen))) path.toList pieces :=
    hgreedy.map_bindToken (fun name v hv => noSlash_of_captures hc h (hpart name v hv))
      fun name piece v hmem hv => hgives name piece v hmem (hpart name v hv)
  -- the search with values in place ends with this decomposition too, for there is only one such
  obtain ⟨g, hg⟩ := Option.isSome_iff_exists.1 (cut_isSome_of_decomposes hbound.decomposes)
  obtain ⟨pieces', hgreedy', hreads'⟩ := exists_greedyFor hg
  rw [hbound.unique hgreedy'] at hreads'
  have hleft : g.map Prod.fst = p.names.filter fun name => name ∉ chosen := by
    rw [← names_bind_restrict hc, names, tokens_bind, name?_joinLiterals]
    exact hreads'.reads.names
  rw [captures_bind, hg, Option.map_some, ← hleft]
  refine congrArg some ((givesValues_iff hreads' fun e he => ?_).1 ?_)
  · have hmem : e.1 ∈ g.map Prod.fst := List.mem_map_of_mem he
    rw [hleft] at hmem
    exact (hc e.1).2 (List.mem_of_mem_filter hmem)
  · exact fun name piece v hmem => hgives name piece v (mem_zip_map_bindToken.1 hmem).1

/-- The values of some of the names that a binding was put together from. -/
theorem values_filter_ofPairs {names vals : List String} (hn : names.Nodup)
    (hl : vals.length = names.length) (keep : String → Bool) :
    Binding.values (Table.ofPairs (names.zip vals)) (names.filter keep) =
      ((names.zip vals).filter fun e => keep e.1).map Prod.snd := by
  have hfst : (names.zip vals).map Prod.fst = names := List.map_fst_zip (by omega)
  have hkept : names.filter keep = ((names.zip vals).filter fun e => keep e.1).map Prod.fst := by
    conv_lhs => rw [← hfst, List.filter_map]
    rfl
  rw [hkept, Binding.values, List.map_map]
  refine List.map_congr_left fun e he => ?_
  have hget := (Table.get?_ofPairs (by rwa [hfst])).2 (List.mem_of_mem_filter he)
  rw [Function.comp_apply, Binding.value, hget, Option.getD_some]

/-- Binding compiles, and leaves the names without a value. A path matches if one of its
decompositions along the pattern has the values. If they are values that the pattern itself gives a
path, they leave the other ones there as they are. -/
theorem bind_specialises (p : Pattern) (path : String) :
    (∀ b : Binding, (∀ name v, b.get? name = some v → '/' ∉ v.toList) →
      ofTokens (p.bind b).source (joinLiterals (p.tokens.map (bindToken b))) = .ok (p.bind b) ∧
      (p.bind b).names = p.names.filter (fun name => (b.get? name).isNone) ∧
      ((p.bind b).isMatch path = true ↔
        ∃ pieces, Decomposes p.tokens path.toList pieces ∧ GivesValues b p.tokens pieces)) ∧
    ∀ vals, p.captures path = some vals → ∀ chosen : List String,
      (p.bind (Binding.restrict (Table.ofPairs (p.names.zip vals)) chosen)).captures path =
        some (((p.names.zip vals).filter fun e => e.1 ∉ chosen).map Prod.snd) := by
  constructor
  · intro b hslash
    refine ⟨?_, names_bind p b, isMatch_bind_iff p path hslash⟩
    rw [ofTokens, ← tokens_bind, dif_pos (p.bind b).readable]
  · intro vals h chosen
    have hlength := captures_length h
    have hvalues := Binding.values_ofPairs p.nodup_names hlength
    rw [captures_bind_restrict (Binding.covers_ofPairs p.nodup_names hlength) (by rwa [hvalues]),
      values_filter_ofPairs p.nodup_names hlength]

/-- Two names around a hyphen, the first of which takes as many hyphens as it can. -/
def hyphenated : Pattern := ⟨[.named "x", .literal "-", .named "y"], by decide⟩

/-- A value that looks like a wildcard is text, and one that a match gave leaves the other as it
is. -/
theorem bind_specialises_hyphenated :
    (∃ pieces, Decomposes hyphenated.tokens "*-b".toList pieces ∧
      GivesValues (Table.ofPairs [("x", "*")]) hyphenated.tokens pieces) ∧
    (¬∃ pieces, Decomposes hyphenated.tokens "a-b".toList pieces ∧
      GivesValues (Table.ofPairs [("x", "*")]) hyphenated.tokens pieces) ∧
    hyphenated.captures "a-b-c" = some ["a-b", "c"] ∧
    (hyphenated.bind (Binding.restrict (Table.ofPairs [("x", "a-b"), ("y", "c")]) ["y"])).captures
      "a-b-c" = some ["a-b"] := by
  have hstar : ∀ name v, Table.get? (Table.ofPairs [("x", "*")]) name = some v →
      '/' ∉ v.toList := by
    intro name v hv
    cases List.mem_singleton.1 ((Table.get?_ofPairs (by decide)).1 hv)
    decide
  have hcaptures : hyphenated.captures "a-b-c" = some ["a-b", "c"] := by decide +kernel
  refine ⟨?_, ?_, hcaptures, ?_⟩
  · exact (((bind_specialises hyphenated "*-b").1 _ hstar).2.2).1 (by decide +kernel)
  · rw [← ((bind_specialises hyphenated "a-b").1 _ hstar).2.2]
    decide +kernel
  · exact (bind_specialises hyphenated "a-b-c").2 _ hcaptures ["y"]

end Pattern
end DocGraph
