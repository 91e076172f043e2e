import DocGraph.Proofs.Pattern.Reading

/-!
# DocGraph.Proofs.Pattern.Binding

Values in place of named wildcards.

* `joinLiterals`     — tokens without empty and neighbouring literals, as `bind` leaves them.
* `cut_joinLiterals` — which texts match, and what is found, does not depend on them.
* `bind_bind`        — binding twice is binding once, the first values counting.
* `names_bind`       — the names that are left.
* `captures_length`, `captures_noSlash` — a match has one value per name, and no value has a slash.
* `Reads.bind`, `isMatch_bind` — values that were found are right once they are put in place.
* `Reads.unbind`, `isMatch_of_bind` — with values in place, nothing else matches.
-/

namespace DocGraph
namespace Pattern

/-! ## Literals -/

/-- Tokens without empty and neighbouring literals. -/
def joinLiterals (ts : List Token) : List Token := ts.foldr consToken []

theorem joinLiterals_cons (t : Token) (ts : List Token) :
    joinLiterals (t :: ts) = consToken t (joinLiterals ts) := rfl

theorem tokens_bind (p : Pattern) (b : Binding) :
    (p.bind b).tokens = joinLiterals (p.tokens.map (bindToken b)) := by
  rw [joinLiterals, List.foldr_map]
  rfl

theorem consToken_empty (ts : List Token) : consToken (.literal "") ts = ts := rfl

theorem consToken_join {s : String} (hs : s ≠ "") (r : String) (ts : List Token) :
    consToken (.literal s) (.literal r :: ts) = .literal (s ++ r) :: ts := by
  rw [consToken, if_neg (by rwa [String.isEmpty_iff])]

theorem consToken_of_not_literal {s : String} (hs : s ≠ "") {ts : List Token}
    (h : ∀ r ts', ts ≠ .literal r :: ts') : consToken (.literal s) ts = .literal s :: ts := by
  rw [consToken, if_neg (by rwa [String.isEmpty_iff])]
  exact h

/-- What a token in front of tokens comes to. -/
theorem consToken_cases (t : Token) (ts : List Token) :
    (t = .literal "" ∧ consToken t ts = ts) ∨
    (∃ s r ts', s ≠ "" ∧ t = .literal s ∧ ts = .literal r :: ts' ∧
      consToken t ts = .literal (s ++ r) :: ts') ∨
    consToken t ts = t :: ts := by
  cases t with
  | literal s =>
    by_cases hs : s = ""
    · subst hs
      exact .inl ⟨rfl, rfl⟩
    · by_cases h : ∃ r ts', ts = .literal r :: ts'
      · obtain ⟨r, ts', rfl⟩ := h
        exact .inr (.inl ⟨s, r, ts', hs, rfl, rfl, consToken_join hs r ts'⟩)
      · refine .inr (.inr (consToken_of_not_literal hs ?_))
        intro r ts' he
        exact h ⟨r, ts', he⟩
  | _ => exact .inr (.inr rfl)

theorem cut_literal (s : String) (ts : List Token) (found : Found) (q : List Char) :
    cut (.literal s :: ts) found q =
      if s.toList.isPrefixOf q then cut ts found (q.drop s.toList.length) else none := by
  rw [cut, lengths, exactly]
  split
  · rw [List.findSome?_singleton]
    rfl
  · rfl

/-- A literal can be cut in two. -/
theorem cut_literal_append (s r : String) (ts : List Token) (found : Found) (q : List Char) :
    cut (.literal (s ++ r) :: ts) found q = cut (.literal s :: .literal r :: ts) found q := by
  rw [cut_literal, cut_literal, String.toList_append]
  by_cases hs : s.toList.isPrefixOf q = true
  · obtain ⟨q, rfl⟩ := List.isPrefixOf_iff_prefix.1 hs
    rw [if_pos hs, List.drop_left, cut_literal, List.length_append, ← List.drop_drop,
      List.drop_left]
    have hsr : (s.toList ++ r.toList).isPrefixOf (s.toList ++ q) = r.toList.isPrefixOf q := by
      rw [Bool.eq_iff_iff, List.isPrefixOf_iff_prefix, List.isPrefixOf_iff_prefix,
        List.prefix_append_right_inj]
    rw [hsr]
  · have hsr : ¬(s.toList ++ r.toList).isPrefixOf q = true := by
      rw [List.isPrefixOf_iff_prefix] at hs ⊢
      exact fun h => hs ((List.prefix_append _ _).trans h)
    rw [if_neg hs, if_neg hsr]

theorem cut_consToken (t : Token) (ts : List Token) (found : Found) (q : List Char) :
    cut (consToken t ts) found q = cut (t :: ts) found q := by
  rcases consToken_cases t ts with ⟨rfl, h⟩ | ⟨s, r, ts', -, rfl, rfl, h⟩ | h
  · rw [h, cut_literal]
    rfl
  · rw [h, cut_literal_append]
  · rw [h]

/-- Which texts match, and what is found, does not depend on how literals are cut. -/
theorem cut_joinLiterals (ts : List Token) (found : Found) (q : List Char) :
    cut (joinLiterals ts) found q = cut ts found q := by
  induction ts generalizing found q with
  | nil => rfl
  | cons t ts ih =>
    rw [joinLiterals_cons, cut_consToken, cut, cut]
    simp only [ih]

theorem name?_consToken (t : Token) (ts : List Token) :
    (consToken t ts).filterMap Token.name? = (t :: ts).filterMap Token.name? := by
  rcases consToken_cases t ts with ⟨rfl, h⟩ | ⟨s, r, ts', -, rfl, rfl, h⟩ | h
  · rw [h]
    rfl
  · rw [h]
    rfl
  · rw [h]

theorem name?_joinLiterals (ts : List Token) :
    (joinLiterals ts).filterMap Token.name? = ts.filterMap Token.name? := by
  induction ts with
  | nil => rfl
  | cons t ts ih =>
    rw [joinLiterals_cons, name?_consToken, List.filterMap_cons, List.filterMap_cons, ih]

/-- A literal in front of a literal. -/
theorem consToken_consToken (s r : String) (ts : List Token) :
    consToken (.literal s) (consToken (.literal r) ts) = consToken (.literal (s ++ r)) ts := by
  by_cases hs : s = ""
  · subst hs
    rw [consToken_empty, String.empty_append]
  · by_cases hr : r = ""
    · subst hr
      rw [consToken_empty, String.append_empty]
    · have hsr : s ++ r ≠ "" := by
        intro h
        exact hs (String.append_eq_empty_iff.1 h).1
      by_cases h : ∃ r' ts', ts = .literal r' :: ts'
      · obtain ⟨r', ts', rfl⟩ := h
        rw [consToken_join hr, consToken_join hs, consToken_join hsr, String.append_assoc]
      · have hts : ∀ r' ts', ts ≠ .literal r' :: ts' := fun r' ts' he => h ⟨r', ts', he⟩
        rw [consToken_of_not_literal hr hts, consToken_join hs, consToken_of_not_literal hsr hts]

/-- Literals may be joined before or after other tokens are replaced. -/
theorem joinLiterals_map_consToken {g : Token → Token} (hg : ∀ s, g (.literal s) = .literal s)
    (t : Token) (ts : List Token) :
    joinLiterals ((consToken t ts).map g) = joinLiterals ((t :: ts).map g) := by
  rcases consToken_cases t ts with ⟨rfl, h⟩ | ⟨s, r, ts', -, rfl, rfl, h⟩ | h
  · rw [h, List.map_cons, hg, joinLiterals_cons, consToken_empty]
  · rw [h, List.map_cons, List.map_cons, List.map_cons, hg, hg, hg, joinLiterals_cons,
      joinLiterals_cons, joinLiterals_cons, consToken_consToken]
  · rw [h]

theorem joinLiterals_map {g : Token → Token} (hg : ∀ s, g (.literal s) = .literal s)
    (ts : List Token) : joinLiterals ((joinLiterals ts).map g) = joinLiterals (ts.map g) := by
  induction ts with
  | nil => rfl
  | cons t ts ih =>
    rw [joinLiterals_cons, joinLiterals_map_consToken hg, List.map_cons, joinLiterals_cons, ih,
      List.map_cons, joinLiterals_cons]

/-! ## Binding -/

theorem bindToken_literal (b : Binding) (s : String) :
    bindToken b (.literal s) = .literal s := rfl

theorem bindToken_of_some {b : Binding} {n v : String} (h : b.get? n = some v) :
    bindToken b (.named n) = .literal v := by
  rw [bindToken, h]

theorem bindToken_of_none {b : Binding} {n : String} (h : b.get? n = none) :
    bindToken b (.named n) = .named n := by
  rw [bindToken, h]

theorem bindToken_bindToken (s t : Binding) (k : Token) :
    bindToken t (bindToken s k) = bindToken (t.putMany s.toList) k := by
  cases k with
  | named n =>
    have hget : Table.get? (t.putMany s.toList) n = (s.get? n).or (t.get? n) :=
      Table.get?_putMany t s n
    cases hs : s.get? n with
    | some v =>
      rw [hs, Option.some_or] at hget
      rw [bindToken_of_some hs, bindToken_of_some hget, bindToken_literal]
    | none =>
      rw [hs, Option.none_or] at hget
      rw [bindToken_of_none hs, bindToken, bindToken, hget]
  | _ => rfl

theorem ext_tokens {p q : Pattern} (h : p.tokens = q.tokens) : p = q := by
  cases p
  cases q
  cases h
  rfl

/-- Binding twice is binding once, where the first values count. -/
theorem bind_bind (p : Pattern) (s t : Binding) :
    (p.bind s).bind t = p.bind (t.putMany s.toList) := by
  apply ext_tokens
  rw [tokens_bind, tokens_bind, tokens_bind, joinLiterals_map (bindToken_literal t), List.map_map]
  refine congrArg joinLiterals (List.map_congr_left ?_)
  intro k _
  exact bindToken_bindToken s t k

/-- Only the names of a pattern count. -/
theorem bind_congr {p : Pattern} {s t : Binding} (h : ∀ n ∈ p.names, s.get? n = t.get? n) :
    p.bind s = p.bind t := by
  apply ext_tokens
  rw [tokens_bind, tokens_bind]
  refine congrArg joinLiterals (List.map_congr_left ?_)
  intro k hk
  cases k with
  | named n =>
    have hn : n ∈ p.names := by
      rw [names, mem_firsts, List.mem_filterMap]
      exact ⟨⟨_, hk, rfl⟩, List.not_mem_nil⟩
    rw [bindToken, bindToken, h n hn]
  | _ => rfl

theorem name?_bindToken (b : Binding) (ts : List Token) :
    (ts.map (bindToken b)).filterMap Token.name? =
      (ts.filterMap Token.name?).filter fun n => (b.get? n).isNone := by
  induction ts with
  | nil => rfl
  | cons t ts ih =>
    cases t with
    | named n =>
      rw [show (Token.named n :: ts).filterMap Token.name? = n :: ts.filterMap Token.name? from rfl,
        List.map_cons]
      cases hb : b.get? n with
      | some v =>
        rw [bindToken_of_some hb, List.filter_cons_of_neg (by simp [hb])]
        exact ih
      | none =>
        rw [bindToken_of_none hb, List.filter_cons_of_pos (by simp [hb])]
        exact congrArg (n :: ·) ih
    | _ => exact ih

/-- Binding leaves the names without a value, in order. -/
theorem names_bind (p : Pattern) (b : Binding) :
    (p.bind b).names = p.names.filter fun n => (b.get? n).isNone := by
  rw [names, tokens_bind, name?_joinLiterals, name?_bindToken, firsts_filter fun _ _ => Iff.rfl]
  rfl

theorem captures_bind (p : Pattern) (b : Binding) (path : String) :
    (p.bind b).captures path =
      (cut (p.tokens.map (bindToken b)) [] path.toList).map fun found =>
        found.map fun e => String.ofList e.2 := by
  rw [captures, tokens_bind, cut_joinLiterals]

theorem map_bindToken_empty (ts : List Token) : ts.map (bindToken ∅) = ts := by
  rw [List.map_congr_left (g := id), List.map_id]
  intro k _
  cases k with
  | named n => rfl
  | _ => rfl

/-- Binding nothing changes nothing that matters. -/
theorem captures_bind_empty (p : Pattern) (path : String) :
    (p.bind ∅).captures path = p.captures path := by
  rw [captures_bind, map_bindToken_empty, captures]

/-! ## Values that were found -/

theorem names_of_captures {p : Pattern} {path : String} {vals : List String}
    (h : p.captures path = some vals) : ∃ f, Reads p.tokens [] path.toList f ∧
      f.map Prod.fst = p.names ∧ vals = f.map fun e => String.ofList e.2 := by
  obtain ⟨f, hf, rfl⟩ := Option.map_eq_some_iff.1 h
  exact ⟨f, cut_sound hf, (cut_sound hf).names, rfl⟩

/-- A match has one value per name. -/
theorem captures_length {p : Pattern} {path : String} {vals : List String}
    (h : p.captures path = some vals) : vals.length = p.names.length := by
  obtain ⟨f, -, hn, rfl⟩ := names_of_captures h
  rw [← hn, List.length_map, List.length_map]

/-- Values have no slashes. -/
theorem captures_noSlash {p : Pattern} {path : String} {vals : List String}
    (h : p.captures path = some vals) {v : String} (hv : v ∈ vals) : '/' ∉ v.toList := by
  obtain ⟨f, hf, -, rfl⟩ := names_of_captures h
  obtain ⟨e, he, rfl⟩ := List.mem_map.1 hv
  rw [String.toList_ofList]
  exact hf.noSlash (fun e he => absurd he List.not_mem_nil) e he

/-- The values of names that a binding lacks. -/
def unbound (b : Binding) (found : Found) : Found := found.filter fun e => (b.get? e.1).isNone

theorem value?_unbound {b : Binding} {n : String} (hb : b.get? n = none) (found : Found) :
    value? (unbound b found) n = value? found n := by
  induction found with
  | nil => rfl
  | cons e found ih =>
    rw [value?, value?] at ih
    by_cases he : n = e.1
    · subst he
      have hkept : unbound b (e :: found) = e :: unbound b found := by
        rw [unbound, List.filter_cons_of_pos (by simp [hb]), unbound]
      rw [hkept, value?, value?, List.lookup_cons_self, List.lookup_cons_self]
    · have hne : (n == e.1) = false := by simpa using he
      rw [value?, value?, List.lookup_cons, hne, unbound, List.filter_cons]
      split
      · rw [List.lookup_cons, hne]
        exact ih
      · exact ih

theorem unbound_record {b : Binding} (found : Found) (piece : List Char) {n : String}
    (hb : b.get? n = none) : unbound b (record found piece (.named n)) =
      record (unbound b found) piece (.named n) := by
  cases hv : value? found n with
  | none =>
    rw [record_of_unknown hv, record_of_unknown ((value?_unbound hb found).trans hv), unbound,
      List.filter_append, List.filter_cons_of_pos (by simp [hb])]
    rfl
  | some v =>
    rw [record_of_known (by simp [hv]), record_of_known (by simp [value?_unbound hb, hv])]

theorem unbound_record_of_some {b : Binding} (found : Found) (piece : List Char) {n v : String}
    (hb : b.get? n = some v) : unbound b (record found piece (.named n)) = unbound b found := by
  cases hv : value? found n with
  | none =>
    rw [record_of_unknown hv, unbound, List.filter_append, List.filter_cons_of_neg (by simp [hb])]
    exact List.append_nil _
  | some v => rw [record_of_known (by simp [hv])]

theorem value?_mono {found f : Found} (h : found <+: f) {n : String} {v : List Char}
    (hv : value? found n = some v) : value? f n = some v := by
  obtain ⟨g, rfl⟩ := h
  rw [value?, List.lookup_append, ← value?, hv, Option.some_or]

/-- What a named wildcard stands for is its value afterwards. -/
theorem value?_record {found : Found} {piece : List Char} {n : String}
    (h : Takes found piece (.named n)) : value? (record found piece (.named n)) n = some piece := by
  cases hv : value? found n with
  | none =>
    rw [record_of_unknown hv, value?, List.lookup_append, ← value?, hv, Option.none_or,
      List.lookup_cons_self]
  | some v =>
    rw [record_of_known (by simp [hv]), hv, (takes_of_known hv).1 h]

theorem value?_record_of_ne {n m : String} (h : m ≠ n) (found : Found) (piece : List Char) :
    value? (record found piece (.named n)) m = value? found m := by
  cases hv : value? found n with
  | none =>
    have hne : (m == n) = false := by simpa using h
    rw [record_of_unknown hv, value?, value?, List.lookup_append, List.lookup_cons, hne,
      List.lookup_nil, Option.or_none]
  | some v => rw [record_of_known (by simp [hv])]

/-- What a binding says of values that were found. -/
def Confirms (b : Binding) (found : Found) : Prop :=
  ∀ n v w, b.get? n = some v → value? found n = some w → w = v.toList

theorem Confirms.record {b : Binding} {found : Found} (h : Confirms b found) {piece : List Char}
    {n : String} (ht : Takes found piece (.named n))
    (hn : ∀ v, b.get? n = some v → piece = v.toList) :
    Confirms b (record found piece (.named n)) := by
  intro m v w hm hw
  by_cases he : m = n
  · subst he
    rw [value?_record ht, Option.some.injEq] at hw
    rw [← hw]
    exact hn v hm
  · rw [value?_record_of_ne he] at hw
    exact h m v w hm hw

/-- A reading stays one when values that it found are put in place. -/
theorem Reads.bind {b : Binding} {ts : List Token} {found f : Found} {q : List Char}
    (h : Reads ts found q f) (hb : Confirms b f) :
    Reads (ts.map (bindToken b)) (unbound b found) q (unbound b f) := by
  induction h with
  | nil => exact .nil
  | @cons t ts found f piece rest ht hr ih =>
    have ih := ih hb
    cases t with
    | named n =>
      rw [List.map_cons]
      cases hn : b.get? n with
      | some v =>
        have hpiece : piece = v.toList :=
          hb n v piece hn (value?_mono hr.extends_found (value?_record ht))
        rw [unbound_record_of_some found piece hn] at ih
        rw [bindToken_of_some hn]
        exact .cons hpiece ih
      | none =>
        rw [unbound_record found piece hn] at ih
        have htakes : Takes (unbound b found) piece (.named n) := by
          rw [Takes] at ht ⊢
          rw [value?_unbound hn]
          exact ht
        rw [bindToken_of_none hn]
        exact .cons htakes ih
    | _ => exact .cons ht ih

/-- A pattern matches a path still when the values that it found there are put in place. -/
theorem isMatch_bind {p : Pattern} {path : String} {b : Binding}
    (h : p.captures path = some (b.values p.names)) : (p.bind b).isMatch path = true := by
  obtain ⟨f, hf, hn, hv⟩ := names_of_captures h
  have hb : Confirms b f := by
    intro n v w hnv hnw
    obtain ⟨l₁, l₂, hl, -⟩ := List.lookup_eq_some_iff.1 hnw
    have hmem : (n, w) ∈ f := by
      rw [hl]
      exact List.mem_append_right _ List.mem_cons_self
    rw [← hn, Binding.values, List.map_map] at hv
    have hval : b.value n = String.ofList w := List.map_inj_left.1 hv (n, w) hmem
    rw [Binding.value, hnv] at hval
    rw [show v = String.ofList w from hval, String.toList_ofList]
  rw [isMatch, captures_bind, Option.isSome_map]
  exact cut_complete (hf.bind hb)

/-- A reading with values in place is one of the pattern itself, as far as wildcards can stand for
these values. -/
theorem Reads.unbind {b : Binding} (hslash : ∀ n v, b.get? n = some v → '/' ∉ v.toList)
    {ts : List Token} {found f : Found} {q : List Char}
    (h : Reads (ts.map (bindToken b)) (unbound b found) q f) (hfound : Confirms b found) :
    ∃ f', Reads ts found q f' ∧ unbound b f' = f := by
  induction ts generalizing found q with
  | nil =>
    cases h
    exact ⟨found, .nil, rfl⟩
  | cons t ts ih =>
    rw [List.map_cons] at h
    cases t with
    | named n =>
      cases hn : b.get? n with
      | some v =>
        rw [bindToken_of_some hn] at h
        cases h with
        | @cons _ _ _ _ piece rest ht hr =>
          have hpiece : piece = v.toList := ht
          have htakes : Takes found piece (.named n) := by
            cases hv : value? found n with
            | none =>
              rw [takes_of_unknown hv, hpiece]
              exact hslash n v hn
            | some w =>
              rw [takes_of_known hv, hpiece]
              exact (hfound n v w hn hv).symm
          have hconfirms : Confirms b (record found piece (.named n)) := by
            refine hfound.record htakes ?_
            intro v' hv'
            rw [hn, Option.some.injEq] at hv'
            rw [← hv', hpiece]
          have hrest : Reads (ts.map (bindToken b)) (unbound b found) rest f := hr
          rw [← unbound_record_of_some found piece hn] at hrest
          obtain ⟨f', hf', heq⟩ := ih hrest hconfirms
          exact ⟨f', .cons htakes hf', heq⟩
      | none =>
        rw [bindToken_of_none hn] at h
        cases h with
        | @cons _ _ _ _ piece rest ht hr =>
          have htakes : Takes found piece (.named n) := by
            rw [Takes] at ht ⊢
            rw [value?_unbound hn] at ht
            exact ht
          have hconfirms : Confirms b (record found piece (.named n)) := by
            refine hfound.record htakes ?_
            intro v' hv'
            rw [hn] at hv'
            cases hv'
          rw [← unbound_record found piece hn] at hr
          obtain ⟨f', hf', heq⟩ := ih hr hconfirms
          exact ⟨f', .cons htakes hf', heq⟩
    | _ =>
      cases h with
      | cons ht hr =>
        obtain ⟨f', hf', heq⟩ := ih hr hfound
        exact ⟨f', .cons ht hf', heq⟩

/-- With values without slashes in place, a pattern matches no other paths. -/
theorem isMatch_of_bind {p : Pattern} {b : Binding} {path : String}
    (hslash : ∀ n v, b.get? n = some v → '/' ∉ v.toList)
    (h : (p.bind b).isMatch path = true) : p.isMatch path = true := by
  rw [isMatch, captures_bind, Option.isSome_map, cut_isSome_iff] at h
  obtain ⟨f, hf⟩ := h
  have hnothing : Confirms b [] := by
    intro n v w _ hw
    cases hw
  obtain ⟨f', hf', -⟩ := Reads.unbind hslash hf hnothing
  rw [isMatch, captures, Option.isSome_map]
  exact cut_complete hf'

end Pattern
end DocGraph
