import DocGraph.Proofs.Pattern.Names

/-!
# DocGraph.Proofs.Pattern.Reading

Readings of a text along the tokens of a pattern.

* `Takes found piece t` — the token `t` can stand for `piece` behind the values in `found`.
* `Reads ts found q f`  — `q` is cut into one such piece per token, and `f` holds all values then.
* `mem_lengths`   — a token takes exactly the lengths of such pieces.
* `cut_sound`, `cut_complete` — a search ends with a reading, and finds one if there is any.
* `Reads.names`   — the values are those of the named wildcards, in order of first appearance.
* `Reads.noSlash` — values have no slashes.
-/

namespace DocGraph
namespace Pattern

/-- What a token can stand for. -/
def Takes (found : Found) (piece : List Char) : Token → Prop
  | .literal s => piece = s.toList
  | .single => ∃ c, c ≠ '/' ∧ piece = [c]
  | .star => '/' ∉ piece
  | .globStar => '\n' ∉ piece
  | .charClass negated body =>
    ∃ c, ((CharClass.read? body).any fun k => k.accepts c != negated) = true ∧ piece = [c]
  | .named name =>
    match value? found name with
    | some v => piece = v
    | none => '/' ∉ piece

/-- A reading of a text along tokens. -/
inductive Reads : List Token → Found → List Char → Found → Prop where
  | nil {found : Found} : Reads [] found [] found
  | cons {t : Token} {ts : List Token} {found f : Found} {piece rest : List Char}
      (h : Takes found piece t) (hr : Reads ts (record found piece t) rest f) :
      Reads (t :: ts) found (piece ++ rest) f

/-! ## Lengths and pieces -/

theorem mem_downFrom {k n : Nat} : n ∈ downFrom k ↔ n ≤ k := by
  induction k with
  | zero => simp [downFrom]
  | succ k ih =>
    rw [downFrom, List.mem_cons, ih]
    omega

theorem le_reach {c : Char} {q : List Char} {n : Nat} :
    n ≤ reach c q ↔ n ≤ q.length ∧ c ∉ q.take n := by
  induction q generalizing n with
  | nil => simp [reach]
  | cons a q ih =>
    cases n with
    | zero => simp
    | succ n =>
      by_cases ha : a = c
      · simp [reach, ha]
      · have hcons : reach c (a :: q) = reach c q + 1 := by
          simp [reach, ha]
        rw [hcons, Nat.add_le_add_iff_right, ih, List.length_cons, Nat.add_le_add_iff_right,
          List.take_succ_cons, List.mem_cons, not_or]
        constructor
        · rintro ⟨hn, hc⟩
          exact ⟨hn, Ne.symm ha, hc⟩
        · rintro ⟨hn, _, hc⟩
          exact ⟨hn, hc⟩

theorem mem_downFrom_reach {c : Char} {q : List Char} {n : Nat} :
    n ∈ downFrom (reach c q) ↔ n ≤ q.length ∧ c ∉ q.take n :=
  mem_downFrom.trans le_reach

theorem mem_exactly {s q : List Char} {n : Nat} :
    n ∈ exactly s q ↔ n ≤ q.length ∧ q.take n = s := by
  rw [exactly]
  split
  · next h =>
    obtain ⟨r, rfl⟩ := List.isPrefixOf_iff_prefix.1 h
    rw [List.mem_singleton]
    constructor
    · rintro rfl
      simp
    · rintro ⟨hn, hs⟩
      have hlen := congrArg List.length hs
      rw [List.length_take] at hlen
      omega
  · next h =>
    constructor
    · intro hn
      cases hn
    · rintro ⟨_, rfl⟩
      exact absurd (List.isPrefixOf_iff_prefix.2 (List.take_prefix n q)) h

theorem mem_oneIf {p : Char → Bool} {q : List Char} {n : Nat} :
    n ∈ oneIf p q ↔ n ≤ q.length ∧ ∃ c, p c = true ∧ q.take n = [c] := by
  cases q with
  | nil => simp [oneIf]
  | cons a q =>
    have htake : ∀ c, (a :: q).take n = [c] ∧ n ≤ (a :: q).length ↔ n = 1 ∧ a = c := by
      intro c
      cases n with
      | zero => simp
      | succ n =>
        cases n with
        | zero => simp
        | succ n =>
          cases q with
          | nil => simp
          | cons b q => simp
    by_cases ha : p a = true
    · rw [oneIf, if_pos ha, List.mem_singleton]
      constructor
      · rintro rfl
        exact ⟨by simp, a, ha, by simp⟩
      · rintro ⟨hn, c, _, hc⟩
        exact ((htake c).1 ⟨hc, hn⟩).1
    · rw [oneIf, if_neg ha]
      constructor
      · intro h
        cases h
      · rintro ⟨hn, c, hp, hc⟩
        rw [← ((htake c).1 ⟨hc, hn⟩).2] at hp
        exact absurd hp ha

/-- A token takes exactly the lengths of the pieces that it can stand for. -/
theorem mem_lengths {found : Found} {q : List Char} {t : Token} {n : Nat} :
    n ∈ lengths found q t ↔ n ≤ q.length ∧ Takes found (q.take n) t := by
  cases t with
  | literal s => exact mem_exactly
  | single =>
    rw [lengths, mem_oneIf, Takes]
    simp only [bne_iff_ne]
  | star => exact mem_downFrom_reach
  | globStar => exact mem_downFrom_reach
  | charClass negated body => exact mem_oneIf
  | named name =>
    rw [lengths, Takes]
    cases value? found name with
    | none => exact mem_downFrom_reach
    | some v => exact mem_exactly

/-! ## Searches and readings -/

/-- A search ends with a reading. -/
theorem cut_sound {ts : List Token} {found f : Found} {q : List Char}
    (h : cut ts found q = some f) : Reads ts found q f := by
  induction ts generalizing found q with
  | nil =>
    rw [cut] at h
    split at h
    · next hq =>
      rw [List.isEmpty_iff] at hq
      cases h
      rw [hq]
      exact .nil
    · cases h
  | cons t ts ih =>
    rw [cut] at h
    obtain ⟨n, hn, hcut⟩ := List.exists_of_findSome?_eq_some h
    have hr := Reads.cons (mem_lengths.1 hn).2 (ih hcut)
    rwa [List.take_append_drop] at hr

/-- A search finds a reading if there is any. -/
theorem cut_complete {ts : List Token} {found f : Found} {q : List Char}
    (h : Reads ts found q f) : (cut ts found q).isSome = true := by
  induction h with
  | nil => rfl
  | @cons t ts found f piece rest ht hr ih =>
    rw [cut, List.findSome?_isSome_iff]
    refine ⟨piece.length, mem_lengths.2 ⟨by simp, ?_⟩, ?_⟩
    · rwa [List.take_left]
    · rwa [List.take_left, List.drop_left]

theorem cut_isSome_iff {ts : List Token} {found : Found} {q : List Char} :
    (cut ts found q).isSome = true ↔ ∃ f, Reads ts found q f := by
  constructor
  · intro h
    obtain ⟨f, hf⟩ := Option.isSome_iff_exists.1 h
    exact ⟨f, cut_sound hf⟩
  · rintro ⟨f, hf⟩
    exact cut_complete hf

theorem value?_isSome {found : Found} {name : String} :
    (value? found name).isSome = true ↔ name ∈ found.map Prod.fst := by
  rw [value?, List.lookup_isSome_iff, List.mem_map]
  constructor
  · rintro ⟨e, he, hk⟩
    exact ⟨e, he, (beq_iff_eq.1 hk).symm⟩
  · rintro ⟨e, he, hk⟩
    exact ⟨e, he, beq_iff_eq.2 hk.symm⟩

theorem takes_of_known {found : Found} {piece v : List Char} {name : String}
    (h : value? found name = some v) : Takes found piece (.named name) ↔ piece = v := by
  rw [Takes, h]

theorem takes_of_unknown {found : Found} {piece : List Char} {name : String}
    (h : value? found name = none) : Takes found piece (.named name) ↔ '/' ∉ piece := by
  rw [Takes, h]

theorem record_of_known {found : Found} {piece : List Char} {name : String}
    (h : (value? found name).isSome = true) : record found piece (.named name) = found := by
  rw [record, if_pos h]

theorem record_of_unknown {found : Found} {piece : List Char} {name : String}
    (h : value? found name = none) :
    record found piece (.named name) = found ++ [(name, piece)] := by
  rw [record, if_neg (by simp [h])]

/-- Values are added at the end only. -/
theorem record_extends (found : Found) (piece : List Char) (t : Token) :
    found <+: record found piece t := by
  cases t with
  | named name =>
    cases h : value? found name with
    | none =>
      rw [record_of_unknown h]
      exact List.prefix_append _ _
    | some v =>
      have hknown : record found piece (.named name) = found := record_of_known (by simp [h])
      exact ⟨[], by rw [hknown, List.append_nil]⟩
  | _ => exact List.prefix_rfl

/-- The names that are seen are those that have a value. -/
theorem mem_seen_record {found : Found} {piece : List Char} {t : Token} (name : String) :
    name ∈ t.name?.toList ++ found.map Prod.fst ↔
      name ∈ (record found piece t).map Prod.fst := by
  cases t with
  | named name' =>
    cases hv : value? found name' with
    | none =>
      rw [record_of_unknown hv]
      simp [Token.name?, or_comm]
    | some v =>
      have hsome : (value? found name').isSome = true := by simp [hv]
      have hold := value?_isSome.1 hsome
      rw [record_of_known hsome, List.mem_append]
      refine or_iff_right_of_imp fun h => ?_
      rw [List.mem_singleton.1 h]
      exact hold
  | _ => rfl

theorem Reads.extends_found {ts : List Token} {found f : Found} {q : List Char}
    (h : Reads ts found q f) : found <+: f := by
  induction h with
  | nil => exact List.prefix_rfl
  | cons _ _ ih => exact (record_extends _ _ _).trans ih

/-- The values are those of the named wildcards, in order of first appearance. -/
theorem Reads.names {ts : List Token} {found f : Found} {q : List Char}
    (h : Reads ts found q f) :
    f.map Prod.fst =
      found.map Prod.fst ++ firsts (found.map Prod.fst) (ts.filterMap Token.name?) := by
  induction h with
  | nil => simp [firsts]
  | @cons t ts found f piece rest ht hr ih =>
    rw [ih]
    cases t with
    | named name =>
      rw [show List.filterMap Token.name? (.named name :: ts) =
        name :: ts.filterMap Token.name? from rfl, firsts]
      cases hv : value? found name with
      | none =>
        have hnew : name ∉ found.map Prod.fst := by
          rw [← value?_isSome, hv]
          exact Bool.false_ne_true
        rw [record_of_unknown hv, if_neg hnew, List.map_append, List.append_assoc]
        refine congrArg (_ ++ name :: ·) (firsts_congr ?_ _)
        intro s
        simp [or_comm]
      | some v =>
        have hold : (value? found name).isSome = true := by simp [hv]
        rw [record_of_known hold, if_pos (value?_isSome.1 hold)]
    | _ => rfl

/-- Values have no slashes. -/
theorem Reads.noSlash {ts : List Token} {found f : Found} {q : List Char}
    (h : Reads ts found q f) (hfound : ∀ e ∈ found, '/' ∉ e.2) : ∀ e ∈ f, '/' ∉ e.2 := by
  induction h with
  | nil => exact hfound
  | @cons t ts found f piece rest ht hr ih =>
    refine ih ?_
    cases t with
    | named name =>
      cases hv : value? found name with
      | none =>
        rw [record_of_unknown hv]
        intro e he
        rcases List.mem_append.1 he with he | he
        · exact hfound e he
        · cases List.mem_singleton.1 he
          simpa [Takes, hv] using ht
      | some v =>
        rw [record_of_known (by simp [hv])]
        exact hfound
    | _ => exact hfound

end Pattern
end DocGraph
