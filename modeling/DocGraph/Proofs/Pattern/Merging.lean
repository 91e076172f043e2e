import DocGraph.Pattern.Glob
import DocGraph.Proofs.Pattern.Greedy

/-!
# DocGraph.Proofs.Pattern.Merging

Merging neighbouring wildcards widens a pattern.

* `Allows piece t`    — a token that stands for `piece`, whatever names were found so far. `**` may
  stand for several lines here, so that it covers `?` and `*`.
* `Covers ts q`       — `q` is cut into one such piece per token.
* `Token.covering?`   — of two neighbouring wildcards, the one that covers both.
* `covers_mergeInto`, `covers_merged` — what tokens cover, they cover once one more token is merged,
  and once all are.
* `Pattern.widened`   — the pattern of the merged tokens.
* `widened_of_isMatch` — it matches whatever the pattern matches on one line.
-/

namespace DocGraph

namespace Token

/-- Of two neighbouring wildcards, the one that covers both. -/
def covering? : Token → Token → Option Token
  | star, single | star, star | single, star => some star
  | globStar, single | globStar, star | globStar, globStar | star, globStar | single, globStar =>
    some globStar
  | _, _ => none

theorem mergeInto_nil (t : Token) : mergeInto [] t = [t] := by cases t <;> rfl

theorem mergeInto_cons (d : Token) (done : List Token) (t : Token) :
    mergeInto (d :: done) t =
      match covering? d t with
      | some u => u :: done
      | none => t :: d :: done := by
  cases d <;> cases t <;> rfl

/-- It is one of the two. -/
theorem covering?_eq {d t u : Token} (h : covering? d t = some u) : u = d ∨ u = t := by
  cases d <;> cases t <;> cases h <;> simp

theorem mem_mergeInto {done : List Token} {t u : Token} (h : u ∈ mergeInto done t) :
    u = t ∨ u ∈ done := by
  cases done with
  | nil =>
    rw [mergeInto_nil] at h
    exact .inl (List.mem_singleton.1 h)
  | cons d done =>
    rw [mergeInto_cons] at h
    split at h
    · next v hv =>
      rcases List.mem_cons.1 h with rfl | h
      · rcases covering?_eq hv with rfl | rfl
        · exact .inr List.mem_cons_self
        · exact .inl rfl
      · exact .inr (List.mem_cons_of_mem _ h)
    · exact List.mem_cons.1 h

/-- Merging brings in no tokens. -/
theorem mem_merged {ts : List Token} {u : Token} (h : u ∈ merged ts) : ∃ t ∈ ts, u = t.plain := by
  have hfoldl (done us : List Token) (hu : u ∈ us.foldl mergeInto done) : u ∈ done ∨ u ∈ us := by
    induction us generalizing done with
    | nil => exact .inl hu
    | cons t us ih =>
      rcases ih _ hu with hu | hu
      · rcases mem_mergeInto hu with rfl | hu
        · exact .inr List.mem_cons_self
        · exact .inl hu
      · exact .inr (List.mem_cons_of_mem _ hu)
  rcases hfoldl [] _ (List.mem_reverse.1 h) with hu | hu
  · cases hu
  · obtain ⟨t, ht, rfl⟩ := List.mem_map.1 hu
    exact ⟨t, ht, rfl⟩

end Token

namespace Pattern

open Token

/-- What a token stands for, whatever names were found so far. `**` may stand for several lines. -/
def Allows (piece : List Char) : Token → Prop
  | .globStar => True
  | t => Takes [] piece t

/-- A text is cut into one piece per token. -/
inductive Covers : List Token → List Char → Prop where
  | nil : Covers [] []
  | cons {t : Token} {ts : List Token} {piece rest : List Char} (h : Allows piece t)
      (hr : Covers ts rest) : Covers (t :: ts) (piece ++ rest)

variable {ts us : List Token} {q r : List Char}

theorem Covers.append (h : Covers ts q) (h' : Covers us r) : Covers (ts ++ us) (q ++ r) := by
  induction h with
  | nil => exact h'
  | cons ht _ ih =>
    rw [List.append_assoc]
    exact .cons ht ih

theorem exists_covers_append (h : Covers (ts ++ us) q) :
    ∃ q₁ q₂, q = q₁ ++ q₂ ∧ Covers ts q₁ ∧ Covers us q₂ := by
  induction ts generalizing q with
  | nil => exact ⟨[], q, rfl, .nil, h⟩
  | cons t ts ih =>
    cases h with
    | @cons _ _ piece rest ht hr =>
      obtain ⟨q₁, q₂, rfl, hq₁, hq₂⟩ := ih hr
      exact ⟨piece ++ q₁, q₂, (List.append_assoc _ _ _).symm, .cons ht hq₁, hq₂⟩

/-! ## Merging -/

theorem allows_plain {piece : List Char} {t : Token} (h : Allows piece t) :
    Allows piece t.plain := by
  cases t with
  | named name =>
    change Takes [] piece (.named name) at h
    exact (takes_of_unknown rfl).1 h
  | _ => exact h

theorem covers_plain (h : Covers ts q) : Covers (ts.map plain) q := by
  induction h with
  | nil => exact .nil
  | cons ht _ ih => exact .cons (allows_plain ht) ih

theorem slash_notMem_of_allows_single {piece : List Char} (h : Allows piece .single) :
    '/' ∉ piece := by
  obtain ⟨c, hc, rfl⟩ := h
  simpa using hc.symm

/-- One of two neighbouring wildcards covers what both stand for. -/
theorem allows_covering {d t u : Token} {piece piece' : List Char} (hu : covering? d t = some u)
    (hd : Allows piece d) (ht : Allows piece' t) : Allows (piece ++ piece') u := by
  have hstar {a b : List Char} (ha : '/' ∉ a) (hb : '/' ∉ b) : Allows (a ++ b) .star := by
    change '/' ∉ a ++ b
    rw [List.mem_append, not_or]
    exact ⟨ha, hb⟩
  unfold covering? at hu
  split at hu <;> cases hu
  · exact hstar hd (slash_notMem_of_allows_single ht)
  · exact hstar hd ht
  · exact hstar (slash_notMem_of_allows_single hd) ht
  all_goals trivial

theorem covers_covering {d t u : Token} (hu : covering? d t = some u) (h : Covers [d, t] q) :
    Covers [u] q := by
  cases h with
  | cons hd hr =>
    cases hr with
    | cons ht hnil =>
      cases hnil with
      | nil =>
        rw [← List.append_assoc]
        exact .cons (allows_covering hu hd ht) .nil

/-- What tokens cover, they cover once one more is merged into those in front of it. -/
theorem covers_mergeInto {done : List Token} {t : Token} (h : Covers (done.reverse ++ t :: ts) q) :
    Covers ((mergeInto done t).reverse ++ ts) q := by
  cases done with
  | nil =>
    rw [mergeInto_nil]
    exact h
  | cons d done =>
    rw [mergeInto_cons]
    split
    · next u hu =>
      have hsplit : (d :: done).reverse ++ t :: ts = done.reverse ++ ([d, t] ++ ts) := by simp
      rw [hsplit] at h
      obtain ⟨q₁, q₂, rfl, hfront, hback⟩ := exists_covers_append h
      obtain ⟨q₂, q₃, rfl, hpair, hrest⟩ := exists_covers_append hback
      rw [List.reverse_cons, List.append_assoc]
      exact hfront.append ((covers_covering hu hpair).append hrest)
    · rw [List.reverse_cons, List.append_assoc]
      exact h

theorem covers_merged (h : Covers ts q) : Covers (merged ts) q := by
  have hfoldl (done us : List Token) (hus : Covers (done.reverse ++ us) q) :
      Covers (us.foldl mergeInto done).reverse q := by
    induction us generalizing done with
    | nil => rwa [List.append_nil] at hus
    | cons t us ih => exact ih _ (covers_mergeInto hus)
  exact hfoldl [] _ (covers_plain h)

/-! ## Matches -/

theorem allows_of_takes {piece : List Char} {t : Token} (h : Takes [] piece t) :
    Allows piece t := by
  cases t with
  | globStar => trivial
  | _ => exact h

theorem covers_flatten {pieces : List (List Char)}
    (h : List.Forall₂ (fun t piece => Takes [] piece t) ts pieces) : Covers ts pieces.flatten := by
  induction h with
  | nil => exact .nil
  | cons ht _ ih => exact .cons (allows_of_takes ht) ih

/-- The tokens of a pattern cover what it matches. -/
theorem covers_of_isMatch {p : Pattern} {path : String} (h : p.isMatch path = true) :
    Covers p.tokens path.toList := by
  rw [isMatch, captures, Option.isSome_map] at h
  obtain ⟨f, hf⟩ := Option.isSome_iff_exists.1 h
  obtain ⟨pieces, ⟨⟨hjoined, htaken, -⟩, -⟩, -⟩ := exists_greedyFor hf
  rw [← hjoined]
  exact covers_flatten htaken

/-- On one line, tokens without names read what they cover. -/
theorem reads_of_covers (h : Covers ts q) (hline : '\n' ∉ q) (hnames : ∀ name, .named name ∉ ts) :
    Reads ts [] q [] := by
  induction h with
  | nil => exact .nil
  | @cons t ts piece rest ht _ ih =>
    rw [List.mem_append, not_or] at hline
    have hrest := ih hline.2 fun name hmem => hnames name (List.mem_cons_of_mem _ hmem)
    cases t with
    | globStar => exact .cons hline.1 hrest
    | named name => exact absurd List.mem_cons_self (hnames name)
    | _ => exact .cons ht hrest

/-- The pattern of the merged tokens. -/
def widened (p : Pattern) : Pattern where
  tokens := merged p.tokens
  readable t ht := by
    obtain ⟨u, hu, rfl⟩ := mem_merged ht
    have hreadable := p.readable u hu
    cases u <;> first | rfl | exact hreadable

theorem named_notMem_widened (p : Pattern) (name : String) : .named name ∉ p.widened.tokens := by
  intro h
  obtain ⟨t, -, ht⟩ := mem_merged h
  cases t <;> cases ht

/-- The plain glob is the text of a pattern without names, which matches whatever the pattern matches
on one line. -/
theorem widened_of_isMatch (p : Pattern) :
    p.widened.source = p.glob ∧ p.widened.names = [] ∧
    ∀ path : String, '\n' ∉ path.toList → p.isMatch path = true → p.widened.isMatch path = true := by
  refine ⟨rfl, ?_, fun path hline h => ?_⟩
  · exact List.eq_nil_iff_forall_not_mem.2 fun name h => p.named_notMem_widened name (mem_names.1 h)
  · rw [isMatch, captures, Option.isSome_map]
    exact cut_complete
      (reads_of_covers (covers_merged (covers_of_isMatch h)) hline p.named_notMem_widened)

/-- A name that must repeat, between wildcards that leave one star of three. -/
theorem widened_of_isMatch_repeated :
    let p : Pattern := ⟨[.named "x", .star, .single, .literal "/", .named "x"], by decide⟩
    '\n' ∉ "abc/a".toList ∧ p.isMatch "abc/a" = true ∧ p.widened.isMatch "abc/a" = true := by
  intro p
  have hline : '\n' ∉ "abc/a".toList := by decide
  have hmatch : p.isMatch "abc/a" = true := by decide +kernel
  exact ⟨hline, hmatch, (widened_of_isMatch p).2.2 _ hline hmatch⟩

end Pattern
end DocGraph
