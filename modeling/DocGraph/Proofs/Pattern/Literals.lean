import DocGraph.Proofs.Pattern.Binding
import Mathlib.Data.List.Chain

/-!
# DocGraph.Proofs.Pattern.Literals

Tokens whose literals are joined.

* `Joined`                — no literal is empty, and no two are neighbours.
* `joined_joinLiterals`   — joining literals leads there.
* `joinLiterals_eq_self`  — and leaves tokens as they are that are there already.
* `spelling_joinLiterals` — it does not change how tokens are written.
-/

namespace DocGraph
namespace Pattern

/-- No token is an empty literal, and no two neighbours are literals. -/
structure Joined (ts : List Token) : Prop where
  nonempty : .literal "" ∉ ts
  apart : ts.IsChain fun t u => ¬(t.isLiteral = true ∧ u.isLiteral = true)

variable {t : Token} {ts : List Token}

theorem joined_nil : Joined [] := ⟨List.not_mem_nil, .nil⟩

theorem joined_cons : Joined (t :: ts) ↔
    t ≠ .literal "" ∧ (t.isLiteral = true → ∀ u ∈ ts.head?, u.isLiteral = false) ∧ Joined ts := by
  constructor
  · rintro ⟨hne, hapart⟩
    rw [List.mem_cons, not_or] at hne
    obtain ⟨hhead, htail⟩ := List.isChain_cons.1 hapart
    refine ⟨Ne.symm hne.1, fun ht u hu => ?_, hne.2, htail⟩
    exact Bool.eq_false_iff.2 fun h => hhead u hu ⟨ht, h⟩
  · rintro ⟨ht, hhead, hne, htail⟩
    refine ⟨List.not_mem_cons_of_ne_of_not_mem (Ne.symm ht) hne, List.isChain_cons.2 ⟨?_, htail⟩⟩
    rintro u hu ⟨hliteral, h⟩
    rw [hhead hliteral u hu] at h
    cases h

theorem consToken_of_not_isLiteral (h : t.isLiteral = false) : consToken t ts = t :: ts := by
  cases t with
  | literal s => cases h
  | _ => rfl

/-- In front of tokens that it does not join, a token stays as it is. -/
theorem consToken_eq_cons (ht : t ≠ .literal "")
    (hhead : t.isLiteral = true → ∀ u ∈ ts.head?, u.isLiteral = false) :
    consToken t ts = t :: ts := by
  cases t with
  | literal s =>
    refine consToken_of_not_literal (fun hs => ht (congrArg _ hs)) ?_
    rintro r us rfl
    cases hhead rfl _ rfl
  | _ => rfl

theorem joined_consToken (h : Joined ts) (t : Token) : Joined (consToken t ts) := by
  by_cases ht : t = .literal ""
  · rw [ht, consToken_empty]
    exact h
  by_cases hhead : t.isLiteral = true → ∀ u ∈ ts.head?, u.isLiteral = false
  · rw [consToken_eq_cons ht hhead]
    exact joined_cons.2 ⟨ht, hhead, h⟩
  · push Not at hhead
    obtain ⟨hliteral, u, hu, hnext⟩ := hhead
    obtain ⟨us, rfl⟩ := List.head?_eq_some_iff.1 hu
    obtain ⟨-, hus, hjoined⟩ := joined_cons.1 h
    cases t with
    | literal s =>
      cases u with
      | literal r =>
        have hs : s ≠ "" := fun hs => ht (congrArg _ hs)
        rw [consToken_join hs]
        refine joined_cons.2 ⟨fun hempty => ?_, fun _ => hus rfl, hjoined⟩
        exact hs (String.append_eq_empty_iff.1 (Token.literal.inj hempty)).1
      | _ => exact absurd rfl hnext
    | _ => cases hliteral

/-- Joining literals leaves no empty and no neighbouring ones. -/
theorem joined_joinLiterals (ts : List Token) : Joined (joinLiterals ts) := by
  induction ts with
  | nil => exact joined_nil
  | cons t ts ih => exact joined_consToken ih t

theorem joinLiterals_append (us ts : List Token) :
    joinLiterals (us ++ ts) = us.foldr consToken (joinLiterals ts) := List.foldr_append

/-- Where no literal is empty or has a literal next to it, there is nothing to join. -/
theorem joinLiterals_eq_self (h : Joined ts) : joinLiterals ts = ts := by
  induction ts with
  | nil => rfl
  | cons t ts ih =>
    obtain ⟨ht, hhead, hts⟩ := joined_cons.1 h
    rw [joinLiterals_cons, ih hts, consToken_eq_cons ht hhead]

theorem spelling_consToken (t : Token) (ts : List Token) :
    (consToken t ts).flatMap (fun t => t.spelling.toList) =
      (t :: ts).flatMap fun t => t.spelling.toList := by
  rcases consToken_cases t ts with ⟨rfl, h⟩ | ⟨s, r, ts', -, rfl, rfl, h⟩ | h
  · rw [h]
    rfl
  · rw [h]
    simp [Token.spelling]
  · rw [h]

/-- Joining literals does not change how tokens are written. -/
theorem spelling_joinLiterals (ts : List Token) :
    (joinLiterals ts).flatMap (fun t => t.spelling.toList) =
      ts.flatMap fun t => t.spelling.toList := by
  induction ts with
  | nil => rfl
  | cons t ts ih =>
    rw [joinLiterals_cons, spelling_consToken, List.flatMap_cons, List.flatMap_cons, ih]

end Pattern
end DocGraph
