import DocGraph.Text.Basic

/-!
# DocGraph.Proofs.Text.Words

Texts with a space between each two, and the words that one reads from them.

* `Text.wordsBy`          — the words of a text, by what counts as blank.
* `wordsBy_spaced`        — a space between texts separates their words.
* `mem_wordsBy_spaced_iff` — the words are the texts that were put together exactly if no text has a
  blank.
* `eq_of_spaced_eq`       — with some texts left out, something else comes out.
-/

namespace DocGraph
namespace Text

/-- The runs of a text between characters that count as blank. -/
def wordsBy (blank : Char → Bool) (s : String) : List String :=
  ((s.toList.splitOnP blank).filter (!·.isEmpty)).map String.ofList

variable {blank : Char → Bool} {s t w : String} {l m : List String}

theorem words_eq (s : String) : words s = wordsBy isBlank s := rfl

theorem blank_of_mem_splitOnP {cs piece : List Char} (h : piece ∈ cs.splitOnP blank) :
    ∀ c ∈ piece, blank c = false := by
  induction cs generalizing piece with
  | nil =>
    rw [List.splitOnP_nil, List.mem_singleton] at h
    simp [h]
  | cons d cs ih =>
    rw [List.splitOnP_cons_eq_if_modifyHead] at h
    split at h
    · rcases List.mem_cons.1 h with rfl | h
      · simp
      · exact ih h
    · next hd =>
      obtain ⟨first, rest, hsplit⟩ := List.exists_cons_of_ne_nil (List.splitOnP_ne_nil blank cs)
      rw [hsplit] at h ih
      rw [List.modifyHead_cons] at h
      rcases List.mem_cons.1 h with rfl | h
      · intro c hc
        rcases List.mem_cons.1 hc with rfl | hc
        · simpa using hd
        · exact ih List.mem_cons_self c hc
      · exact ih (List.mem_cons_of_mem _ h)

theorem blank_of_mem_wordsBy (h : w ∈ wordsBy blank s) : ∀ c ∈ w.toList, blank c = false := by
  obtain ⟨piece, hpiece, rfl⟩ := List.mem_map.1 h
  rw [String.toList_ofList]
  exact blank_of_mem_splitOnP (List.mem_filter.1 hpiece).1

/-- A text without blanks is a word. -/
theorem wordsBy_of_plain (hne : s ≠ "") (h : ∀ c ∈ s.toList, blank c = false) :
    wordsBy blank s = [s] := by
  have hempty : s.toList.isEmpty = false := by
    rw [← Bool.not_eq_true, List.isEmpty_iff, String.toList_eq_nil_iff]
    exact hne
  rw [wordsBy, List.splitOnP_eq_singleton h, List.filter_cons_of_pos (by simp [hempty]),
    List.filter_nil, List.map_singleton, String.ofList_toList]

theorem wordsBy_append (hblank : blank ' ' = true) (s t : String) :
    wordsBy blank (s ++ " " ++ t) = wordsBy blank s ++ wordsBy blank t := by
  have htoList : (s ++ " " ++ t).toList = s.toList ++ ' ' :: t.toList := by
    simp
  rw [wordsBy, htoList, List.splitOnP_append_cons _ _ hblank, List.filter_append, List.map_append]
  rfl

theorem wordsBy_spaced (hblank : blank ' ' = true) (l : List String) :
    wordsBy blank (spaced l) = l.flatMap (wordsBy blank) := by
  induction l with
  | nil => rfl
  | cons s l ih =>
    cases l with
    | nil => rw [spaced, String.intercalate_singleton, List.flatMap_singleton]
    | cons t l =>
      rw [spaced, String.intercalate_cons_cons, wordsBy_append hblank, List.flatMap_cons, ← ih,
        spaced]

/-- The words of texts with spaces between them are these texts exactly if no text has a blank. -/
theorem mem_wordsBy_spaced_iff (hblank : blank ' ' = true) (hne : ∀ s ∈ l, s ≠ "") :
    (∀ w, w ∈ wordsBy blank (spaced l) ↔ w ∈ l) ↔ ∀ s ∈ l, ∀ c ∈ s.toList, blank c = false := by
  constructor
  · intro h s hs
    exact blank_of_mem_wordsBy ((h s).2 hs)
  · intro h w
    rw [wordsBy_spaced hblank, List.mem_flatMap]
    constructor
    · rintro ⟨s, hs, hw⟩
      rw [wordsBy_of_plain (hne s hs) (h s hs), List.mem_singleton] at hw
      exact hw ▸ hs
    · intro hw
      exact ⟨w, hw, by rw [wordsBy_of_plain (hne w hw) (h w hw)]; exact List.mem_cons_self⟩

/-! ## Texts that are left out -/

theorem toList_spaced (hne : l ≠ []) :
    (spaced l).toList ++ [' '] = l.flatMap fun s => s.toList ++ [' '] := by
  induction l with
  | nil => exact absurd rfl hne
  | cons s l ih =>
    cases l with
    | nil => simp [spaced]
    | cons t l =>
      rw [List.flatMap_cons, ← ih (List.cons_ne_nil t l), spaced, String.intercalate_cons_cons,
        spaced]
      simp

/-- Every text that is left out takes a character at least. -/
theorem length_le_of_sublist (h : l.Sublist m) :
    (l.flatMap fun s => s.toList ++ [' ']).length + m.length ≤
      (m.flatMap fun s => s.toList ++ [' ']).length + l.length := by
  induction h with
  | slnil => exact Nat.le_refl _
  | cons s _ ih =>
    simp only [List.flatMap_cons, List.length_append, List.length_cons]
    omega
  | cons_cons s _ ih =>
    simp only [List.flatMap_cons, List.length_append, List.length_cons]
    omega

/-- What comes out tells whether texts were left out. -/
theorem eq_of_spaced_eq (h : l.Sublist m) (hne : l ≠ []) (heq : spaced l = spaced m) : l = m := by
  have hm : m ≠ [] := by
    rintro rfl
    exact hne (List.sublist_nil.1 h)
  have hle := length_le_of_sublist h
  rw [← toList_spaced hne, ← toList_spaced hm, heq] at hle
  exact h.eq_of_length_le (by omega)

end Text
end DocGraph
