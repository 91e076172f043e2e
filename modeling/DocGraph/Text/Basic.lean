/-!
# DocGraph.Text.Basic

Cutting texts into words, lines and pieces.

* `isBlank`      — the characters with the Unicode property White_Space.
* `words`        — the runs of a text between blank characters.
* `lines`        — the lines of a text, without their ends.
* `pieces`       — what stands between the occurrences of one character.
* `stripPrefix?`, `stripSuffix?` — what a text holds beside a known start or end.
-/

namespace DocGraph
namespace Text

/-- The characters with the Unicode property White_Space. -/
def isBlank (c : Char) : Bool :=
  let n := c.toNat
  (9 ≤ n && n ≤ 13) || n == 0x20 || n == 0x85 || n == 0xA0 || n == 0x1680 ||
    (0x2000 ≤ n && n ≤ 0x200A) || n == 0x2028 || n == 0x2029 || n == 0x202F || n == 0x205F ||
    n == 0x3000

/-- The runs of a text that hold no blank character. -/
def words (s : String) : List String :=
  ((s.toList.splitOnP isBlank).filter (!·.isEmpty)).map String.ofList

/-- The pieces between the occurrences of `c`; there is one more of them than of `c`. -/
def pieces (c : Char) (s : String) : List String :=
  (s.toList.splitOn c).map String.ofList

/-- A line as it stands before its newline, which a carriage return may precede. -/
def dropReturn (l : List Char) : List Char :=
  if l.getLast? = some '\r' then l.dropLast else l

/-- The lines of a text. A newline ends a line, and text after the last one is a line too. -/
def lines (s : String) : List String :=
  let ps := s.toList.splitOn '\n'
  let ended := ps.dropLast.map dropReturn
  let rest := ps.getLast?.getD []
  (if rest.isEmpty then ended else ended ++ [rest]).map String.ofList

/-- Drop elements that satisfy `p` from the end. -/
def dropTrailing {α : Type} (p : α → Bool) (l : List α) : List α :=
  (l.reverse.dropWhile p).reverse

/-- A text without blank characters at its end. -/
def trimEnd (s : String) : String := String.ofList (dropTrailing isBlank s.toList)

/-- A text without blank characters at either end. -/
def trim (s : String) : String :=
  String.ofList (dropTrailing isBlank (s.toList.dropWhile isBlank))

/-- The rest of a text that starts with `p`. -/
def stripPrefix? (p s : String) : Option String :=
  (p.toList.isPrefixOf? s.toList).map String.ofList

/-- The rest of a text that ends with `p`. -/
def stripSuffix? (p s : String) : Option String :=
  (p.toList.isSuffixOf? s.toList).map String.ofList

def endsWith (c : Char) (s : String) : Bool := s.toList.getLast? == some c

/-- Texts with a space between each two. -/
def spaced (l : List String) : String := " ".intercalate l

/-- An ASCII letter or an underscore. -/
def isNameStart (c : Char) : Bool := c.isAlpha || c == '_'

/-- An ASCII letter, an ASCII digit or an underscore. -/
def isNameChar (c : Char) : Bool := c.isAlphanum || c == '_'

/-- Identifiers: names of variables, wildcards, commands and barriers. -/
def isIdentifier (s : String) : Bool :=
  match s.toList with
  | [] => false
  | c :: cs => isNameStart c && cs.all isNameChar

theorem isNameChar_of_isIdentifier {s : String} (h : isIdentifier s = true) :
    s.toList ≠ [] ∧ ∀ c ∈ s.toList, isNameChar c = true := by
  rw [isIdentifier] at h
  cases hs : s.toList with
  | nil =>
    rw [hs] at h
    cases h
  | cons c cs =>
    rw [hs] at h
    obtain ⟨hstart, hrest⟩ := Bool.and_eq_true_iff.1 h
    refine ⟨List.cons_ne_nil _ _, List.forall_mem_cons.2 ⟨?_, List.all_eq_true.1 hrest⟩⟩
    rw [isNameStart, Bool.or_eq_true] at hstart
    rw [isNameChar, Bool.or_eq_true, Char.isAlphanum, Bool.or_eq_true]
    exact hstart.imp_left .inl

end Text
end DocGraph
