import DocGraph.Ninja.Reader
import DocGraph.Ninja.Writer
import DocGraph.Ordered.Lemmas
import Mathlib.Data.List.Nodup

/-!
# DocGraph.Proofs.Ninja.Reading

A written statement reads back.

* `lex_escaped`    — an escaped text is one word, without its dollars.
* `lex_paths`      — written paths are one word each.
* `lex_buildLine`  — the tokens of the first line of a statement.
* `lines?_build`   — the lines below it.
* `read_written`   — what the reader finds in the text of a statement and of a `default` line.
-/

namespace DocGraph

/-- Characters that a path in a Ninja file can have. -/
def Ninja.IsPathChar (c : Char) : Prop := c ≠ '\n' ∧ c ≠ '\r' ∧ c ≠ '|'

/-- Paths that a Ninja file can name. -/
def Path.IsSpellable (p : Path) : Prop :=
  p.text ≠ "" ∧ ∀ c ∈ p.text.toList, Ninja.IsPathChar c

instance (c : Char) : Decidable (Ninja.IsPathChar c) := inferInstanceAs (Decidable (_ ∧ _ ∧ _))

-- The characters of the text are tried, not all characters.
instance (p : Path) : Decidable p.IsSpellable :=
  decidable_of_iff (p.text ≠ "" ∧ p.text.toList.all fun c => decide (Ninja.IsPathChar c))
    (by simp [Path.IsSpellable])

/-- Statements whose rule and paths a Ninja file can name. -/
structure Statement.IsSpellable (s : Statement) : Prop where
  outputs : s.outputs ≠ []
  rule : Ninja.Reader.isName s.rule = true
  paths : ∀ p ∈ s.allOutputs ++ s.allInputs, p.IsSpellable

/-- Statements whose variables fit on lines of their own. -/
structure Statement.HasPlainVars (s : Statement) : Prop where
  names : ∀ e ∈ s.vars.toList, Ninja.Reader.isName e.1 = true ∧ e.1 ≠ "pool" ∧ e.1 ≠ "depfile"
  values : ∀ v ∈ s.pool.toList ++ s.depfile.toList ++ s.vars.toList.map Prod.snd, '\n' ∉ v.toList

namespace Ninja
namespace Reader

/-! ## Tokens of a line -/

theorem lex_nil (w : List Char) : lex w [] = some (flush w) := rfl

theorem lex_dollar (w : List Char) (c : Char) (cs : List Char) :
    lex w ('$' :: c :: cs) =
      if c = '$' || c = ' ' || c = ':' then lex (w ++ [c]) cs else none := rfl

theorem lex_blank (w cs : List Char) : lex w (' ' :: cs) = (lex [] cs).map (flush w ++ ·) := rfl

theorem lex_colon (w cs : List Char) :
    lex w (':' :: cs) = (lex [] cs).map (flush w ++ .colon :: ·) := rfl

theorem lex_twoBars (w cs : List Char) :
    lex w ('|' :: '|' :: cs) = (lex [] cs).map (flush w ++ .bars :: ·) := rfl

theorem lex_oneBar (w : List Char) {cs : List Char} (h : cs.head? ≠ some '|') :
    lex w ('|' :: cs) = (lex [] cs).map (flush w ++ Token.bar :: ·) := by
  cases cs with
  | nil => rfl
  | cons c cs =>
    rw [lex]
    simpa using h

/-- What may follow a word. -/
def EndsWord (cs : List Char) : Prop :=
  cs.head? = none ∨ cs.head? = some ' ' ∨ cs.head? = some ':' ∨ cs.head? = some '|'

theorem lex_escapeChar {c : Char} (hc : IsPathChar c) (w cs : List Char) :
    lex w (escapeChar c ++ cs) = lex (w ++ [c]) cs := by
  obtain ⟨hn, hr, hb⟩ := hc
  unfold escapeChar
  split
  · next h =>
    simp only [List.cons_append, List.nil_append]
    rw [lex_dollar, if_pos h]
  · next h =>
    simp only [Bool.or_eq_true, decide_eq_true_eq, not_or] at h
    obtain ⟨⟨hd, hs⟩, hk⟩ := h
    simp only [List.cons_append, List.nil_append]
    rw [lex]
    all_goals simp_all

/-- An escaped text continues a word. -/
theorem lex_escaped {cs : List Char} (h : ∀ c ∈ cs, IsPathChar c) (w rest : List Char) :
    lex w (cs.flatMap escapeChar ++ rest) = lex (w ++ cs) rest := by
  induction cs generalizing w with
  | nil => simp
  | cons c cs ih =>
    rw [List.flatMap_cons, List.append_assoc, lex_escapeChar (h c (by simp)),
      ih fun d hd => h d (by simp [hd])]
    simp

/-- A word ends before a blank, before a mark and at the end of the line. -/
theorem lex_of_endsWord (w : List Char) {rest : List Char} (h : EndsWord rest) :
    lex w rest = (lex [] rest).map (flush w ++ ·) := by
  have hflush : flush [] = [] := rfl
  cases rest with
  | nil => simp [lex_nil, hflush]
  | cons c cs =>
    rcases h with h | h | h | h <;> cases h
    · simp [lex_blank, hflush]
    · simp [lex_colon, hflush, Function.comp_def]
    · by_cases hc : cs.head? = some '|'
      · obtain ⟨cs, rfl⟩ := List.head?_eq_some_iff.1 hc
        simp [lex_twoBars, hflush, Function.comp_def]
      · simp [lex_oneBar _ hc, hflush, Function.comp_def]

/-- The token of a text that is not empty. -/
def wordOf (s : String) : Token := .word s.toList

theorem flush_toList {s : String} (h : s ≠ "") : flush s.toList = [wordOf s] := by
  simp [flush, wordOf, h]

-- No character of a name needs a dollar.
theorem plain_of_isNameChar {c : Char} (h : isNameChar c = true) :
    escapeChar c = [c] ∧ IsPathChar c := by
  refine ⟨if_neg fun hc => ?_, ?_, ?_, ?_⟩
  · simp only [Bool.or_eq_true, decide_eq_true_eq] at hc
    obtain (rfl | rfl) | rfl := hc <;> revert h <;> decide
  all_goals rintro rfl; revert h; decide

theorem isName_iff {s : String} :
    isName s = true ↔ s ≠ "" ∧ ∀ c ∈ s.toList, isNameChar c = true := by
  simp [isName]

theorem lex_name {s : String} (h : isName s = true) {rest : List Char} (hr : EndsWord rest) :
    lex [] (s.toList ++ rest) = (lex [] rest).map (wordOf s :: ·) := by
  obtain ⟨hne, hs⟩ := isName_iff.1 h
  have hescape : s.toList.flatMap escapeChar = s.toList := by
    rw [List.flatMap_congr fun c hc => (plain_of_isNameChar (hs c hc)).1]
    simp
  rw [← hescape, lex_escaped fun c hc => (plain_of_isNameChar (hs c hc)).2, List.nil_append,
    lex_of_endsWord _ hr, flush_toList hne]
  rfl

/-- The words of paths. -/
def wordsOf (l : List Path) : List Token := l.map fun p => wordOf p.text

theorem toList_paths (l : List Path) :
    (Writer.paths l).toList = l.flatMap fun p => ' ' :: p.text.toList.flatMap escapeChar := by
  simp [Writer.paths, escapePath, List.flatMap_map]

theorem endsWord_paths (l : List Path) {rest : List Char} (hr : EndsWord rest) :
    EndsWord ((Writer.paths l).toList ++ rest) := by
  cases l with
  | nil => simpa [toList_paths] using hr
  | cons p l => simp [toList_paths, EndsWord]

theorem lex_paths {l : List Path} (h : ∀ p ∈ l, p.IsSpellable) {rest : List Char}
    (hr : EndsWord rest) :
    lex [] ((Writer.paths l).toList ++ rest) = (lex [] rest).map (wordsOf l ++ ·) := by
  induction l with
  | nil => simp [toList_paths, wordsOf]
  | cons p l ih =>
    obtain ⟨hne, hp⟩ := h p (by simp)
    have htail : EndsWord ((Writer.paths l).toList ++ rest) := endsWord_paths l hr
    have hword : lex [] ((Writer.paths (p :: l)).toList ++ rest) =
        lex p.text.toList ((Writer.paths l).toList ++ rest) := by
      simp only [toList_paths, List.flatMap_cons, List.cons_append, List.append_assoc]
      rw [lex_blank, lex_escaped hp]
      simp [flush]
    rw [hword, lex_of_endsWord _ htail, flush_toList hne, ih fun q hq => h q (by simp [hq])]
    simp [wordsOf, Function.comp_def]

/-- The tokens of marked paths. -/
def markedWords (mark : Token) (l : List Path) : List Token :=
  if l.isEmpty then [] else mark :: wordsOf l

theorem endsWord_marked (text : String) (ht : text.toList.head? = some ' ') (l : List Path)
    {rest : List Char} (hr : EndsWord rest) :
    EndsWord ((Writer.marked text l).toList ++ rest) := by
  obtain ⟨cs, hcs⟩ := List.head?_eq_some_iff.1 ht
  cases l with
  | nil => simpa [Writer.marked] using hr
  | cons p l => simp [Writer.marked, EndsWord, hcs]

theorem lex_marked {text : String} {mark : Token}
    (ht : ∀ cs, lex [] (text.toList ++ ' ' :: cs) = (lex [] (' ' :: cs)).map (mark :: ·))
    {l : List Path} (h : ∀ p ∈ l, p.IsSpellable) {rest : List Char} (hr : EndsWord rest) :
    lex [] ((Writer.marked text l).toList ++ rest) =
      (lex [] rest).map (markedWords mark l ++ ·) := by
  cases l with
  | nil => simp [Writer.marked, markedWords]
  | cons p l =>
    obtain ⟨cs, hcs⟩ : ∃ cs, (Writer.paths (p :: l)).toList ++ rest = ' ' :: cs := by
      simp [toList_paths]
    have hlex : lex [] (' ' :: cs) = (lex [] rest).map (wordsOf (p :: l) ++ ·) := by
      rw [← hcs, lex_paths h hr]
    simp only [Writer.marked, List.isEmpty_cons, Bool.false_eq_true, if_false,
      String.toList_append, List.append_assoc, hcs, markedWords]
    rw [ht, hlex]
    simp [Function.comp_def]

theorem lex_bar (cs : List Char) :
    lex [] (" |".toList ++ ' ' :: cs) = (lex [] (' ' :: cs)).map (.bar :: ·) := by
  have hbar : lex [] ('|' :: ' ' :: cs) = (lex [] (' ' :: cs)).map (.bar :: ·) :=
    lex_oneBar [] (by simp)
  calc lex [] (' ' :: '|' :: ' ' :: cs)
      = lex [] ('|' :: ' ' :: cs) := by simp [lex_blank, flush]
    _ = (lex [] (' ' :: cs)).map (.bar :: ·) := hbar

theorem lex_bars (cs : List Char) :
    lex [] (" ||".toList ++ ' ' :: cs) = (lex [] (' ' :: cs)).map (.bars :: ·) := by
  simp [lex_blank, lex_twoBars, flush, Function.comp_def]

/-- What a first line says behind the rule. -/
def inputsText (s : Statement) : List Char :=
  (Writer.paths s.inputs).toList ++
    ((Writer.marked " |" s.implicit).toList ++ (Writer.marked " ||" s.orderOnly).toList)

def inputTokens (s : Statement) : List Token :=
  wordsOf s.inputs ++ (markedWords .bar s.implicit ++ markedWords .bars s.orderOnly)

def outputTokens (s : Statement) : List Token :=
  wordsOf (⟨"build"⟩ :: s.outputs) ++ (markedWords .bar s.implicitOutputs ++
    .colon :: (wordsOf [⟨s.rule⟩] ++ inputTokens s))

-- Both lines are read from their end: where a word ends is seen from what follows it.
theorem lex_inputsText {s : Statement} (h : s.IsSpellable) :
    EndsWord (inputsText s) ∧ lex [] (inputsText s) = some (inputTokens s) := by
  have hpaths := h.paths
  simp only [Statement.allInputs, List.mem_append, or_imp, forall_and] at hpaths
  obtain ⟨_, ⟨hin, himp⟩, hord⟩ := hpaths
  have hend : EndsWord [] := .inl rfl
  have hordEnd := endsWord_marked " ||" rfl s.orderOnly hend
  have hordLex := lex_marked lex_bars hord hend
  rw [List.append_nil] at hordEnd hordLex
  have himpEnd := endsWord_marked " |" rfl s.implicit hordEnd
  refine ⟨endsWord_paths s.inputs himpEnd, ?_⟩
  rw [inputsText, lex_paths hin himpEnd, lex_marked lex_bar himp hordEnd, hordLex]
  simp [lex_nil, flush, inputTokens]

theorem lex_buildLine {s : Statement} (h : s.IsSpellable) :
    ∃ line, (Writer.buildLine s).toList = line ++ ['\n'] ∧
      lex [] line = some (outputTokens s) := by
  have hpaths := h.paths
  simp only [Statement.allOutputs, List.mem_append, or_imp, forall_and] at hpaths
  obtain ⟨⟨hout, himp⟩, _⟩ := hpaths
  obtain ⟨hinEnd, hinLex⟩ := lex_inputsText h
  have hrule : lex [] (": ".toList ++ (s.rule.toList ++ inputsText s)) =
      some (.colon :: wordOf s.rule :: inputTokens s) := by
    have hcolon : lex [] (": ".toList ++ (s.rule.toList ++ inputsText s)) =
        (lex [] (s.rule.toList ++ inputsText s)).map (.colon :: ·) := by
      simp [lex_colon, lex_blank, flush]
    rw [hcolon, lex_name h.rule hinEnd, hinLex]
    rfl
  have hruleEnd : EndsWord (": ".toList ++ (s.rule.toList ++ inputsText s)) := by
    simp [EndsWord]
  have himpEnd := endsWord_marked " |" rfl s.implicitOutputs hruleEnd
  refine ⟨"build".toList ++ ((Writer.paths s.outputs).toList ++
    ((Writer.marked " |" s.implicitOutputs).toList ++
      (": ".toList ++ (s.rule.toList ++ inputsText s)))), ?_, ?_⟩
  · simp [Writer.buildLine, inputsText]
  · rw [lex_name (by decide) (endsWord_paths s.outputs himpEnd), lex_paths hout himpEnd,
      lex_marked lex_bar himp hruleEnd, hrule]
    rfl

/-! ## Rule and paths -/

/-- Tokens that no word starts. -/
def NoWord (ts : List Token) : Prop := ∀ w, ts.head? ≠ some (.word w)

theorem words_append (l : List Path) {ts : List Token} (h : NoWord ts) :
    words (wordsOf l ++ ts) = (l, ts) := by
  induction l with
  | nil =>
    cases ts with
    | nil => rfl
    | cons t ts =>
      cases t with
      | word w => exact absurd rfl (h w)
      | colon => rfl
      | bar => rfl
      | bars => rfl
  | cons p l ih =>
    have hword : words (wordsOf (p :: l) ++ ts) =
        (p :: (words (wordsOf l ++ ts)).1, (words (wordsOf l ++ ts)).2) := by
      simp [wordsOf, wordOf, words]
    rw [hword, ih]

theorem behind_append {mark : Token} (l : List Path) {ts : List Token} (h : NoWord ts)
    (hm : ts.head? ≠ some mark) : behind mark (markedWords mark l ++ ts) = (l, ts) := by
  cases l with
  | nil => simp [markedWords, behind, hm]
  | cons p l => simpa [markedWords, behind] using words_append (p :: l) h

theorem noWord_markedWords {mark : Token} (hm : ∀ w, mark ≠ .word w) (l : List Path)
    {ts : List Token} (h : NoWord ts) : NoWord (markedWords mark l ++ ts) := by
  cases l with
  | nil => simpa [markedWords] using h
  | cons p l => simpa [NoWord, markedWords] using hm

/-- A statement without variables. -/
def bare (s : Statement) : Statement := { s with vars := ∅, pool := none, depfile := none }

theorem ofTokens?_outputTokens {s : Statement} (h : s.IsSpellable) :
    ofTokens? (outputTokens s) = some (bare s) := by
  have hend : NoWord [] := nofun
  have hordEnd : NoWord (markedWords .bars s.orderOnly ++ []) := noWord_markedWords (by simp) _ hend
  have hord : behind .bars (markedWords .bars s.orderOnly ++ []) = (s.orderOnly, []) :=
    behind_append _ hend nofun
  rw [List.append_nil] at hordEnd hord
  have hordHead : (markedWords .bars s.orderOnly).head? ≠ some .bar := by
    cases s.orderOnly <;> simp [markedWords]
  have himp : behind .bar (markedWords .bar s.implicit ++ markedWords .bars s.orderOnly) =
      (s.implicit, markedWords .bars s.orderOnly) := behind_append _ hordEnd hordHead
  have hrule : words (wordsOf [⟨s.rule⟩] ++ inputTokens s) =
      (⟨s.rule⟩ :: s.inputs, markedWords .bar s.implicit ++ markedWords .bars s.orderOnly) :=
    words_append (⟨s.rule⟩ :: s.inputs) (noWord_markedWords (by simp) _ hordEnd)
  have hcolon : NoWord (.colon :: (wordsOf [⟨s.rule⟩] ++ inputTokens s)) := by simp [NoWord]
  have himpOut : behind .bar (markedWords .bar s.implicitOutputs ++
        .colon :: (wordsOf [⟨s.rule⟩] ++ inputTokens s)) =
      (s.implicitOutputs, .colon :: (wordsOf [⟨s.rule⟩] ++ inputTokens s)) :=
    behind_append _ hcolon (by simp)
  rw [ofTokens?, outputTokens, words_append _ (noWord_markedWords (by simp) _ hcolon)]
  simp only [himpOut, hrule, himp, hord]
  rw [if_pos ⟨trivial, h.outputs, h.rule, trivial⟩]
  rfl

/-! ## Lines -/

/-- A line that the lexer reads holds no newline. -/
theorem newline_notMem_of_lex {w cs : List Char} {ts : List Token} (h : lex w cs = some ts) :
    '\n' ∉ cs := by
  induction w, cs using lex.induct generalizing ts with
  | case1 => simp
  | case2 w c cs hc ih =>
    rw [lex, if_pos hc] at h
    have hne : '\n' ≠ c := by rintro rfl; simp at hc
    simpa [hne] using ih h
  | case3 w c cs hc => simp [lex, hc] at h
  | case4 w cs ih | case5 w cs ih | case6 w cs ih | case7 w cs _ ih =>
    rw [lex] at h
    · obtain ⟨_, hlex, _⟩ := Option.map_eq_some_iff.1 h
      simpa using ih hlex
    all_goals assumption
  | case8 w c cs _ _ _ _ _ hc => simp_all [lex]
  | case9 w c cs _ _ _ _ _ hc ih =>
    rw [lex, if_neg hc] at h
    · have hne : '\n' ≠ c := by rintro rfl; simp at hc
      simpa [hne] using ih h
    all_goals assumption

theorem lines?_eq {text : String} {lines : List (List Char)}
    (ht : text.toList = lines.flatMap (· ++ ['\n'])) (h : ∀ l ∈ lines, '\n' ∉ l) :
    lines? text = some lines := by
  have hsplit : text.toList.splitOn '\n' = lines ++ [[]] := by
    rw [ht]
    clear ht
    induction lines with
    | nil => simp
    | cons l lines ih =>
      rw [List.flatMap_cons, List.append_assoc, List.singleton_append,
        List.splitOn_append_cons_self_of_not_mem (h l (by simp)),
        ih fun m hm => h m (by simp [hm])]
      rfl
  simp [lines?, hsplit]

theorem head?_eq {text : String} {line rest : List Char} {ts : List Token}
    (ht : text.toList = line ++ '\n' :: rest) (h : lex [] line = some ts) :
    head? text = ofTokens? ts := by
  rw [head?, ht, List.splitOn_append_cons_self_of_not_mem (newline_notMem_of_lex h)]
  simp [h]

/-- The line of a variable. -/
def bindingLine (e : String × String) : List Char :=
  ' ' :: ' ' :: (e.1.toList ++ ' ' :: '=' :: ' ' :: e.2.toList)

theorem toList_binding (key value : String) : (Writer.binding key value).toList =
    if value = "" then [] else bindingLine (key, value) ++ ['\n'] := by
  unfold Writer.binding Writer.variableAt
  by_cases h : value = ""
  · simp [h]
  · simp [h, bindingLine, List.replicate]

theorem binding?_bindingLine {e : String × String} (h : isName e.1 = true) :
    binding? (bindingLine e) = some e := by
  have hchars := (isName_iff.1 h).2
  have hblank : isNameChar ' ' = false := by decide
  simp [binding?, bindingLine, List.takeWhile_append_of_pos hchars,
    List.dropWhile_append_of_pos hchars, hblank, h]

theorem mapM_binding? {l : List (String × String)} (h : ∀ e ∈ l, isName e.1 = true) :
    (l.map bindingLine).mapM binding? = some l := by
  induction l with
  | nil => rfl
  | cons e l ih =>
    rw [List.map_cons, List.mapM_cons, binding?_bindingLine (h e (by simp)),
      ih fun f hf => h f (by simp [hf])]
    rfl

/-! ## Variables -/

/-- What a statement sets, with its pool and depfile. -/
def settings (s : Statement) : List (String × String) :=
  (s.pool.map ("pool", ·)).toList ++ ((s.depfile.map ("depfile", ·)).toList ++ s.vars.toList)

/-- The settings that are written. -/
def given (s : Statement) : List (String × String) := (settings s).filter (·.2 ≠ "")

theorem toList_bindings (s : Statement) :
    (Writer.bindings s).toList = ((given s).map bindingLine).flatMap (· ++ ['\n']) := by
  have hjoin : (Writer.bindings s).toList =
      (settings s).flatMap fun e => (Writer.binding e.1 e.2).toList := by
    cases hp : s.pool <;> cases hd : s.depfile <;>
      simp [Writer.bindings, Writer.bindingOf, settings, hp, hd, List.flatMap_map]
  rw [hjoin, given]
  generalize settings s = l
  induction l with
  | nil => rfl
  | cons e l ih =>
    rw [List.flatMap_cons, ih, toList_binding]
    by_cases h : e.2 = "" <;> simp [h]

theorem mem_settings {s : Statement} {e : String × String} : e ∈ settings s ↔
    (∃ v, s.pool = some v ∧ e = ("pool", v)) ∨ (∃ v, s.depfile = some v ∧ e = ("depfile", v)) ∨
      e ∈ s.vars.toList := by
  cases hp : s.pool <;> cases hd : s.depfile <;> simp [settings, hp, hd]

theorem given_plain {s : Statement} (h : s.HasPlainVars) {e : String × String}
    (he : e ∈ given s) : isName e.1 = true ∧ '\n' ∉ bindingLine e := by
  have hvalue : ∀ v, s.pool = some v ∨ s.depfile = some v ∨ (∃ k, (k, v) ∈ s.vars.toList) →
      '\n' ∉ v.toList := by
    intro v hv
    refine h.values v ?_
    simpa [or_assoc] using hv
  have hname : isName e.1 = true ∧ '\n' ∉ e.2.toList := by
    rcases mem_settings.1 (List.mem_of_mem_filter he) with ⟨v, hv, rfl⟩ | ⟨v, hv, rfl⟩ | hv
    · exact ⟨show isName "pool" = true by decide, hvalue v (.inl hv)⟩
    · exact ⟨show isName "depfile" = true by decide, hvalue v (.inr (.inl hv))⟩
    · exact ⟨(h.names e hv).1, hvalue e.2 (.inr (.inr ⟨e.1, hv⟩))⟩
  have hkey : '\n' ∉ e.1.toList := fun hm =>
    (plain_of_isNameChar ((isName_iff.1 hname.1).2 _ hm)).2.1 rfl
  exact ⟨hname.1, by simp [bindingLine, hkey, hname.2]⟩

theorem nodup_given {s : Statement} (h : s.HasPlainVars) : ((given s).map Prod.fst).Nodup := by
  have hpool : "pool" ∉ s.vars.toList.map Prod.fst := by
    rw [List.mem_map]
    rintro ⟨e, he, hk⟩
    exact (h.names e he).2.1 hk
  have hdepfile : "depfile" ∉ s.vars.toList.map Prod.fst := by
    rw [List.mem_map]
    rintro ⟨e, he, hk⟩
    exact (h.names e he).2.2 hk
  have hvars : (s.vars.toList.map Prod.fst).Nodup := s.vars.nodup_keys
  have hall : ((settings s).map Prod.fst).Nodup := by
    cases hp : s.pool <;> cases hd : s.depfile <;>
      simp only [settings, hp, hd, Option.map_none, Option.map_some, Option.toList_none,
        Option.toList_some, List.nil_append, List.cons_append, List.map_cons, List.nodup_cons,
        List.mem_cons, not_or]
    · exact hvars
    · exact ⟨hdepfile, hvars⟩
    · exact ⟨hpool, hvars⟩
    · exact ⟨⟨by decide, hpool⟩, hdepfile, hvars⟩
  exact hall.sublist (List.filter_sublist.map Prod.fst)

theorem ofPairs_given {s : Statement} (h : s.HasPlainVars) :
    (Table.ofPairs (given s)).get? "pool" = s.pool.filter (· ≠ "") ∧
    (Table.ofPairs (given s)).get? "depfile" = s.depfile.filter (· ≠ "") ∧
    ((Table.ofPairs (given s)).filter fun e => e.1 ≠ "pool" && e.1 ≠ "depfile") =
      s.vars.filter fun e => e.2 ≠ "" := by
  have hget (k v : String) : (Table.ofPairs (given s)).get? k = some v ↔
      (k, v) ∈ settings s ∧ v ≠ "" := by
    rw [Table.get?_ofPairs (nodup_given h)]
    simp [given]
  have hpool (v : String) : ("pool", v) ∉ s.vars.toList := fun hm => (h.names _ hm).2.1 rfl
  have hdepfile (v : String) : ("depfile", v) ∉ s.vars.toList := fun hm => (h.names _ hm).2.2 rfl
  refine ⟨Option.ext fun v => ?_, Option.ext fun v => ?_, SortedBy.ext_mem ?_⟩
  · rw [hget, mem_settings]
    simp [hpool, Option.filter_eq_some_iff]
  · rw [hget, mem_settings]
    simp [hdepfile, Option.filter_eq_some_iff]
  · rintro ⟨k, v⟩
    rw [SortedBy.mem_filter, SortedBy.mem_filter, ← Table.get?_eq_some_iff, hget, mem_settings,
      SortedBy.mem_def]
    have hkeys : (k, v) ∈ s.vars.toList → k ≠ "pool" ∧ k ≠ "depfile" := fun hm =>
      (h.names _ hm).2
    grind

theorem head?_build {s : Statement} (h : s.IsSpellable) :
    head? (Writer.build s) = some (bare s) := by
  obtain ⟨line, hline, hlex⟩ := lex_buildLine h
  have htext : (Writer.build s).toList = line ++ '\n' :: (Writer.bindings s).toList := by
    simp [Writer.build, hline]
  rw [head?_eq htext hlex, ofTokens?_outputTokens h]

theorem lines?_build {s : Statement} (h : s.IsSpellable) (hv : s.HasPlainVars) :
    ∃ line, lines? (Writer.build s) = some (line :: (given s).map bindingLine) := by
  obtain ⟨line, hline, hlex⟩ := lex_buildLine h
  refine ⟨line, lines?_eq ?_ ?_⟩
  · simp [Writer.build, hline, toList_bindings]
  · simp only [List.mem_cons, List.mem_map, forall_eq_or_imp]
    refine ⟨newline_notMem_of_lex hlex, ?_⟩
    rintro _ ⟨e, he, rfl⟩
    exact (given_plain hv he).2

theorem statement?_build {s : Statement} (h : s.IsSpellable) (hv : s.HasPlainVars) :
    statement? (Writer.build s) = some { s with
      pool := s.pool.filter (· ≠ "")
      depfile := s.depfile.filter (· ≠ "")
      vars := s.vars.filter fun e => e.2 ≠ "" } := by
  obtain ⟨line, hlines⟩ := lines?_build h hv
  obtain ⟨hpool, hdepfile, hvars⟩ := ofPairs_given hv
  simp only [statement?, head?_build h, hlines, Option.bind_eq_bind, Option.bind_some,
    List.tail_cons, mapM_binding? fun e he => (given_plain hv he).1, hpool, hdepfile, hvars]
  rfl

theorem default?_default {l : List Path} (h : ∀ p ∈ l, p.IsSpellable) :
    default? (Writer.default l) = some l := by
  have hend : EndsWord [] := .inl rfl
  have hlex : lex [] ("default".toList ++ ((Writer.paths l).toList ++ [])) =
      some (wordsOf (⟨"default"⟩ :: l) ++ []) := by
    rw [lex_name (by decide) (endsWord_paths l hend), lex_paths h hend]
    simp [lex_nil, flush, wordsOf]
  have hlines : lines? (Writer.default l) =
      some ["default".toList ++ ((Writer.paths l).toList ++ [])] := by
    refine lines?_eq (by simp [Writer.default]) fun line hm => ?_
    rw [List.mem_singleton.1 hm]
    exact newline_notMem_of_lex hlex
  have hwords : words (wordsOf (⟨"default"⟩ :: l) ++ []) = (⟨"default"⟩ :: l, []) :=
    words_append _ nofun
  simp only [default?, hlines, Option.bind_eq_bind, Option.bind_some, hlex, hwords, if_true]

end Reader

/-- Reading the first line of a written statement gives its rule and its paths. With the lines
below it, the pool, the depfile and the variables follow, except for empty ones. -/
theorem read_written :
    (∀ s : Statement, s.IsSpellable →
      Reader.head? (Writer.build s) = some { s with vars := ∅, pool := none, depfile := none } ∧
      (s.HasPlainVars → Reader.statement? (Writer.build s) = some { s with
        pool := s.pool.filter (· ≠ "")
        depfile := s.depfile.filter (· ≠ "")
        vars := s.vars.filter fun e => e.2 ≠ "" })) ∧
    ∀ l : List Path, (∀ p ∈ l, p.IsSpellable) → Reader.default? (Writer.default l) = some l :=
  ⟨fun _ h => ⟨Reader.head?_build h, Reader.statement?_build h⟩, fun _ => Reader.default?_default⟩

/-- Blanks, colons and dollars in paths, no inputs, and a variable without a value. -/
theorem read_written_dollars :
    let s : Statement :=
      { rule := "latex", outputs := [⟨"a b"⟩, ⟨"$c:"⟩], implicitOutputs := [⟨": d"⟩],
        orderOnly := [⟨"hold "⟩], depfile := some "a b.d", pool := some "",
        vars := Table.ofPairs [("engine", "pdf$latex -x"), ("blank", "")] }
    s.IsSpellable ∧ s.HasPlainVars ∧
    Reader.head? (Writer.build s) = some { s with vars := ∅, pool := none, depfile := none } ∧
    Reader.statement? (Writer.build s) =
      some { s with pool := none, vars := Table.ofPairs [("engine", "pdf$latex -x")] } ∧
    Reader.default? (Writer.default s.outputs) = some s.outputs := by
  intro s
  have hpaths : ∀ p ∈ s.allOutputs ++ s.allInputs, p.IsSpellable := by decide +kernel
  have hs : s.IsSpellable := ⟨by simp [s], by decide +kernel, hpaths⟩
  have hv : s.HasPlainVars := ⟨by decide +kernel, by decide +kernel⟩
  obtain ⟨hhead, hall⟩ := read_written.1 s hs
  have hvars : (s.vars.filter fun e => e.2 ≠ "") = Table.ofPairs [("engine", "pdf$latex -x")] := by
    decide +kernel
  refine ⟨hs, hv, hhead, ?_, read_written.2 _ fun p hp => hpaths p ?_⟩
  · rw [hall hv, hvars]
    rfl
  · exact List.mem_append_left _ (List.mem_append_left _ hp)

end Ninja
end DocGraph
