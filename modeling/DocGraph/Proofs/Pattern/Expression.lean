import DocGraph.Proofs.Pattern.ClassText
import DocGraph.Proofs.Pattern.Binding

/-!
# DocGraph.Proofs.Pattern.Expression

Patterns as regular expressions.

* `Regex.read?`   — the parts of a regular expression without alternatives in which only single
  characters repeat.
* `Regex.search`  — matches a text from the first place where it can, and repeats characters as often
  as it can.
* `Token.parts`   — the parts for a token. `readFrom_expression`: its regular expression reads so.
* `run_parts`     — these parts take what the token takes.
* `captures_expression` — a pattern matches like its regular expression.
-/

namespace DocGraph

open Pattern (Found value? record)

namespace Regex

/-- A part of a regular expression. -/
inductive Part where
  | one (set : Chars)
  /-- Characters of a set, as many as there can be. -/
  | many (set : Chars)
  /-- The start of a group, which may have a name. -/
  | enter (name : Option String)
  | leave
  /-- The text of a group once more. -/
  | again (name : String)
  /-- The start of the text. -/
  | first
  /-- The end of the text. -/
  | last

/-! ## Reading -/

/-- The text of a class up to the bracket that closes it, and what follows, where classes are open
inside of it. -/
def upToClose? (inside : Nat) : List Char → Option (List Char × List Char)
  | [] => none
  | '\\' :: c :: cs => (upToClose? inside cs).map fun e => ('\\' :: c :: e.1, e.2)
  | '[' :: cs => (upToClose? (inside + 1) cs).map fun e => ('[' :: e.1, e.2)
  | ']' :: cs =>
    match inside with
    | 0 => some ([']'], cs)
    | inside + 1 => (upToClose? inside cs).map fun e => (']' :: e.1, e.2)
  | c :: cs => (upToClose? inside cs).map fun e => (c :: e.1, e.2)

/-- The start of a class, where a closing bracket closes nothing, and what follows. -/
def classStart : List Char → List Char × List Char
  | '^' :: ']' :: cs => (['^', ']'], cs)
  | '^' :: cs => (['^'], cs)
  | ']' :: cs => ([']'], cs)
  | cs => ([], cs)

/-- The class behind an opening bracket, and what follows. -/
def class? (cs : List Char) : Option (Chars × List Char) := do
  let (start, cs) := classStart cs
  let (text, rest) ← upToClose? 0 cs
  let set ← ClassText.read? (String.ofList ('[' :: start ++ text))
  return (set, rest)

/-- A character of a set, or as many as there can be if a star follows. -/
def repeated (set : Chars) : List Char → Part × List Char
  | '*' :: cs => (.many set, cs)
  | cs => (.one set, cs)

/-- The name in front of a character, and what follows that. -/
def name? (close : Char) (cs : List Char) : Option (String × List Char) := do
  let name ← Token.until? close cs
  if Text.isIdentifier (String.ofList name) then
    return (String.ofList name, cs.drop (name.length + 1))
  else none

/-- What stands behind an opening parenthesis: the start of a group, or the name of one. -/
def group? : List Char → Option (Part × List Char)
  | '?' :: ':' :: cs => some (.enter none, cs)
  | '?' :: 'P' :: '<' :: cs => (name? '>' cs).map fun e => (.enter (some e.1), e.2)
  | '?' :: 'P' :: '=' :: cs => (name? ')' cs).map fun e => (.again e.1, e.2)
  | _ => none

/-- The part at the start of an expression, and what follows. Alternatives, repeated groups and
numbers of repetitions are not read. -/
def part? : List Char → Option (Part × List Char)
  | [] => none
  | '\\' :: cs =>
    match cs with
    | c :: cs => if ClassText.escapable c then some (repeated (· == c) cs) else none
    | [] => none
  | '[' :: cs => (class? cs).map fun e => repeated e.1 e.2
  | '(' :: cs => group? cs
  | '.' :: cs => some (repeated (· != '\n') cs)
  | ')' :: cs => some (.leave, cs)
  | '^' :: cs => some (.first, cs)
  | '$' :: cs => some (.last, cs)
  | c :: cs => if c ∈ ['*', '+', '?', '|', '\x7b'] then none else some (repeated (· == c) cs)

/-- Whether a part can stand inside of `depth` groups and behind the given names. -/
def Part.isAllowed (depth : Nat) (names : List String) : Part → Bool
  | enter (some name) => name ∉ names
  | leave => depth != 0
  | again name => name ∈ names
  | _ => true

/-- The number of groups around what follows a part. -/
def Part.depth (depth : Nat) : Part → Nat
  | enter _ => depth + 1
  | leave => depth - 1
  | _ => depth

def Part.name? : Part → Option String
  | enter name => name
  | again name => some name
  | _ => none

theorem length_upToClose? {inside : Nat} {cs text rest : List Char}
    (h : upToClose? inside cs = some (text, rest)) : rest.length < cs.length := by
  fun_induction upToClose? inside cs generalizing text with
  | case1 => cases h
  | case4 cs =>
    cases h
    exact Nat.lt_succ_self _
  | case2 inside c cs ih =>
    obtain ⟨e, he, heq⟩ := Option.map_eq_some_iff.1 h
    cases heq
    exact (ih he).trans_le (Nat.le_add_right _ 2)
  | case3 inside cs ih | case5 cs inside ih | case6 inside c cs _ _ _ ih =>
    obtain ⟨e, he, heq⟩ := Option.map_eq_some_iff.1 h
    cases heq
    exact (ih he).trans (Nat.lt_succ_self _)

theorem length_classStart (cs : List Char) : (classStart cs).2.length ≤ cs.length := by
  fun_cases classStart cs <;> grind

theorem length_class? {cs rest : List Char} {set : Chars} (h : class? cs = some (set, rest)) :
    rest.length < cs.length := by
  obtain ⟨⟨text, rest'⟩, hclose, h⟩ := Option.bind_eq_some_iff.1 h
  obtain ⟨set', -, h⟩ := Option.bind_eq_some_iff.1 h
  cases h
  exact (length_upToClose? hclose).trans_le (length_classStart cs)

theorem length_repeated (set : Chars) (cs : List Char) :
    (repeated set cs).2.length ≤ cs.length := by
  unfold repeated
  split <;> simp

theorem length_name? {close : Char} {cs rest : List Char} {name : String}
    (h : name? close cs = some (name, rest)) : rest.length ≤ cs.length := by
  obtain ⟨text, -, h⟩ := Option.bind_eq_some_iff.1 h
  split at h
  · cases h
    rw [List.length_drop]
    exact Nat.sub_le _ _
  · cases h

theorem length_group? {cs rest : List Char} {p : Part} (h : group? cs = some (p, rest)) :
    rest.length < cs.length := by
  unfold group? at h
  split at h
  · cases h
    simp only [List.length_cons]
    omega
  · next cs =>
    obtain ⟨e, he, heq⟩ := Option.map_eq_some_iff.1 h
    cases heq
    exact Nat.lt_succ_of_lt (Nat.lt_succ_of_lt (Nat.lt_succ_of_le (length_name? he)))
  · next cs =>
    obtain ⟨e, he, heq⟩ := Option.map_eq_some_iff.1 h
    cases heq
    exact Nat.lt_succ_of_lt (Nat.lt_succ_of_lt (Nat.lt_succ_of_le (length_name? he)))
  · cases h

theorem length_part? {cs rest : List Char} {p : Part} (h : part? cs = some (p, rest)) :
    rest.length < cs.length := by
  have hrepeated {set : Chars} {cs' : List Char} (heq : repeated set cs' = (p, rest)) :
      rest.length < cs'.length + 1 := by
    have hle := length_repeated set cs'
    rw [heq] at hle
    exact Nat.lt_succ_of_le hle
  unfold part? at h
  split at h
  · cases h
  · split at h
    · split at h
      · exact Nat.lt_succ_of_lt (hrepeated (Option.some.inj h))
      · cases h
    · cases h
  · obtain ⟨e, he, heq⟩ := Option.map_eq_some_iff.1 h
    exact (hrepeated heq).trans_le (Nat.succ_le_succ (length_class? he).le)
  · exact Nat.lt_succ_of_lt (length_group? h)
  · exact hrepeated (Option.some.inj h)
  · cases h
    exact Nat.lt_succ_self _
  · cases h
    exact Nat.lt_succ_self _
  · cases h
    exact Nat.lt_succ_self _
  · split at h
    · cases h
    · exact hrepeated (Option.some.inj h)

/-- The parts of an expression inside of `depth` groups and behind the given names. -/
def readFrom (depth : Nat) (names : List String) (cs : List Char) : Option (List Part) :=
  match _h : part? cs with
  | some (p, rest) =>
    if p.isAllowed depth names then
      (readFrom (p.depth depth) (p.name?.toList ++ names) rest).map (p :: ·)
    else none
  | none => if cs.isEmpty && depth == 0 then some [] else none
termination_by cs.length
decreasing_by exact length_part? _h

/-- The parts of a regular expression. -/
def read? (text : String) : Option (List Part) := readFrom 0 [] text.toList

theorem readFrom_of_part {depth : Nat} {names : List String} {cs rest : List Char} {p : Part}
    (h : part? cs = some (p, rest)) (hallowed : p.isAllowed depth names = true) :
    readFrom depth names cs =
      (readFrom (p.depth depth) (p.name?.toList ++ names) rest).map (p :: ·) := by
  rw [readFrom]
  split
  · next heq =>
    rw [h] at heq
    cases heq
    exact if_pos hallowed
  · next heq =>
    rw [h] at heq
    cases heq

/-! ## Matching -/

/-- The groups that are open, the last one first, each with the place where it starts. -/
abbrev Groups := List (Option String × Nat)

/-- What is found when a group ends, where `text` stands in it. -/
def capture (found : Found) (text : List Char) : Option String → Found
  | some name => found ++ [(name, text)]
  | none => found

/-- Matches `q` from the place `n` on. Of the numbers of repetitions the first one that leads to a
match counts, from the greatest on. -/
def run (q : List Char) : List Part → Nat → Groups → Found → Option Found
  | [], _, _, found => some found
  | .one set :: ps, n, groups, found =>
    (Pattern.oneIf set (q.drop n)).findSome? fun k => run q ps (n + k) groups found
  | .many set :: ps, n, groups, found =>
    (Pattern.downFrom ((q.drop n).takeWhile set).length).findSome? fun k =>
      run q ps (n + k) groups found
  | .enter name :: ps, n, groups, found => run q ps n ((name, n) :: groups) found
  | .leave :: ps, n, groups, found =>
    match groups with
    | (name, start) :: groups =>
      run q ps n groups (capture found ((q.drop start).take (n - start)) name)
    | [] => none
  | .again name :: ps, n, groups, found =>
    match value? found name with
    | some text =>
      (Pattern.exactly text (q.drop n)).findSome? fun k => run q ps (n + k) groups found
    | none => none
  | .first :: ps, n, groups, found => if n = 0 then run q ps n groups found else none
  | .last :: ps, n, groups, found =>
    if (q.drop n).isEmpty then run q ps n groups found else none

/-- What is found by the match that starts at the first place where there is one. -/
def search (ps : List Part) (q : List Char) : Option Found :=
  (List.range (q.length + 1)).findSome? fun n => run q ps n [] []

/-- The texts of the groups with the given names, if the expression matches anywhere. -/
def captures (ps : List Part) (names : List String) (text : String) : Option (List String) :=
  (search ps text.toList).map fun found =>
    names.map fun name => ((value? found name).map String.ofList).getD ""

end Regex

/-! ## The regular expression of a token -/

namespace Token

open Regex

/-- The parts for a token behind wildcards with the given names. -/
def parts (seen : List String) : Token → List Part
  | literal s => s.toList.map fun c => .one (· == c)
  | single => [.one (· != '/')]
  | star => [.many (· != '/')]
  | globStar => [.many (· != '\n')]
  | charClass negated body =>
    [.one fun c => (CharClass.read? body).any fun k => k.accepts c != negated]
  | named name =>
    if name ∈ seen then [.again name] else [.enter (some name), .many (· != '/'), .leave]

/-- The parts for tokens behind wildcards with the given names. -/
def allParts (seen : List String) : List Token → List Part
  | [] => []
  | t :: ts => t.parts seen ++ allParts (t.name?.toList ++ seen) ts

end Token

namespace Regex

theorem repeated_of_head? {cs : List Char} (h : cs.head? ≠ some '*') (set : Chars) :
    repeated set cs = (.one set, cs) := by
  unfold repeated
  split
  · exact absurd rfl h
  · rfl

theorem part?_escapeLiteral (c : Char) {rest : List Char} (h : rest.head? ≠ some '*') :
    part? (Token.escapeLiteral c ++ rest) = some (.one (· == c), rest) := by
  unfold Token.escapeLiteral
  split
  · next hc =>
    have hall : ['\\', '.', '+', '*', '?', '(', ')', '|', '[', ']', '\x7b', '\x7d', '^', '$',
      '#'].all ClassText.escapable = true := by decide
    have hescapable := List.all_eq_true.1 hall c hc
    simp [part?, hescapable, repeated_of_head? h]
  · next hc =>
    simp only [List.mem_cons, List.not_mem_nil, or_false, not_or] at hc
    simp [part?, hc, repeated_of_head? h]

theorem escapeMember_cases (c : Char) :
    c ∈ ['[', '\\', '&', '~', '^'] ∧ Token.escapeMember c = ['\\', c] ∨
      c ∉ ['[', '\\', '&', '~', '^'] ∧ Token.escapeMember c = [c] := by
  unfold Token.escapeMember
  split
  · next hc => exact .inl ⟨hc, rfl⟩
  · next hc => exact .inr ⟨hc, rfl⟩

theorem upToClose?_members {body : List Char} (hclose : ']' ∉ body) (rest : List Char) :
    upToClose? 0 (body.flatMap Token.escapeMember ++ ']' :: rest) =
      some (body.flatMap Token.escapeMember ++ [']'], rest) := by
  induction body with
  | nil => rfl
  | cons c body ih =>
    rw [List.mem_cons, not_or] at hclose
    rw [List.flatMap_cons, List.append_assoc, List.append_assoc]
    obtain ⟨-, hc⟩ | ⟨hmem, hc⟩ := escapeMember_cases c
    · rw [hc, List.cons_append, List.cons_append, List.nil_append, upToClose?, ih hclose.2]
      rfl
    · simp only [List.mem_cons, List.not_mem_nil, or_false, not_or] at hmem
      simp [hc, upToClose?, hmem, Ne.symm hclose.1, ih hclose.2]

theorem classStart_members {negated : Bool} {body : List Char} (hne : body ≠ [])
    (hclose : ']' ∉ body) (rest : List Char) :
    classStart ((if negated then ['^'] else []) ++ (body.flatMap Token.escapeMember ++ rest)) =
      (if negated then ['^'] else [], body.flatMap Token.escapeMember ++ rest) := by
  obtain ⟨c, body, rfl⟩ := List.exists_cons_of_ne_nil hne
  rw [List.mem_cons, not_or] at hclose
  rw [List.flatMap_cons, List.append_assoc]
  obtain ⟨-, hc⟩ | ⟨hmem, hc⟩ := escapeMember_cases c
  · rw [hc]
    cases negated <;> rfl
  · simp only [List.mem_cons, List.not_mem_nil, or_false, not_or] at hmem
    cases negated <;> simp [hc, classStart, hmem, Ne.symm hclose.1]

theorem toList_expression_charClass (negated : Bool) (body : String) (seen : List String) :
    ((Token.charClass negated body).expression seen).toList =
      '[' :: ((if negated then ['^'] else []) ++
        (body.toList.flatMap Token.escapeMember ++ [']'])) := by
  cases negated <;> simp [Token.expression]

theorem class?_expression {negated : Bool} {body : String} (hne : body ≠ "")
    (hclose : ']' ∉ body.toList) (rest : List Char) :
    class? ((if negated then ['^'] else []) ++
        (body.toList.flatMap Token.escapeMember ++ ']' :: rest)) =
      (CharClass.read? body).map fun k => (fun c => k.accepts c != negated, rest) := by
  have hread := ClassText.read?_expression hne hclose negated []
  rw [← String.ofList_toList (s := (Token.charClass negated body).expression []),
    toList_expression_charClass] at hread
  rw [class?, classStart_members (String.toList_eq_nil_iff.not.2 hne) hclose]
  simp only [upToClose?_members hclose, Option.bind_eq_bind, Option.bind_some, List.cons_append]
  rw [hread]
  cases CharClass.read? body <;> rfl

theorem part?_charClass {negated : Bool} {body : String}
    (h : (Token.charClass negated body).isReadable = true) (seen : List String)
    (rest : List Char) :
    part? (((Token.charClass negated body).expression seen).toList ++ rest) =
      some (repeated (fun c => (CharClass.read? body).any fun k => k.accepts c != negated) rest) := by
  obtain ⟨hne, hclose, hread⟩ := Token.isReadable_charClass.1 h
  obtain ⟨k, hk⟩ := Option.isSome_iff_exists.1 hread
  rw [toList_expression_charClass, List.cons_append, List.append_assoc, List.append_assoc, part?,
    List.singleton_append, class?_expression hne hclose, hk]
  rfl

theorem part?_noSlash (rest : List Char) :
    part? ("[^/]".toList ++ rest) = some (repeated (· != '/') rest) := by
  have hset : (fun c => (CharClass.read? "/").any fun k => k.accepts c != true) = (· != '/') := by
    have hread : CharClass.read? "/" = some ⟨[.one '/'], []⟩ := by decide
    funext c
    simp [hread, CharClass.accepts, CharSet.accepts, CharItem.accepts, bne, eq_comm]
  rw [← hset, ← part?_charClass (by decide) [] rest]
  rfl

theorem name?_append {close : Char} {name : String} (hname : Text.isIdentifier name = true)
    (hclose : Text.isNameChar close = false) (rest : List Char) :
    name? close (name.toList ++ close :: rest) = some (name, rest) := by
  have huntil := Token.until?_append (Token.notMem_of_isIdentifier hname hclose) rest
  simp [name?, huntil, hname]

section

variable {depth : Nat} {seen : List String} {rest : List Char}

theorem readFrom_one {cs : List Char} {set : Chars} (hpart : part? cs = some (.one set, rest)) :
    readFrom depth seen cs = (readFrom depth seen rest).map (.one set :: ·) :=
  readFrom_of_part hpart rfl

theorem head?_escapeLiteral (c : Char) (rest : List Char) :
    (Token.escapeLiteral c ++ rest).head? ≠ some '*' := by
  unfold Token.escapeLiteral
  split
  · simp
  · next hc =>
    simp only [List.mem_cons, List.not_mem_nil, or_false, not_or] at hc
    simp [hc]

theorem toList_expression_named (seen : List String) (name : String) :
    ((Token.named name).expression seen).toList =
      if name ∈ seen then "(?P=".toList ++ (name.toList ++ [')'])
      else "(?P<".toList ++ (name.toList ++ '>' :: "[^/]*)".toList) := by
  rw [Token.expression]
  split <;> simp [toString]

theorem head?_expression (h : rest.head? ≠ some '*') (t : Token) :
    ((t.expression seen).toList ++ rest).head? ≠ some '*' := by
  cases t with
  | literal s =>
    rw [Token.expression, String.toList_ofList]
    cases s.toList with
    | nil => exact h
    | cons c cs =>
      rw [List.flatMap_cons, List.append_assoc]
      exact head?_escapeLiteral c _
  | charClass negated body =>
    rw [toList_expression_charClass]
    simp
  | named name =>
    rw [toList_expression_named]
    split <;> simp
  | _ => simp [Token.expression]

theorem readFrom_text (h : rest.head? ≠ some '*') (s : List Char) :
    readFrom depth seen (s.flatMap Token.escapeLiteral ++ rest) =
      (readFrom depth seen rest).map ((s.map fun c => .one (· == c)) ++ ·) := by
  induction s with
  | nil => simp
  | cons c s ih =>
    have hnext : (s.flatMap Token.escapeLiteral ++ rest).head? ≠ some '*' := by
      cases s with
      | nil => exact h
      | cons d s =>
        rw [List.flatMap_cons, List.append_assoc]
        exact head?_escapeLiteral d _
    rw [List.flatMap_cons, List.append_assoc, readFrom_one (part?_escapeLiteral c hnext), ih,
      Option.map_map]
    rfl

theorem readFrom_again {name : String} (hname : Text.isIdentifier name = true)
    (hseen : name ∈ seen) :
    readFrom depth seen ("(?P=".toList ++ (name.toList ++ ')' :: rest)) =
      (readFrom depth (name :: seen) rest).map (.again name :: ·) := by
  have hpart : part? ("(?P=".toList ++ (name.toList ++ ')' :: rest)) =
      some (.again name, rest) := by
    change (name? ')' (name.toList ++ ')' :: rest)).map _ = _
    rw [name?_append hname (by decide)]
    rfl
  exact readFrom_of_part hpart (by simpa [Part.isAllowed] using hseen)

theorem readFrom_group {name : String} (hname : Text.isIdentifier name = true)
    (hseen : name ∉ seen) :
    readFrom depth seen ("(?P<".toList ++ (name.toList ++ '>' :: ("[^/]*)".toList ++ rest))) =
      (readFrom depth (name :: seen) rest).map
        ([.enter (some name), .many (· != '/'), .leave] ++ ·) := by
  have henter : part? ("(?P<".toList ++ (name.toList ++ '>' :: ("[^/]*)".toList ++ rest))) =
      some (.enter (some name), "[^/]*)".toList ++ rest) := by
    change (name? '>' (name.toList ++ '>' :: _)).map _ = _
    rw [name?_append hname (by decide)]
    rfl
  have hmany : part? ("[^/]*)".toList ++ rest) = some (.many (· != '/'), ')' :: rest) :=
    part?_noSlash ('*' :: ')' :: rest)
  have hleave : part? (')' :: rest) = some (.leave, rest) := rfl
  rw [readFrom_of_part henter (by simpa [Part.isAllowed] using hseen), readFrom_of_part hmany rfl,
    readFrom_of_part hleave rfl, Option.map_map, Option.map_map]
  rfl

/-- The regular expression of a token reads as its parts. -/
theorem readFrom_expression {t : Token} (ht : t.isReadable = true) (h : rest.head? ≠ some '*') :
    readFrom depth seen ((t.expression seen).toList ++ rest) =
      (readFrom depth (t.name?.toList ++ seen) rest).map (t.parts seen ++ ·) := by
  cases t with
  | literal s =>
    rw [Token.expression, String.toList_ofList]
    exact readFrom_text h s.toList
  | single =>
    have hpart := part?_noSlash rest
    rw [repeated_of_head? h] at hpart
    exact readFrom_one hpart
  | star =>
    have hpart : part? ("[^/]*".toList ++ rest) = some (.many (· != '/'), rest) :=
      part?_noSlash ('*' :: rest)
    exact readFrom_of_part hpart rfl
  | globStar =>
    have hpart : part? (".*".toList ++ rest) = some (.many (· != '\n'), rest) := rfl
    exact readFrom_of_part hpart rfl
  | charClass negated body =>
    have hpart := part?_charClass ht seen rest
    rw [repeated_of_head? h] at hpart
    exact readFrom_one hpart
  | named name =>
    by_cases hseen : name ∈ seen
    · rw [Token.parts, if_pos hseen, toList_expression_named, if_pos hseen, List.append_assoc,
        List.append_assoc]
      exact readFrom_again ht hseen
    · rw [Token.parts, if_neg hseen, toList_expression_named, if_neg hseen, List.append_assoc,
        List.append_assoc]
      exact readFrom_group ht hseen

end

theorem head?_expressions {rest : List Char} (h : rest.head? ≠ some '*') (ts : List Token)
    (seen : List String) :
    ((String.join (Token.expressions seen ts)).toList ++ rest).head? ≠ some '*' := by
  induction ts generalizing seen with
  | nil => exact h
  | cons t ts ih =>
    rw [Token.expressions, String.join_cons, String.toList_append, List.append_assoc]
    exact head?_expression (ih _) t

/-- The regular expressions of tokens, in front of the end of a group and of the text. -/
theorem readFrom_expressions {ts : List Token} (hts : ∀ t ∈ ts, t.isReadable = true)
    (seen : List String) :
    readFrom 1 seen ((String.join (Token.expressions seen ts)).toList ++ [')', '$']) =
      some (Token.allParts seen ts ++ [.leave, .last]) := by
  induction ts generalizing seen with
  | nil =>
    have hleave : part? [')', '$'] = some (.leave, ['$']) := rfl
    have hlast : part? ['$'] = some (.last, []) := rfl
    have hnil : readFrom 0 seen [] = some [] := by simp [readFrom, part?]
    change readFrom 1 seen [')', '$'] = _
    rw [readFrom_of_part hleave rfl, readFrom_of_part hlast rfl]
    simp [Part.depth, Part.name?, hnil, Token.allParts]
  | cons t ts ih =>
    rw [List.forall_mem_cons] at hts
    have hends : [')', '$'].head? ≠ some '*' := by decide
    have hhead := head?_expressions hends ts (t.name?.toList ++ seen)
    rw [Token.expressions, String.join_cons, String.toList_append, List.append_assoc,
      readFrom_expression hts.1 hhead, ih hts.2, Token.allParts, List.append_assoc]
    rfl

theorem read?_anchored (p : Pattern) :
    read? p.anchored =
      some (.first :: .enter none :: (Token.allParts [] p.tokens ++ [.leave, .last])) := by
  have hfirst (cs : List Char) : part? ('^' :: cs) = some (.first, cs) := rfl
  have henter (cs : List Char) : part? ('(' :: '?' :: ':' :: cs) = some (.enter none, cs) := rfl
  have htext : p.anchored.toList = '^' :: '(' :: '?' :: ':' ::
      ((String.join (Token.expressions [] p.tokens)).toList ++ [')', '$']) := by
    simp [Pattern.anchored, Pattern.expression]
  rw [read?, htext, readFrom_of_part (hfirst _) rfl, readFrom_of_part (henter _) rfl]
  change ((readFrom 1 [] _).map _).map _ = _
  rw [readFrom_expressions p.readable []]
  rfl

/-! ## Matching along tokens -/

section

variable (q : List Char) (ps : List Part) (groups : Groups) (found : Found)

theorem run_text (s : List Char) (n : Nat) :
    run q ((s.map fun c => .one (· == c)) ++ ps) n groups found =
      (Pattern.exactly s (q.drop n)).findSome? fun k => run q ps (n + k) groups found := by
  induction s generalizing n with
  | nil => simp [Pattern.exactly]
  | cons c s ih =>
    rw [List.map_cons, List.cons_append, run]
    cases hq : q.drop n with
    | nil => simp [Pattern.oneIf, Pattern.exactly]
    | cons a r =>
      have hr : q.drop (n + 1) = r := by
        rw [← List.drop_drop, hq]
        rfl
      by_cases ha : a = c
      · subst ha
        have hlength : n + 1 + s.length = n + (s.length + 1) := by omega
        simp only [Pattern.oneIf, beq_self_eq_true, if_true, List.findSome?_singleton, ih, hr,
          Pattern.exactly, List.isPrefixOf_cons_cons, Bool.true_and, List.length_cons]
        split
        · simp [hlength]
        · rfl
      · simp [Pattern.oneIf, Pattern.exactly, List.isPrefixOf_cons_cons, ha, Ne.symm ha]

/-- The parts for a token take what the token takes. -/
theorem run_parts {seen : List String}
    (hseen : ∀ name, name ∈ seen ↔ name ∈ found.map Prod.fst) (t : Token) (n : Nat) :
    run q (t.parts seen ++ ps) n groups found =
      (Pattern.lengths found (q.drop n) t).findSome? fun k =>
        run q ps (n + k) groups (record found ((q.drop n).take k) t) := by
  cases t with
  | literal s => exact run_text q ps groups found s.toList n
  | named name =>
    cases hv : value? found name with
    | none =>
      have hnew : name ∉ seen := by
        rw [hseen, ← Pattern.value?_isSome, hv]
        exact Bool.false_ne_true
      rw [Token.parts, if_neg hnew, Pattern.lengths, hv]
      simp only [List.cons_append, List.nil_append, run, capture, Nat.add_sub_cancel_left,
        Pattern.record_of_unknown hv]
      rfl
    | some v =>
      have hknown : (value? found name).isSome = true := by simp [hv]
      have hold : name ∈ seen := (hseen name).2 (Pattern.value?_isSome.1 hknown)
      rw [Token.parts, if_pos hold, Pattern.lengths, hv]
      simp only [List.cons_append, List.nil_append, run, hv, Pattern.record_of_known hknown]
  | _ => rfl

end

/-- The parts for tokens, up to the end of the text, find what the tokens find. -/
theorem run_allParts (q : List Char) (ts : List Token) {seen : List String} {found : Found}
    (hseen : ∀ name, name ∈ seen ↔ name ∈ found.map Prod.fst) (n start : Nat) :
    run q (Token.allParts seen ts ++ [.leave, .last]) n [(none, start)] found =
      Pattern.cut ts found (q.drop n) := by
  induction ts generalizing seen found n with
  | nil => rfl
  | cons t ts ih =>
    rw [Token.allParts, List.append_assoc, run_parts q _ _ _ hseen, Pattern.cut]
    congr 1
    funext k
    rw [List.drop_drop]
    refine ih (fun name => ?_) (n + k)
    rw [← Pattern.mem_seen_record, List.mem_append, List.mem_append, hseen]

theorem search_anchored (q : List Char) (ts : List Token) :
    search (.first :: .enter none :: (Token.allParts [] ts ++ [.leave, .last])) q =
      Pattern.cut ts [] q := by
  have hnone (name : String) : name ∈ ([] : List String) ↔ name ∈ ([] : Found).map Prod.fst :=
    Iff.rfl
  -- no match starts behind the start of the text
  have hrun : (fun n => run q (.first :: .enter none :: (Token.allParts [] ts ++ [.leave, .last]))
      n [] []) = fun n => if n = 0 then Pattern.cut ts [] q else none := by
    funext n
    rw [run, run, run_allParts q ts hnone]
    split
    · next hn => rw [hn, List.drop_zero]
    · rfl
  rw [search, hrun, List.range_succ_eq_map, List.findSome?_cons, if_pos rfl]
  cases Pattern.cut ts [] q with
  | some f => rfl
  | none => simp

end Regex

namespace Pattern

open Regex

/-- Where no name is found twice, each has the value that was found for it. -/
theorem map_value? {found : Found} (h : (found.map Prod.fst).Nodup) :
    ((found.map Prod.fst).map fun name => ((value? found name).map String.ofList).getD "") =
      found.map fun e => String.ofList e.2 := by
  rw [List.map_map]
  refine List.map_congr_left fun e he => ?_
  obtain ⟨front, back, rfl⟩ := List.append_of_mem he
  have hvalue : value? (front ++ e :: back) e.1 = some e.2 := by
    refine List.lookup_eq_some_iff.2 ⟨front, back, rfl, fun d hd => ?_⟩
    rw [List.map_append, List.nodup_append] at h
    simpa using (h.2.2 d.1 (List.mem_map_of_mem hd) e.1 (by simp)).symm
  simp [hvalue]

/-- A pattern matches like its regular expression, which can be read. -/
theorem captures_expression (p : Pattern) :
    ∃ ps, Regex.read? p.anchored = some ps ∧
      ∀ path, p.captures path = Regex.captures ps p.names path := by
  refine ⟨_, read?_anchored p, fun path => ?_⟩
  rw [Regex.captures, search_anchored, captures]
  cases hcut : cut p.tokens [] path.toList with
  | none => rfl
  | some f =>
    have hnames : f.map Prod.fst = p.names := (cut_sound hcut).names
    rw [Option.map_some, Option.map_some, ← hnames, map_value? (hnames ▸ nodup_names p)]

end Pattern
end DocGraph
