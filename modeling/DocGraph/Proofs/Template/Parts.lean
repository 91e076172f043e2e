import DocGraph.Template
import Mathlib.Data.List.TakeWhile

/-!
# DocGraph.Proofs.Template.Parts

The parts of a template.

* `IsName`  — an identifier, which a star may precede.
* `Begins`  — what a dollar can begin, and what is left behind that.
* `Parses`  — a text as a sequence of parts: a dollar that begins nothing is a stray one.
* `afterDollar_of_begins`, `exists_begins` — the scanner decides what a dollar begins.
* `parses_iff` — the parts that the scanner finds are the only ones.
* `Parses.spelled` — and they make up the text.
* `Parses.append_plain` — text without a dollar in front of a template.
-/

namespace DocGraph
namespace Template

/-- An identifier, which a star may precede. -/
inductive IsName : List Char → Prop where
  | plain {cs : List Char} (h : Text.isIdentifier (String.ofList cs) = true) : IsName cs
  | starred {cs : List Char} (h : Text.isIdentifier (String.ofList cs) = true) : IsName ('*' :: cs)

/-- What a dollar in front of a text begins, and the rest of the text behind that. A name without
braces goes on as long as it can. -/
inductive Begins : List Char → Part → List Char → Prop where
  | escape {cs : List Char} : Begins ('$' :: cs) .escape cs
  | bare {name cs : List Char} (hname : IsName name)
      (hend : ∀ c ∈ cs.head?, Text.isNameChar c = false) :
      Begins (name ++ cs) (.placeholder name ('$' :: name)) cs
  | braced {name cs : List Char} (hname : IsName name) :
      Begins ('\x7b' :: name ++ '\x7d' :: cs)
        (.placeholder name ('$' :: '\x7b' :: name ++ ['\x7d'])) cs

/-- A text as a sequence of parts. -/
inductive Parses : List Char → List Part → Prop where
  | nil : Parses [] []
  | char {c : Char} {cs : List Char} {ps : List Part} (hc : c ≠ '$') (hr : Parses cs ps) :
      Parses (c :: cs) (.char c :: ps)
  | dollar {cs rest : List Char} {p : Part} {ps : List Part} (hp : Begins cs p rest)
      (hr : Parses rest ps) : Parses ('$' :: cs) (p :: ps)
  | stray {cs : List Char} {ps : List Part} (hno : ∀ p rest, ¬Begins cs p rest)
      (hr : Parses cs ps) : Parses ('$' :: cs) (.stray :: ps)

/-! ## Names -/

theorem isIdentifier_iff {cs : List Char} : Text.isIdentifier (String.ofList cs) = true ↔
    ∃ c r, cs = c :: r ∧ Text.isNameStart c = true ∧ ∀ d ∈ r, Text.isNameChar d = true := by
  rw [Text.isIdentifier, String.toList_ofList]
  cases cs with
  | nil =>
    constructor
    · intro h
      cases h
    · rintro ⟨_, _, h, -⟩
      cases h
  | cons c r =>
    rw [Bool.and_eq_true, List.all_eq_true]
    constructor
    · exact fun h => ⟨c, r, rfl, h⟩
    · rintro ⟨_, _, heq, h⟩
      cases heq
      exact h

theorem takeWhile_eq_of_head? {p : Char → Bool} {l r : List Char} (hl : ∀ c ∈ l, p c = true)
    (hr : ∀ c ∈ r.head?, p c = false) : (l ++ r).takeWhile p = l := by
  rw [List.takeWhile_append_of_pos hl]
  cases r with
  | nil => simp
  | cons c r => simp [hr c rfl]

/-- What is read of a name, and the longest identifier behind that. -/
def nameAfter? (read : List Char) : List Char → Option (List Char)
  | c :: r => if Text.isNameStart c then some (read ++ c :: r.takeWhile Text.isNameChar) else none
  | [] => none

theorem nameAfter?_eq_some_iff {read cs name : List Char} : nameAfter? read cs = some name ↔
    ∃ body rest, cs = body ++ rest ∧ name = read ++ body ∧
      Text.isIdentifier (String.ofList body) = true ∧
      ∀ c ∈ rest.head?, Text.isNameChar c = false := by
  constructor
  · intro h
    cases cs with
    | nil => cases h
    | cons c r =>
      obtain ⟨hc, hname⟩ := Option.ite_none_right_eq_some.1 h
      have hcut : c :: r =
          (c :: r.takeWhile Text.isNameChar) ++ r.dropWhile Text.isNameChar := by
        rw [List.cons_append, List.takeWhile_append_dropWhile]
      refine ⟨_, _, hcut, (Option.some.inj hname).symm, ?_, ?_⟩
      · exact isIdentifier_iff.2 ⟨c, _, rfl, hc, fun d hd => List.mem_takeWhile_imp hd⟩
      · intro d hd
        have hstop := List.head?_dropWhile_not Text.isNameChar r
        rwa [Option.mem_def.1 hd] at hstop
  · rintro ⟨body, rest, rfl, rfl, hbody, hrest⟩
    obtain ⟨c, r, rfl, hc, hr⟩ := isIdentifier_iff.1 hbody
    rw [List.cons_append, nameAfter?, if_pos hc, takeWhile_eq_of_head? hr hrest]

theorem leadingName?_starred (cs : List Char) : leadingName? ('*' :: cs) = nameAfter? ['*'] cs := by
  cases cs <;> rfl

theorem leadingName?_plain {cs : List Char} (h : ∀ r, cs ≠ '*' :: r) :
    leadingName? cs = nameAfter? [] cs := by
  cases cs with
  | nil => rfl
  | cons c r =>
    unfold leadingName?
    split
    next star body heq =>
      split at heq
      · exact absurd ‹_› (h _)
      · cases heq
        rfl

theorem leadingName?_eq_some_iff {cs name : List Char} : leadingName? cs = some name ↔
    ∃ rest, cs = name ++ rest ∧ IsName name ∧ ∀ c ∈ rest.head?, Text.isNameChar c = false := by
  by_cases hstar : ∃ r, cs = '*' :: r
  · obtain ⟨r, rfl⟩ := hstar
    rw [leadingName?_starred, nameAfter?_eq_some_iff]
    constructor
    · rintro ⟨body, rest, rfl, rfl, hbody, hrest⟩
      exact ⟨rest, rfl, .starred hbody, hrest⟩
    · rintro ⟨rest, heq, hname, hrest⟩
      cases hname with
      | plain h =>
        obtain ⟨c, r', rfl, hc, -⟩ := isIdentifier_iff.1 h
        cases heq
        cases hc
      | starred h =>
        cases heq
        exact ⟨_, rest, rfl, rfl, h, hrest⟩
  · have hstar : ∀ r, cs ≠ '*' :: r := fun r h => hstar ⟨r, h⟩
    rw [leadingName?_plain hstar, nameAfter?_eq_some_iff]
    constructor
    · rintro ⟨body, rest, rfl, rfl, hbody, hrest⟩
      exact ⟨rest, rfl, .plain hbody, hrest⟩
    · rintro ⟨rest, rfl, hname, hrest⟩
      cases hname with
      | plain h => exact ⟨_, rest, rfl, rfl, h, hrest⟩
      | starred h => exact absurd rfl (hstar _)

/-! ## Dollars -/

theorem head?_of_isIdentifier {name : List Char} (h : Text.isIdentifier (String.ofList name) = true)
    (cs : List Char) : ∃ c ∈ (name ++ cs).head?, Text.isNameStart c = true := by
  obtain ⟨c, r, rfl, hc, -⟩ := isIdentifier_iff.1 h
  exact ⟨c, rfl, hc⟩

theorem IsName.head?_ne {name : List Char} (h : IsName name) (cs : List Char) {d : Char}
    (hd : Text.isNameStart d = false) (hstar : d ≠ '*') : (name ++ cs).head? ≠ some d := by
  cases h with
  | plain h =>
    obtain ⟨c, hc, hstart⟩ := head?_of_isIdentifier h cs
    rw [Option.mem_def.1 hc]
    intro heq
    rw [Option.some_inj.1 heq, hd] at hstart
    cases hstart
  | starred h =>
    intro heq
    exact hstar (Option.some_inj.1 heq).symm

theorem afterDollar_brace (r : List Char) :
    afterDollar ('\x7b' :: r) =
      match leadingName? r with
      | some name =>
        if (r.drop name.length).head? = some '\x7d'
        then .placeholder name ('$' :: '\x7b' :: name ++ ['\x7d'])
        else .stray
      | none => .stray := rfl

theorem afterDollar_plain {cs : List Char} (hdollar : cs.head? ≠ some '$')
    (hbrace : cs.head? ≠ some '\x7b') :
    afterDollar cs =
      match leadingName? cs with
      | some name => .placeholder name ('$' :: name)
      | none => .stray := by
  unfold afterDollar
  split
  · exact absurd rfl hdollar
  · exact absurd rfl hbrace
  · rfl

theorem afterDollar_of_begins {cs rest : List Char} {p : Part} (h : Begins cs p rest) :
    afterDollar cs = p := by
  cases h with
  | escape => rfl
  | bare hname hend =>
    rw [afterDollar_plain (hname.head?_ne _ rfl (by decide)) (hname.head?_ne _ rfl (by decide)),
      leadingName?_eq_some_iff.2 ⟨_, rfl, hname, hend⟩]
  | @braced name rest hname =>
    have hend : ∀ c ∈ ('\x7d' :: rest).head?, Text.isNameChar c = false := by
      intro c hc
      cases hc
      rfl
    rw [List.cons_append, afterDollar_brace, leadingName?_eq_some_iff.2 ⟨_, rfl, hname, hend⟩]
    dsimp only
    rw [List.drop_left]
    exact if_pos rfl

theorem spelling_of_begins {cs rest : List Char} {p : Part} (h : Begins cs p rest) :
    '$' :: cs = p.spelling ++ rest := by
  cases h with
  | escape => rfl
  | bare => rfl
  | braced => simp [Part.spelling]

/-- A dollar of which the scanner makes something other than a stray one begins that. -/
theorem exists_begins {cs : List Char} (h : afterDollar cs ≠ .stray) :
    ∃ rest, Begins cs (afterDollar cs) rest := by
  by_cases hdollar : cs.head? = some '$'
  · obtain ⟨r, rfl⟩ := List.head?_eq_some_iff.1 hdollar
    exact ⟨r, .escape⟩
  · by_cases hbrace : cs.head? = some '\x7b'
    · obtain ⟨r, rfl⟩ := List.head?_eq_some_iff.1 hbrace
      rw [afterDollar_brace] at h ⊢
      cases hname : leadingName? r with
      | none => exact absurd (by rw [hname]) h
      | some name =>
        obtain ⟨rest, rfl, hname', -⟩ := leadingName?_eq_some_iff.1 hname
        rw [hname] at h
        dsimp only at h ⊢
        rw [List.drop_left] at h ⊢
        split at h
        · next hclosed =>
          obtain ⟨rest', rfl⟩ := List.head?_eq_some_iff.1 hclosed
          exact ⟨rest', .braced hname'⟩
        · exact absurd rfl h
    · rw [afterDollar_plain hdollar hbrace] at h ⊢
      cases hname : leadingName? cs with
      | none => exact absurd (by rw [hname]) h
      | some name =>
        obtain ⟨rest, rfl, hname', hend⟩ := leadingName?_eq_some_iff.1 hname
        exact ⟨rest, .bare hname' hend⟩

theorem drop_of_begins {cs rest : List Char} {p : Part} (h : Begins cs p rest) :
    cs.drop (p.spelling.length - 1) = rest := by
  cases h with
  | escape => rfl
  | bare => simp [Part.spelling]
  | braced => simp [Part.spelling]

/-! ## Parses -/

theorem scan_dollar (cs : List Char) :
    scan ('$' :: cs) =
      afterDollar cs :: scan (cs.drop ((afterDollar cs).spelling.length - 1)) := by
  rw [scan, if_pos rfl]

theorem scan_char {c : Char} (hc : c ≠ '$') (cs : List Char) :
    scan (c :: cs) = .char c :: scan cs := by
  rw [scan, if_neg hc]

theorem parses_scan (cs : List Char) : Parses cs (scan cs) := by
  fun_induction scan cs with
  | case1 => exact .nil
  | case2 cs part ih =>
    by_cases hstray : part = .stray
    · rw [hstray] at ih ⊢
      refine .stray (fun p rest hp => ?_) ih
      rw [show part = p from afterDollar_of_begins hp] at hstray
      subst hstray
      cases hp
    · obtain ⟨rest, hp⟩ := exists_begins hstray
      have hdrop : cs.drop (part.spelling.length - 1) = rest := drop_of_begins hp
      rw [hdrop] at ih ⊢
      exact .dollar hp ih
  | case3 c cs hc ih => exact .char hc ih

theorem Parses.eq_scan {cs : List Char} {ps : List Part} (h : Parses cs ps) : ps = scan cs := by
  induction h with
  | nil => rw [scan]
  | char hc _ ih => rw [scan_char hc, ih]
  | dollar hp _ ih => rw [scan_dollar, afterDollar_of_begins hp, drop_of_begins hp, ih]
  | @stray cs ps hno _ ih =>
    have hstray : afterDollar cs = .stray := by
      by_contra h
      obtain ⟨rest, hbegins⟩ := exists_begins h
      exact hno _ _ hbegins
    rw [scan_dollar, hstray, ih]
    rfl

/-- The parts that the scanner finds are the only ones. -/
theorem parses_iff {cs : List Char} {ps : List Part} : Parses cs ps ↔ ps = scan cs :=
  ⟨Parses.eq_scan, fun h => h ▸ parses_scan cs⟩

theorem Parses.spelled {cs : List Char} {ps : List Part} (h : Parses cs ps) :
    ps.flatMap Part.spelling = cs := by
  induction h with
  | nil => rfl
  | char _ _ ih => rw [List.flatMap_cons, ih]; rfl
  | dollar hp _ ih => rw [List.flatMap_cons, ih, ← spelling_of_begins hp]
  | stray _ _ ih => rw [List.flatMap_cons, ih]; rfl

/-- Text without a dollar in front of a template adds its characters. -/
theorem Parses.append_plain {cs ds : List Char} {ps : List Part} (h : '$' ∉ cs)
    (hr : Parses ds ps) : Parses (cs ++ ds) (cs.map .char ++ ps) := by
  induction cs with
  | nil => exact hr
  | cons c cs ih =>
    rw [List.mem_cons, not_or] at h
    exact .char (Ne.symm h.1) (ih h.2)

end Template
end DocGraph
