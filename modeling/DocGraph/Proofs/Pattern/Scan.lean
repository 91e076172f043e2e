import DocGraph.Proofs.Pattern.Literals
import DocGraph.Proofs.Outcome
import Mathlib.Data.List.TakeWhile

/-!
# DocGraph.Proofs.Pattern.Scan

How texts are cut into tokens.

* `Token.Proper`  — a token as texts have them: no literal and no class is empty, a class has no
  closing bracket in it, and a name is an identifier.
* `Token.Begins`  — the unit that a text starts with: a token, or a character that starts none.
* `Token.Faulty`  — the texts that start with brackets or braces which hold nothing proper.
* `Token.Passes`  — the units of a text from the left, up to a rest of it.
* `scan_eq_ok_iff`, `scan_eq_error_iff` — the scanner joins the characters among the units of the
  whole text, and fails where they lead to a fault.
* `Token.Scans`   — a text as a sequence of tokens: a character that starts nothing is literal text.
* `scan_lossless` — tokens spell their text and are proper, and the scanner fails at faults only.
* `unclosed_brace_leaves_star` — the star of a named wildcard that is not closed is a token.
* `proper_of_compile` — all tokens of a compiled pattern are proper.
-/

namespace DocGraph
namespace Token

/-- A token as texts have them. A class that is not negated has no exclamation mark in front. -/
inductive Proper : Token → Prop where
  | literal {s : String} (hs : s ≠ "") : Proper (.literal s)
  | single : Proper .single
  | star : Proper .star
  | globStar : Proper .globStar
  | charClass {negated : Bool} {body : String} (hne : body ≠ "") (hclose : ']' ∉ body.toList)
      (hmark : negated = false → body.toList.head? ≠ some '!') : Proper (.charClass negated body)
  | named {name : String} (hname : Text.isIdentifier name = true) : Proper (.named name)

theorem Proper.ne_empty {t : Token} (h : t.Proper) : t ≠ .literal "" := by
  rintro rfl
  cases h with
  | literal hs => exact hs rfl

theorem spelling_ne_nil {t : Token} (h : t ≠ .literal "") : t.spelling.toList ≠ [] := by
  cases t with
  | literal s =>
    intro hs
    exact h (congrArg literal (String.toList_eq_nil_iff.1 hs))
  | charClass negated body => cases negated <;> simp [spelling]
  | named name => simp [spelling]
  | _ => decide

theorem toList_spelling_charClass (negated : Bool) (body : String) :
    (charClass negated body).spelling.toList =
      '[' :: ((if negated then ['!'] else []) ++ body.toList ++ [']']) := by
  cases negated <;> simp [spelling]

theorem toList_spelling_named (name : String) :
    (named name).spelling.toList = '$' :: '\x7b' :: '*' :: (name.toList ++ ['\x7d']) := by
  simp [spelling]

/-! ## Tokens at the start of a text -/

theorem until?_of_notMem {c : Char} {cs : List Char} (h : c ∉ cs) : until? c cs = none := by
  have hall : cs.takeWhile (· != c) = cs := by
    refine List.takeWhile_eq_self_iff.2 fun d hd => ?_
    simpa using ne_of_mem_of_not_mem hd h
  rw [until?, hall]
  exact if_neg (Nat.lt_irrefl _)

theorem until?_append {c : Char} {body : List Char} (h : c ∉ body) (rest : List Char) :
    until? c (body ++ c :: rest) = some body := by
  have hbody : (body ++ c :: rest).takeWhile (· != c) = body := by
    rw [List.takeWhile_append_of_pos fun d hd => by simpa using ne_of_mem_of_not_mem hd h]
    simp
  rw [until?, hbody]
  exact if_pos (by simp)

theorem notMem_of_until? {c : Char} {cs : List Char} (h : until? c cs = none) : c ∉ cs := by
  intro hc
  obtain ⟨front, rest, rfl, hfront⟩ := List.eq_append_cons_of_mem hc
  rw [until?_append hfront] at h
  cases h

/-! ## Units at the start of a text -/

/-- A text that starts with something other than literal text. Brackets and braces count if the text
closes them. -/
inductive Opens : List Char → Prop where
  | bracket {cs : List Char} (h : ']' ∈ cs) : Opens ('[' :: cs)
  | brace {cs : List Char} (h : '\x7d' ∈ cs) : Opens ('$' :: '\x7b' :: '*' :: cs)
  | star {cs : List Char} : Opens ('*' :: cs)
  | single {cs : List Char} : Opens ('?' :: cs)

/-- The unit at the start of a text, and what is behind it: a token other than literal text, where
two stars are one, or else one character. -/
inductive Begins : List Char → Token → List Char → Prop where
  | special {t : Token} {rest : List Char} (ht : t.Proper) (hplain : t.isLiteral = false)
      (hlongest : t = .star → rest.head? ≠ some '*') : Begins (t.spelling.toList ++ rest) t rest
  | char {c : Char} {rest : List Char} (hc : ¬Opens (c :: rest)) :
      Begins (c :: rest) (.literal c.toString) rest

/-- A text that starts with brackets which hold nothing but a mark, or with braces which hold no
name. What they hold ends at the first that closes them. -/
inductive Faulty : List Char → Fault → Prop where
  | emptyClass {body rest : List Char} (hempty : body = [] ∨ body = ['!']) :
      Faulty ('[' :: (body ++ ']' :: rest)) .emptyClass
  | invalidName {name rest : List Char} (hclose : '\x7d' ∉ name)
      (hname : Text.isIdentifier (String.ofList name) = false) :
      Faulty ('$' :: '\x7b' :: '*' :: (name ++ '\x7d' :: rest)) (.invalidName (String.ofList name))

/-- Names hold nothing that is special in a pattern. -/
theorem notMem_of_isIdentifier {name : String} (h : Text.isIdentifier name = true) {c : Char}
    (hc : Text.isNameChar c = false) : c ∉ name.toList := by
  intro hmem
  rw [(Text.isNameChar_of_isIdentifier h).2 c hmem] at hc
  cases hc

theorem ofBrackets_eq {negated : Bool} {body : String} (hne : body ≠ "")
    (hmark : negated = false → body.toList.head? ≠ some '!') :
    ofBrackets ((if negated then ['!'] else []) ++ body.toList) = .ok (charClass negated body) := by
  have hbody : body.toList.isEmpty = false := by simpa using hne
  cases negated with
  | true => simp [ofBrackets, hbody]
  | false =>
    unfold ofBrackets
    split
    next members heq =>
      split at heq
      · next r hr => exact absurd (congrArg List.head? hr) (hmark rfl)
      · cases heq
        simp [hbody]

section

variable {cs rest : List Char} {t : Token} {f : Fault}

theorem special?_spelling (ht : t.Proper) (hplain : t.isLiteral = false)
    (hlongest : t = .star → rest.head? ≠ some '*') :
    special? (t.spelling.toList ++ rest) = .ok (some (t, t.spelling.toList.length)) := by
  cases ht with
  | literal => cases hplain
  | single | globStar => rfl
  | star =>
    cases rest with
    | nil => rfl
    | cons c rest =>
      change special? ('*' :: c :: rest) = .ok (some (star, 1))
      rw [special?]
      · rfl
      · exact fun r heq => hlongest rfl (congrArg List.head? heq)
  | @charClass negated body hne hclose hmark =>
    have hclose : ']' ∉ (if negated then ['!'] else []) ++ body.toList := by
      cases negated <;> simp [hclose]
    rw [toList_spelling_charClass, List.cons_append, List.append_assoc, List.singleton_append,
      special?, until?_append hclose]
    simp only [ofBrackets_eq hne hmark, ok_bind, List.length_cons, List.length_append]
    rfl
  | named hname =>
    have hclose := notMem_of_isIdentifier hname (c := '\x7d') rfl
    rw [toList_spelling_named]
    simp [special?, until?_append hclose, ofBraces, hname, ok_bind, pure, Except.pure]

theorem special?_of_not_opens (h : ¬Opens cs) : special? cs = .ok none := by
  unfold special?
  split
  · next r =>
    rw [until?_of_notMem fun hclose => h (.bracket hclose)]
    rfl
  · next r =>
    rw [until?_of_notMem fun hclose => h (.brace hclose)]
    rfl
  · exact absurd .star h
  · exact absurd .star h
  · exact absurd .single h
  · rfl

theorem special?_of_faulty (h : Faulty cs f) : special? cs = .error f := by
  cases h with
  | @emptyClass body rest hempty =>
    have hclose : ']' ∉ body := by rcases hempty with rfl | rfl <;> decide
    have hbody : ofBrackets body = .error .emptyClass := by rcases hempty with rfl | rfl <;> rfl
    rw [special?, until?_append hclose]
    simp only [hbody, error_bind]
  | @invalidName name rest hclose hname =>
    rw [special?, until?_append hclose]
    simp only [ofBraces, hname, error_bind, Bool.false_eq_true, if_false]

end

/-- Brackets that are closed make a class, unless there is nothing in them. -/
theorem begins_or_faulty_bracket {body : List Char} (hclose : ']' ∉ body) (rest : List Char) :
    (∃ t, Begins ('[' :: (body ++ ']' :: rest)) t rest) ∨
      Faulty ('[' :: (body ++ ']' :: rest)) .emptyClass := by
  -- the members of the class behind its mark
  have hclass (negated : Bool) {members : List Char} (hne : members ≠ [])
      (hmark : negated = false → members.head? ≠ some '!')
      (hbody : body = (if negated then ['!'] else []) ++ members) :
      ∃ t, Begins ('[' :: (body ++ ']' :: rest)) t rest := by
    have hproper : (charClass negated (String.ofList members)).Proper := by
      refine .charClass (fun h => hne ?_) ?_ ?_
      · simpa using congrArg String.toList h
      · rw [String.toList_ofList]
        exact fun h => hclose (hbody ▸ List.mem_append_right _ h)
      · rwa [String.toList_ofList]
    have hbegins := @Begins.special _ rest hproper rfl nofun
    rw [toList_spelling_charClass, String.toList_ofList, ← hbody, List.cons_append,
      List.append_assoc, List.singleton_append] at hbegins
    exact ⟨_, hbegins⟩
  cases body with
  | nil => exact .inr (.emptyClass (.inl rfl))
  | cons c members =>
    by_cases hmark : c = '!'
    · subst hmark
      cases members with
      | nil => exact .inr (.emptyClass (.inr rfl))
      | cons d members => exact .inl (hclass true (List.cons_ne_nil d members) nofun rfl)
    · refine .inl (hclass false (List.cons_ne_nil c members) (fun _ h => ?_) rfl)
      exact hmark (Option.some.inj h)

/-- Braces that are closed make a named wildcard, unless what is in them is no name. -/
theorem begins_or_faulty_brace {name : List Char} (hclose : '\x7d' ∉ name) (rest : List Char) :
    (∃ t, Begins ('$' :: '\x7b' :: '*' :: (name ++ '\x7d' :: rest)) t rest) ∨
      ∃ f, Faulty ('$' :: '\x7b' :: '*' :: (name ++ '\x7d' :: rest)) f := by
  cases hname : Text.isIdentifier (String.ofList name) with
  | true =>
    have hbegins := @Begins.special _ rest (.named hname) rfl nofun
    rw [toList_spelling_named, String.toList_ofList] at hbegins
    simp only [List.cons_append, List.append_assoc, List.nil_append] at hbegins
    exact .inl ⟨_, hbegins⟩
  | false => exact .inr ⟨_, .invalidName hclose hname⟩

/-- A text that is not empty starts with a unit, if it is not faulty there. -/
theorem begins_or_faulty (c : Char) (cs : List Char) :
    (∃ t rest, Begins (c :: cs) t rest) ∨ ∃ f, Faulty (c :: cs) f := by
  by_cases hopens : Opens (c :: cs)
  · cases hopens with
    | bracket h =>
      obtain ⟨body, rest, rfl, hclose⟩ := List.eq_append_cons_of_mem h
      rcases begins_or_faulty_bracket hclose rest with ⟨t, ht⟩ | hf
      · exact .inl ⟨t, rest, ht⟩
      · exact .inr ⟨_, hf⟩
    | brace h =>
      obtain ⟨name, rest, rfl, hclose⟩ := List.eq_append_cons_of_mem h
      rcases begins_or_faulty_brace hclose rest with ⟨t, ht⟩ | hf
      · exact .inl ⟨t, rest, ht⟩
      · exact .inr hf
    | star =>
      by_cases hnext : cs.head? = some '*'
      · obtain ⟨rest, rfl⟩ := List.head?_eq_some_iff.1 hnext
        exact .inl ⟨_, rest, .special .globStar rfl nofun⟩
      · exact .inl ⟨_, cs, .special .star rfl fun _ => hnext⟩
    | single => exact .inl ⟨_, cs, .special .single rfl nofun⟩
  · exact .inl ⟨_, cs, .char hopens⟩

theorem Begins.proper {cs rest : List Char} {t : Token} (h : Begins cs t rest) : t.Proper := by
  cases h with
  | special ht => exact ht
  | char => exact .literal (by simp)

theorem Begins.spelled {cs rest : List Char} {t : Token} (h : Begins cs t rest) :
    cs = t.spelling.toList ++ rest := by
  cases h with
  | special => rfl
  | char => simp [spelling]

/-! ## Whole texts -/

/-- The units that are passed from the left on the way from a text to the rest of it. -/
inductive Passes : List Char → List Token → List Char → Prop where
  | refl {cs : List Char} : Passes cs [] cs
  | step {cs mid rest : List Char} {t : Token} {us : List Token} (h : Begins cs t mid)
      (hr : Passes mid us rest) : Passes cs (t :: us) rest

section

variable {cs mid rest : List Char} {us vs ts : List Token} {f : Fault}

theorem Passes.append (h : Passes cs us mid) (h' : Passes mid vs rest) :
    Passes cs (us ++ vs) rest := by
  induction h with
  | refl => exact h'
  | step hb _ ih => exact .step hb (ih h')

theorem Passes.proper (h : Passes cs us rest) : ∀ t ∈ us, t.Proper := by
  induction h with
  | refl => exact List.forall_mem_nil _
  | step hb _ ih => exact List.forall_mem_cons.2 ⟨hb.proper, ih⟩

theorem Passes.spelled (h : Passes cs us rest) :
    cs = us.flatMap (fun t => t.spelling.toList) ++ rest := by
  induction h with
  | refl => rfl
  | step hb _ ih => rw [hb.spelled, ih, List.flatMap_cons, List.append_assoc]

/-- From the left, one passes either the whole text or all that is in front of a fault. -/
theorem exists_passes (cs : List Char) :
    ∃ us rest, Passes cs us rest ∧ (rest = [] ∨ ∃ f, Faulty rest f) := by
  induction hn : cs.length using Nat.strong_induction_on generalizing cs with
  | _ n ih =>
    cases cs with
    | nil => exact ⟨[], [], .refl, .inl rfl⟩
    | cons c cs =>
      rcases begins_or_faulty c cs with ⟨t, mid, hb⟩ | hf
      · have hlt : mid.length < n := by
          have hpos := List.length_pos_of_ne_nil (spelling_ne_nil hb.proper.ne_empty)
          rw [← hn, hb.spelled, List.length_append]
          omega
        obtain ⟨us, rest, hpasses, hend⟩ := ih mid.length hlt mid rfl
        exact ⟨t :: us, rest, .step hb hpasses, hend⟩
      · exact ⟨[], c :: cs, .refl, .inr hf⟩

/-! ## The scanner -/

theorem consChar_eq (c : Char) (ts : List Token) :
    consChar c ts = Pattern.consToken (.literal c.toString) ts := by
  have hc : c.toString ≠ "" := by simp
  unfold consChar
  split
  · next s ts =>
    have hs : String.ofList (c :: s.toList) = c.toString ++ s := String.toList_inj.1 (by simp)
    rw [Pattern.consToken_join hc, hs]
  · next hliteral => exact (Pattern.consToken_of_not_literal hc hliteral).symm

/-- The scanner cuts the unit off that the text starts with. -/
theorem scan_of_begins {t : Token} (h : Begins cs t rest) :
    scan cs = (scan rest).map (Pattern.consToken t) := by
  cases h with
  | special ht hplain hlongest =>
    have hspecial := special?_spelling ht hplain hlongest
    obtain ⟨d, spelling, hspelling⟩ := List.exists_cons_of_ne_nil (spelling_ne_nil ht.ne_empty)
    rw [hspelling, List.cons_append] at hspecial ⊢
    rw [scan, hspecial, ok_bind]
    simp only [List.length_cons, Nat.add_sub_cancel, List.drop_left]
    cases scan rest with
    | error f => rfl
    | ok ts => exact congrArg Except.ok (Pattern.consToken_of_not_isLiteral hplain).symm
  | @char c _ hc =>
    rw [scan, special?_of_not_opens hc, ok_bind]
    cases scan rest with
    | error f => rfl
    | ok ts => exact congrArg Except.ok (consChar_eq c ts)

theorem scan_of_faulty (h : Faulty cs f) : scan cs = .error f := by
  have hspecial := special?_of_faulty h
  cases h with
  | emptyClass => rw [scan, hspecial, error_bind]
  | invalidName => rw [scan, hspecial, error_bind]

theorem foldr_scan (h : Passes cs us rest) :
    scan cs = (scan rest).map (us.foldr Pattern.consToken) := by
  induction h with
  | refl => cases scan _ <;> rfl
  | step hb _ ih =>
    rw [scan_of_begins hb, ih]
    cases scan _ <;> rfl

theorem scan_of_passes_all (h : Passes cs us []) : scan cs = .ok (Pattern.joinLiterals us) := by
  rw [foldr_scan h, scan]
  rfl

theorem scan_of_passes_faulty (h : Passes cs us rest) (hf : Faulty rest f) :
    scan cs = .error f := by
  rw [foldr_scan h, scan_of_faulty hf]
  rfl

/-- The scanner gives the units of the whole text, with neighbouring characters in one literal. -/
theorem scan_eq_ok_iff :
    scan cs = .ok ts ↔ ∃ us, Passes cs us [] ∧ ts = Pattern.joinLiterals us := by
  constructor
  · intro h
    obtain ⟨us, rest, hpasses, rfl | ⟨f, hf⟩⟩ := exists_passes cs
    · rw [scan_of_passes_all hpasses] at h
      exact ⟨us, hpasses, (Except.ok.inj h).symm⟩
    · rw [scan_of_passes_faulty hpasses hf] at h
      cases h
  · rintro ⟨us, hpasses, rfl⟩
    exact scan_of_passes_all hpasses

/-- It fails where it comes to a fault. -/
theorem scan_eq_error_iff : scan cs = .error f ↔ ∃ us rest, Passes cs us rest ∧ Faulty rest f := by
  constructor
  · intro h
    obtain ⟨us, rest, hpasses, rfl | ⟨g, hg⟩⟩ := exists_passes cs
    · rw [scan_of_passes_all hpasses] at h
      cases h
    · rw [scan_of_passes_faulty hpasses hg] at h
      exact ⟨us, rest, hpasses, Except.error.inj h ▸ hg⟩
  · rintro ⟨us, rest, hpasses, hf⟩
    exact scan_of_passes_faulty hpasses hf

theorem joined_of_scan (h : scan cs = .ok ts) : Pattern.Joined ts := by
  obtain ⟨us, -, rfl⟩ := scan_eq_ok_iff.1 h
  exact Pattern.joined_joinLiterals us

theorem proper_consToken {t : Token} (ht : t.Proper) (hts : ∀ u ∈ ts, u.Proper) :
    ∀ u ∈ Pattern.consToken t ts, u.Proper := by
  rcases Pattern.consToken_cases t ts with ⟨-, h⟩ | ⟨s, r, ts', hs, rfl, rfl, h⟩ | h
  · rwa [h]
  · rw [h]
    rw [List.forall_mem_cons] at hts ⊢
    exact ⟨.literal fun hempty => hs (String.append_eq_empty_iff.1 hempty).1, hts.2⟩
  · rw [h]
    exact List.forall_mem_cons.2 ⟨ht, hts⟩

theorem proper_joinLiterals (h : ∀ t ∈ us, t.Proper) : ∀ t ∈ Pattern.joinLiterals us, t.Proper := by
  induction us with
  | nil => exact List.forall_mem_nil _
  | cons t us ih =>
    rw [List.forall_mem_cons] at h
    exact proper_consToken h.1 (ih h.2)

theorem proper_of_scan (h : scan cs = .ok ts) : ∀ t ∈ ts, t.Proper := by
  obtain ⟨us, hpasses, rfl⟩ := scan_eq_ok_iff.1 h
  exact proper_joinLiterals hpasses.proper

theorem spelled_of_scan (h : scan cs = .ok ts) : cs = ts.flatMap fun t => t.spelling.toList := by
  obtain ⟨us, hpasses, rfl⟩ := scan_eq_ok_iff.1 h
  rw [Pattern.spelling_joinLiterals, hpasses.spelled, List.append_nil]

/-- Behind the units that it has passed, the scanner goes on as if the text began there. -/
theorem scan_of_passes (h : Passes cs us rest) :
    scan cs = (scan rest).map fun ts => Pattern.joinLiterals (us ++ ts) := by
  rw [foldr_scan h]
  cases hscan : scan rest with
  | error f => rfl
  | ok ts =>
    have happend := Pattern.joinLiterals_append us ts
    rw [Pattern.joinLiterals_eq_self (joined_of_scan hscan)] at happend
    exact congrArg Except.ok happend.symm

end

/-- A text as a sequence of tokens. -/
inductive Scans : List Char → List Token → Prop where
  | nil : Scans [] []
  | special {t : Token} {cs : List Char} {ts : List Token} (ht : t.Proper)
      (hplain : t.isLiteral = false) (hr : Scans cs ts) : Scans (t.spelling.toList ++ cs) (t :: ts)
  | literal {c : Char} {cs : List Char} {ts : List Token} (hc : special? (c :: cs) = .ok none)
      (hr : Scans cs ts) : Scans (c :: cs) (consChar c ts)

theorem Passes.scans {cs rest : List Char} {us ts : List Token} (h : Passes cs us rest)
    (hr : Scans rest ts) : Scans cs (us.foldr Pattern.consToken ts) := by
  induction h with
  | refl => exact hr
  | step hb _ ih =>
    rw [List.foldr_cons]
    cases hb with
    | special ht hplain =>
      rw [Pattern.consToken_of_not_isLiteral hplain]
      exact .special ht hplain (ih hr)
    | char hc =>
      rw [← consChar_eq]
      exact .literal (special?_of_not_opens hc) (ih hr)

theorem scans_of_scan {cs : List Char} {ts : List Token} (h : scan cs = .ok ts) : Scans cs ts := by
  obtain ⟨us, hpasses, rfl⟩ := scan_eq_ok_iff.1 h
  exact hpasses.scans .nil

/-! ## All that the scanner does -/

theorem not_opens_bracket {rest : List Char} (h : ']' ∉ rest) : ¬Opens ('[' :: rest)
  | .bracket hclose => h hclose

theorem not_opens_brace {rest : List Char} (h : '\x7d' ∉ rest) :
    ¬Opens ('$' :: '\x7b' :: '*' :: rest)
  | .brace hclose => h hclose

/-- The tokens of a text spell it. They are its units from the left, with neighbouring characters in
one literal, and there are none exactly if these units lead to brackets or braces which hold nothing
proper. A bracket that is not closed is literal text. So are the dollar and the brace of a named
wildcard that is not closed, but not the star behind them. -/
theorem scan_lossless (s : String) :
    (∀ ts, scan s.toList = .ok ts →
      String.join (ts.map spelling) = s ∧ (∀ t ∈ ts, t.Proper) ∧ Pattern.Joined ts) ∧
    (∀ ts, scan s.toList = .ok ts ↔
      ∃ us, Passes s.toList us [] ∧ ts = Pattern.joinLiterals us) ∧
    (∀ f, scan s.toList = .error f ↔ ∃ us rest, Passes s.toList us rest ∧ Faulty rest f) ∧
    (∀ us rest, Passes s.toList us ('[' :: rest) → ']' ∉ rest →
      scan s.toList =
        (scan rest).map fun ts => Pattern.joinLiterals (us ++ literal "[" :: ts)) ∧
    ∀ us rest, Passes s.toList us ('$' :: '\x7b' :: '*' :: rest) → '\x7d' ∉ rest →
      scan s.toList =
        (scan ('*' :: rest)).map fun ts => Pattern.joinLiterals (us ++ literal "$\x7b" :: ts) := by
  refine ⟨fun ts h => ⟨?_, proper_of_scan h, joined_of_scan h⟩, fun _ => scan_eq_ok_iff,
    fun _ => scan_eq_error_iff, fun us rest h hopen => ?_, fun us rest h hopen => ?_⟩
  · rw [← String.toList_inj, String.toList_join, List.flatMap_map]
    exact (spelled_of_scan h).symm
  · have hpasses := h.append (.step (.char (not_opens_bracket hopen)) .refl)
    rw [scan_of_passes hpasses]
    simp only [List.append_assoc, List.singleton_append]
    rfl
  · have hbrace : ¬Opens ('\x7b' :: '*' :: rest) := nofun
    have hpasses := h.append (.step (.char (not_opens_brace hopen)) (.step (.char hbrace) .refl))
    rw [scan_of_passes hpasses]
    simp only [List.append_assoc, List.cons_append, List.nil_append, Pattern.joinLiterals,
      List.foldr_append, List.foldr_cons, Pattern.consToken_consToken]
    rfl

/-- A bracket and a brace that nothing closes, behind a class. -/
theorem scan_lossless_unclosed :
    let ts := [charClass true "t", single, literal "[a$\x7b", star, literal "b"]
    scan "[!t]?[a$\x7b*b".toList = .ok ts ∧ String.join (ts.map spelling) = "[!t]?[a$\x7b*b" ∧
    Passes "[!t]?[a$\x7b*b".toList [charClass true "t", single] "[a$\x7b*b".toList ∧
    scan "[!t]?[a$\x7b*b".toList = (scan "a$\x7b*b".toList).map (fun ts =>
      Pattern.joinLiterals ([charClass true "t", single] ++ literal "[" :: ts)) ∧
    Passes "[!t]?[a$\x7b*b".toList [charClass true "t", single, literal "[", literal "a"]
      "$\x7b*b".toList ∧
    scan "[!t]?[a$\x7b*b".toList = (scan "*b".toList).map fun ts =>
      Pattern.joinLiterals
        ([charClass true "t", single, literal "[", literal "a"] ++ literal "$\x7b" :: ts) := by
  intro ts
  have hscan : scan "[!t]?[a$\x7b*b".toList = .ok ts := by decide +kernel
  have hclass : Begins "[!t]?[a$\x7b*b".toList (charClass true "t") "?[a$\x7b*b".toList :=
    @Begins.special (charClass true "t") "?[a$\x7b*b".toList
      (.charClass (by decide) (by decide) nofun) rfl nofun
  have hsingle : Begins "?[a$\x7b*b".toList single "[a$\x7b*b".toList :=
    @Begins.special single "[a$\x7b*b".toList .single rfl nofun
  have hbracket : Begins "[a$\x7b*b".toList (literal "[") "a$\x7b*b".toList :=
    .char (not_opens_bracket (by decide))
  have hletter : Begins "a$\x7b*b".toList (literal "a") "$\x7b*b".toList := .char nofun
  have hfront : Passes "[!t]?[a$\x7b*b".toList [charClass true "t", single] "[a$\x7b*b".toList :=
    .step hclass (.step hsingle .refl)
  have hback := hfront.append (.step hbracket (.step hletter .refl))
  have hall := scan_lossless "[!t]?[a$\x7b*b"
  exact ⟨hscan, (hall.1 ts hscan).1, hfront, hall.2.2.2.1 _ _ hfront (by decide), hback,
    hall.2.2.2.2 _ _ hback (by decide)⟩

/-- The star behind a brace that nothing closes is no literal text. -/
theorem unclosed_brace_leaves_star :
    '\x7d' ∉ "$\x7b*".toList ∧ scan "$\x7b*".toList = .ok [literal "$\x7b", star] ∧
      scan "$\x7b*".toList ≠ .ok [literal "$\x7b*"] := by
  decide +kernel

end Token

namespace Pattern

theorem tokens_of_compile {source : String} {p : Pattern} (h : compile source = .ok p) :
    Token.scan source.toList = .ok p.tokens := by
  unfold compile at h
  split at h
  · next tokens hscan =>
    rw [ofTokens] at h
    split at h
    · cases h
      exact hscan
    · cases h
  · cases h
  · cases h

theorem proper_of_compile {source : String} {p : Pattern} (h : compile source = .ok p) {t : Token}
    (ht : t ∈ p.tokens) : t.Proper :=
  Token.proper_of_scan (tokens_of_compile h) t ht

theorem isIdentifier_of_compile {source : String} {p : Pattern} (h : compile source = .ok p)
    {name : String} (hname : .named name ∈ p.tokens) : Text.isIdentifier name = true := by
  cases proper_of_compile h hname with
  | named h => exact h

theorem empty_notMem_of_compile {source : String} {p : Pattern} (h : compile source = .ok p) :
    .literal "" ∉ p.tokens :=
  fun hmem => (proper_of_compile h hmem).ne_empty rfl

end Pattern
end DocGraph
