import DocGraph.Proofs.Pattern.Names
import DocGraph.Proofs.Pattern.Scan
import DocGraph.Proofs.Template.Policy

/-!
# DocGraph.Proofs.Pattern.Wildcards

The named wildcards of a template and those of the pattern that is made of it.

* `Token.wildcardsIn`   — the named wildcards in a text. One in front of the closing bracket of an
  open class is a part of that class.
* `Token.Scans.names`   — they are those of the tokens that the text is cut into.
* `Template.outside`    — the parts of a template whose text stands in no class, each with the text
  behind it.
* `agrees_of_parses`    — the wildcards in a template that is filled in are those in braces that
  stand in no class.
* `wildcards_alike`     — so the names of the pattern are those of these wildcards.
* `wildcards_differ`    — a wildcard in a class, one without braces, and a dollar that is escaped.
-/

namespace DocGraph
namespace Token

/-- Whether a bracket is open behind a text, where `inside` says whether one is in front of it. -/
def bracketOpen (inside : Bool) (cs : List Char) : Bool :=
  cs.foldl (fun inside c => if inside then c != ']' else c == '[') inside

/-- The name of the wildcard at the start of a text. -/
def wildcard? (cs : List Char) : Option String :=
  match cs with
  | '$' :: '\x7b' :: '*' :: r =>
    (until? '\x7d' r).bind fun name =>
      if Text.isIdentifier (String.ofList name) then some (String.ofList name) else none
  | _ => none

/-- The wildcards in a text, where `inside` says whether a bracket is open in front of it. An open
bracket counts if the text closes it. -/
def wildcardsIn (inside : Bool) : List Char → List String
  | [] => []
  | c :: cs =>
    (if inside && (c :: cs).contains ']' then none else wildcard? (c :: cs)).toList ++
      wildcardsIn (bracketOpen inside [c]) cs

theorem bracketOpen_cons (inside : Bool) (c : Char) (cs : List Char) :
    bracketOpen inside (c :: cs) = bracketOpen (bracketOpen inside [c]) cs := rfl

theorem bracketOpen_plain {text : List Char} (hleft : '[' ∉ text) (hright : ']' ∉ text)
    (inside : Bool) : bracketOpen inside text = inside := by
  induction text with
  | nil => rfl
  | cons c text ih =>
    rw [List.mem_cons, not_or] at hleft hright
    have hc : bracketOpen inside [c] = inside := by
      cases inside with
      | true => simpa [bracketOpen] using Ne.symm hright.1
      | false => simpa [bracketOpen] using Ne.symm hleft.1
    rw [bracketOpen_cons, hc, ih hleft.2 hright.2]

/-! ## Single positions -/

theorem wildcard?_of_ne {c : Char} (hc : c ≠ '$') (cs : List Char) :
    wildcard? (c :: cs) = none := by
  unfold wildcard?
  split
  · next heq => exact absurd (List.cons.inj heq).1 hc
  · rfl

theorem wildcard?_spelling {name : String} (h : Text.isIdentifier name = true) (cs : List Char) :
    wildcard? ((named name).spelling.toList ++ cs) = some name := by
  have hname := until?_append (notMem_of_isIdentifier h (c := '\x7d') rfl) cs
  rw [toList_spelling_named]
  simp [wildcard?, hname, h]

theorem wildcardsIn_plain {text : List Char} (h : '$' ∉ text) (inside : Bool) (cs : List Char) :
    wildcardsIn inside (text ++ cs) = wildcardsIn (bracketOpen inside text) cs := by
  induction text generalizing inside with
  | nil => rfl
  | cons c text ih =>
    rw [List.mem_cons, not_or] at h
    rw [List.cons_append, wildcardsIn, wildcard?_of_ne (Ne.symm h.1), ih h.2, ite_self]
    rfl

theorem wildcardsIn_dollar {text : List Char} (h : '$' ∉ text) (inside : Bool) (cs : List Char) :
    wildcardsIn inside ('$' :: text ++ cs) =
      (if inside && ('$' :: text ++ cs).contains ']' then none
        else wildcard? ('$' :: text ++ cs)).toList ++
        wildcardsIn (bracketOpen inside ('$' :: text)) cs := by
  rw [List.cons_append, wildcardsIn, wildcardsIn_plain h]
  rfl

/-- No wildcard stands in a class. -/
theorem wildcardsIn_class {body : List Char} (h : ']' ∉ body) (cs : List Char) :
    wildcardsIn false ('[' :: (body ++ ']' :: cs)) = wildcardsIn false cs := by
  have hbody : wildcardsIn true (body ++ ']' :: cs) = wildcardsIn false cs := by
    induction body with
    | nil => simp [wildcardsIn, bracketOpen]
    | cons c body ih =>
      rw [List.mem_cons, not_or] at h
      have hopen : bracketOpen true [c] = true := by simpa [bracketOpen] using Ne.symm h.1
      rw [List.cons_append, wildcardsIn, hopen, ih h.2]
      simp
  exact (wildcardsIn_plain (by decide : '$' ∉ ['[']) false _).trans hbody

theorem wildcardsIn_named {name : String} (h : Text.isIdentifier name = true) {inside : Bool}
    {cs : List Char} (hclosed : inside = true → ']' ∉ cs) :
    wildcardsIn inside ((named name).spelling.toList ++ cs) = name :: wildcardsIn inside cs := by
  have hplain {c : Char} (hc : Text.isNameChar c = false) (hmark : c ∉ ['\x7b', '*', '\x7d']) :
      c ∉ '\x7b' :: '*' :: (name.toList ++ ['\x7d']) := by
    have hname := notMem_of_isIdentifier h hc
    simp_all
  have hwildcard := wildcard?_spelling h cs
  rw [toList_spelling_named] at hwildcard ⊢
  have hright : ']' ∉ '$' :: '\x7b' :: '*' :: (name.toList ++ ['\x7d']) :=
    List.not_mem_cons_of_ne_of_not_mem (by decide) (hplain rfl (by decide))
  have hleft : '[' ∉ '$' :: '\x7b' :: '*' :: (name.toList ++ ['\x7d']) :=
    List.not_mem_cons_of_ne_of_not_mem (by decide) (hplain rfl (by decide))
  rw [wildcardsIn_dollar (hplain rfl (by decide)), hwildcard, bracketOpen_plain hleft hright,
    if_neg ?_]
  · rfl
  · rw [Bool.and_eq_true, List.contains_iff_mem, List.mem_append, or_iff_right hright]
    exact fun hboth => hclosed hboth.1 hboth.2

/-! ## Whole texts -/

theorem filterMap_consChar (c : Char) (ts : List Token) :
    (consChar c ts).filterMap name? = ts.filterMap name? := by
  unfold consChar
  split <;> rfl

theorem wildcard?_of_special? {cs : List Char} (h : special? cs = .ok none) :
    wildcard? cs = none := by
  unfold wildcard?
  split
  · next r =>
    cases hname : until? '\x7d' r with
    | none => rfl
    | some name =>
      rw [special?, hname] at h
      obtain ⟨t, -, h⟩ := bind_eq_ok.1 h
      cases h
  · rfl

theorem notMem_of_special? {cs : List Char} (h : special? ('[' :: cs) = .ok none) : ']' ∉ cs := by
  intro hclose
  cases hbody : until? ']' cs with
  | none => exact notMem_of_until? hbody hclose
  | some body =>
    rw [special?, hbody] at h
    obtain ⟨t, -, h⟩ := bind_eq_ok.1 h
    cases h

/-- The names in the tokens of a text are its wildcards. -/
theorem Scans.names {cs : List Char} {ts : List Token} (h : Scans cs ts) {inside : Bool}
    (hclosed : inside = true → ']' ∉ cs) : ts.filterMap name? = wildcardsIn inside cs := by
  induction h generalizing inside with
  | nil => rfl
  | @special t cs ts ht hplain _ ih =>
    have hrest : inside = true → ']' ∉ cs := fun h hmem => hclosed h (List.mem_append_right _ hmem)
    have hother (hdollar : '$' ∉ t.spelling.toList) (hleft : '[' ∉ t.spelling.toList)
        (hright : ']' ∉ t.spelling.toList) :
        wildcardsIn inside (t.spelling.toList ++ cs) = ts.filterMap name? := by
      rw [wildcardsIn_plain hdollar, bracketOpen_plain hleft hright]
      exact (ih hrest).symm
    cases ht with
    | literal => cases hplain
    | single | star | globStar => exact (hother (by decide) (by decide) (by decide)).symm
    | @charClass negated body hne hclose hmark =>
      have houtside : inside = false := by
        by_contra hinside
        rw [Bool.not_eq_false] at hinside
        exact hclosed hinside (by cases negated <;> simp [spelling])
      have hbody : ']' ∉ (if negated then ['!'] else []) ++ body.toList := by
        cases negated <;> simp [hclose]
      rw [houtside, toList_spelling_charClass, List.cons_append, List.append_assoc,
        List.singleton_append, wildcardsIn_class hbody]
      exact ih fun h => absurd h Bool.false_ne_true
    | named hname =>
      rw [wildcardsIn_named hname hrest, ← ih hrest]
      rfl
  | @literal c cs ts hc _ ih =>
    -- a bracket that is literal text is open from here on, but nothing closes it
    rw [filterMap_consChar, wildcardsIn, wildcard?_of_special? hc, ite_self]
    refine ih fun hopen => ?_
    cases inside with
    | true => exact fun hmem => hclosed rfl (List.mem_cons_of_mem _ hmem)
    | false =>
      obtain rfl : c = '[' := by simpa [bracketOpen] using hopen
      exact notMem_of_special? hc

end Token

namespace Template

open Token

/-- The name of a wildcard, which has a star in front. -/
def Part.wildcard? : Part → Option String
  | .placeholder ('*' :: name) _ => some (String.ofList name)
  | _ => none

/-- The name of a wildcard in braces. -/
def Part.braced? : Part → Option String
  | .placeholder ('*' :: name) ('$' :: '\x7b' :: _) => some (String.ofList name)
  | _ => none

/-- The parts whose text stands in no class once the template is filled in, each with the text
behind it, where `inside` says whether a bracket is open in front of them. -/
def outside (v : Lookup) (inside : Bool) : List Part → List (Part × List Char)
  | [] => []
  | p :: ps =>
    let text := p.filled v
    let after := ps.flatMap (Part.filled v)
    (if inside && (text ++ after).contains ']' then [] else [(p, after)]) ++
      outside v (bracketOpen inside text) ps

/-- The wildcards of a template that patterns read: those in braces that stand in no class. -/
def openWildcards (v : Lookup) (inside : Bool) (ps : List Part) : List String :=
  (outside v inside ps).filterMap fun e => e.1.braced?

variable {v : Lookup} {inside : Bool} {p : Part} {ps : List Part}

theorem wildcard?_of_braced? {name : String} (h : p.braced? = some name) :
    p.wildcard? = some name := by
  unfold Part.braced? at h
  split at h
  · exact h
  · cases h

theorem openWildcards_cons : openWildcards v inside (p :: ps) =
    (if inside && (p.filled v ++ ps.flatMap (Part.filled v)).contains ']' then none
      else p.braced?).toList ++ openWildcards v (bracketOpen inside (p.filled v)) ps := by
  rw [openWildcards, outside, List.filterMap_append]
  refine congrArg (· ++ _) ?_
  split
  · rfl
  · cases h : p.braced? <;> simp [h]

theorem mem_of_mem_outside {e : Part × List Char} (h : e ∈ outside v inside ps) : e.1 ∈ ps := by
  induction ps generalizing inside with
  | nil => cases h
  | cons p ps ih =>
    rw [outside, List.mem_append] at h
    rcases h with h | h
    · split at h
      · cases h
      · obtain rfl := List.mem_singleton.1 h
        exact List.mem_cons_self
    · exact List.mem_cons_of_mem _ (ih h)

/-- A dollar of the text that no placeholder of the template left there begins no wildcard. -/
def ClearDollars (v : Lookup) (inside : Bool) (ps : List Part) : Prop :=
  ∀ e ∈ outside v inside ps, e.1 = .escape ∨ e.1 = .stray → wildcard? ('$' :: e.2) = none

theorem ClearDollars.tail (h : ClearDollars v inside (p :: ps)) :
    ClearDollars v (bracketOpen inside (p.filled v)) ps :=
  fun e he => h e (List.mem_append_right _ he)

/-- Whether the wildcards in the text of a template are those of the template. -/
def Agrees (v : Lookup) (inside : Bool) (ps : List Part) : Prop :=
  wildcardsIn inside (ps.flatMap (Part.filled v)) = openWildcards v inside ps

theorem Agrees.plain (h : Agrees v (bracketOpen inside (p.filled v)) ps)
    (hplain : '$' ∉ p.filled v) (hbraced : p.braced? = none) : Agrees v inside (p :: ps) := by
  rw [Agrees, List.flatMap_cons, wildcardsIn_plain hplain, h, openWildcards_cons, hbraced, ite_self]
  rfl

theorem Agrees.dollar (h : Agrees v (bracketOpen inside (p.filled v)) ps) {text : List Char}
    (htext : p.filled v = '$' :: text) (hplain : '$' ∉ text)
    (hstart : ¬(inside && ('$' :: text ++ ps.flatMap (Part.filled v)).contains ']') →
      wildcard? ('$' :: text ++ ps.flatMap (Part.filled v)) = p.braced?) :
    Agrees v inside (p :: ps) := by
  rw [Agrees, List.flatMap_cons, openWildcards_cons, ← h, htext, wildcardsIn_dollar hplain]
  refine congrArg (Option.toList · ++ _) ?_
  split
  · rfl
  · next hopen => exact hstart hopen

theorem Agrees.clear (h : Agrees v (bracketOpen inside (p.filled v)) ps)
    (hp : p = .escape ∨ p = .stray) (hdollars : ClearDollars v inside (p :: ps)) :
    Agrees v inside (p :: ps) := by
  have hfilled : p.filled v = ['$'] := by rcases hp with rfl | rfl <;> rfl
  have hbraced : p.braced? = none := by rcases hp with rfl | rfl <;> rfl
  refine h.dollar hfilled List.not_mem_nil fun hopen => ?_
  rw [hbraced]
  refine hdollars (p, ps.flatMap (Part.filled v)) (List.mem_append_left _ ?_) hp
  rw [hfilled, if_neg hopen]
  exact List.mem_singleton.2 rfl

/-- No variable has a star in front of its name, and no value has a dollar in it. -/
structure Ordinary (v : Lookup) : Prop where
  names : ∀ name, v ("*" ++ name) = none
  values : ∀ name value, v name = some value → '$' ∉ value.toList

theorem Ordinary.starred (hv : Ordinary v) (name : List Char) :
    v (String.ofList ('*' :: name)) = none := by
  rw [String.ofList_cons]
  exact hv.names _

theorem Agrees.placeholder {name spelling : List Char}
    (h : Agrees v (bracketOpen inside (Part.filled v (.placeholder name spelling))) ps)
    (hname : IsName name)
    (hspelling : spelling = '$' :: name ∨ spelling = '$' :: '\x7b' :: name ++ ['\x7d'])
    (hv : Ordinary v) (hclean : ¬Offends v .keepWildcards (.placeholder name spelling)) :
    Agrees v inside (.placeholder name spelling :: ps) := by
  cases hvalue : v (String.ofList name) with
  | some value =>
    have hfilled : Part.filled v (.placeholder name spelling) = value.toList := by
      rw [Part.filled, hvalue]
      rfl
    -- a name with a value has no star
    refine h.plain (hfilled ▸ hv.values _ _ hvalue) ?_
    unfold Part.braced?
    split
    · next heq =>
      cases heq
      rw [hv.starred] at hvalue
      cases hvalue
    · rfl
  | none =>
    have hfilled : Part.filled v (.placeholder name spelling) = spelling := by
      rw [Part.filled, hvalue]
      rfl
    have hstar : name.head? = some '*' := by
      by_contra hstar
      exact hclean (.ordinary hvalue hstar)
    cases hname with
    | plain hname =>
      obtain ⟨c, r, rfl, hc, -⟩ := isIdentifier_iff.1 hname
      cases hstar
      cases hc
    | @starred name hname =>
      have hdollar : '$' ∉ name := by
        have := notMem_of_isIdentifier hname (c := '$') rfl
        rwa [String.toList_ofList] at this
      rcases hspelling with rfl | rfl
      · exact h.dollar hfilled (by simpa using hdollar) fun _ => rfl
      · refine h.dollar hfilled (by simpa using hdollar) fun _ => ?_
        have hwildcard := wildcard?_spelling hname (ps.flatMap (Part.filled v))
        rw [toList_spelling_named, String.toList_ofList] at hwildcard
        exact hwildcard

/-- The wildcards in a template that is filled in are those in braces that stand in no class. -/
theorem agrees_of_parses {cs : List Char} (hparses : Parses cs ps) (hv : Ordinary v)
    (hclean : ∀ p ∈ ps, ¬Offends v .keepWildcards p) (hdollars : ClearDollars v inside ps) :
    Agrees v inside ps := by
  induction hparses generalizing inside with
  | nil => exact rfl
  | @char c cs ps hc _ ih =>
    rw [List.forall_mem_cons] at hclean
    exact (ih hclean.2 hdollars.tail).plain (by simpa [Part.filled] using Ne.symm hc) rfl
  | dollar hp _ ih =>
    rw [List.forall_mem_cons] at hclean
    have hrest := ih hclean.2 hdollars.tail
    cases hp with
    | escape => exact hrest.clear (.inl rfl) hdollars
    | bare hname => exact hrest.placeholder hname (.inl rfl) hv hclean.1
    | braced hname => exact hrest.placeholder hname (.inr rfl) hv hclean.1
  | stray _ _ ih =>
    rw [List.forall_mem_cons] at hclean
    exact (ih hclean.2 hdollars.tail).clear (.inr rfl) hdollars

/-! ## Names -/

theorem distinct_eq_firsts (l : List String) : distinct l = Pattern.firsts [] l := by
  have hfold : ∀ seen, l.foldl (fun seen s => if s ∈ seen then seen else seen ++ [s]) seen =
      seen ++ Pattern.firsts seen l := by
    induction l with
    | nil => simp [Pattern.firsts]
    | cons s l ih =>
      intro seen
      rw [List.foldl_cons, ih, Pattern.firsts]
      split
      · rfl
      · have hseen : ∀ r, r ∈ seen ++ [s] ↔ r ∈ s :: seen := by simp [or_comm]
        rw [List.append_assoc, List.singleton_append, Pattern.firsts_congr hseen]
  exact hfold []

/-- Whether a name is that of a wildcard. -/
def isStarred (name : String) : Bool := name.toList.head? == some '*'

theorem filter_name? (p : Part) : p.name?.filter isStarred = p.wildcard?.map ("*" ++ ·) := by
  unfold Part.wildcard?
  split
  · next name _ =>
    have hname : String.ofList ('*' :: name) = "*" ++ String.ofList name := String.ofList_cons
    rw [Part.name?, hname, Option.filter_some, if_pos (by simp [isStarred]), Option.map_some]
  · next hother =>
    cases p with
    | placeholder name spelling =>
      have hstar : isStarred (String.ofList name) ≠ true := by
        rw [isStarred, String.toList_ofList, Ne, beq_iff_eq]
        intro hhead
        obtain ⟨r, rfl⟩ := List.head?_eq_some_iff.1 hhead
        exact hother r spelling rfl
      rw [Part.name?, Option.filter_some, if_neg hstar]
      rfl
    | _ => rfl

theorem starred_identifiers (template : String) :
    (identifiers template).filter isStarred =
      (distinct ((scan template.toList).filterMap Part.wildcard?)).map ("*" ++ ·) := by
  have hinj : Function.Injective ("*" ++ · : String → String) :=
    fun _ _ h => (String.append_right_inj "*").1 h
  rw [identifiers, distinct_eq_firsts, distinct_eq_firsts,
    ← Pattern.firsts_filter fun _ _ => Iff.rfl, List.filter_filterMap, ← Pattern.firsts_map hinj,
    List.map_filterMap, List.map_nil]
  exact congrArg (Pattern.firsts [] <| List.filterMap · _) (funext filter_name?)

/-- A pattern that is made of a template has those wildcards of the template that are in braces and
stand in no class, in order of first appearance. These are all of them if no other wildcard stands in
the template. -/
theorem wildcards_alike {path text : String} {q : Pattern} (hv : Ordinary v)
    (ht : substituteKeepingWildcards path v = .ok text) (hq : Pattern.compile text = .ok q)
    (hdollars : ClearDollars v false (scan path.toList)) :
    q.names = distinct (openWildcards v false (scan path.toList)) ∧
      (∀ name ∈ q.names, "*" ++ name ∈ identifiers path) ∧
      (openWildcards v false (scan path.toList) = (scan path.toList).filterMap Part.wildcard? →
        q.names.map ("*" ++ ·) = (identifiers path).filter isStarred) := by
  obtain ⟨hclean, rfl⟩ := render_eq_ok_iff.1 ht
  have hscans := scans_of_scan (Pattern.tokens_of_compile hq)
  -- outside of classes, the tokens have the wildcards of the text
  have hread : q.tokens.filterMap Token.name? =
      wildcardsIn false ((scan path.toList).flatMap (Part.filled v)) := by
    rw [hscans.names fun hinside => absurd hinside Bool.false_ne_true, filled,
      String.toList_ofList]
  have hagrees : Agrees v false (scan path.toList) :=
    agrees_of_parses (parses_scan path.toList) hv hclean hdollars
  have htokens : q.tokens.filterMap Token.name? =
      openWildcards v false (scan path.toList) := hread.trans hagrees
  have hnames : q.names = distinct (openWildcards v false (scan path.toList)) := by
    rw [distinct_eq_firsts, ← htokens]
    rfl
  refine ⟨hnames, fun name hname => ?_, fun hall => ?_⟩
  · rw [hnames, mem_distinct] at hname
    obtain ⟨e, he, hbraced⟩ := List.mem_filterMap.1 hname
    have hmem : name ∈ (scan path.toList).filterMap Part.wildcard? :=
      List.mem_filterMap.2 ⟨e.1, mem_of_mem_outside he, wildcard?_of_braced? hbraced⟩
    have hstarred := List.mem_map_of_mem (f := ("*" ++ ·)) (mem_distinct.2 hmem)
    rw [← starred_identifiers] at hstarred
    exact List.mem_of_mem_filter hstarred
  · rw [hnames, hall, starred_identifiers]

/-- One variable, whose value opens a class. -/
def opening : Lookup := fun name => if name = "dir" then some "docs[0" else none

theorem ordinary_opening : Ordinary opening where
  names name := if_neg fun h => by simpa using congrArg (·.toList.head?) h
  values name value h := by
    obtain ⟨-, h⟩ := Option.ite_none_right_eq_some.1 h
    cases h
    decide

theorem wildcards_alike_opening :
    let path := "$\x7bdir\x7d$\x7b*id\x7d]/$\x7b*ch\x7d$$-$\x7b*no\x7d$\x7b*ch\x7d"
    Ordinary opening ∧ ClearDollars opening false (scan path.toList) ∧
      ∃ text q, substituteKeepingWildcards path opening = .ok text ∧ Pattern.compile text = .ok q ∧
        q.names = ["ch", "no"] ∧ identifiers path = ["dir", "*id", "*ch", "*no"] := by
  intro path
  have hdollars : ClearDollars opening false (scan path.toList) := by
    unfold ClearDollars
    decide +kernel
  have ht : substituteKeepingWildcards path opening =
      .ok "docs[0$\x7b*id\x7d]/$\x7b*ch\x7d$-$\x7b*no\x7d$\x7b*ch\x7d" := by
    decide +kernel
  have hq : Pattern.compile "docs[0$\x7b*id\x7d]/$\x7b*ch\x7d$-$\x7b*no\x7d$\x7b*ch\x7d" =
      .ok ⟨[.literal "docs", .charClass false "0$\x7b*id\x7d", .literal "/", .named "ch",
        .literal "$-", .named "no", .named "ch"], by decide⟩ := by
    decide +kernel
  refine ⟨ordinary_opening, hdollars, _, _, ht, hq, ?_, by decide +kernel⟩
  rw [(wildcards_alike ordinary_opening ht hq hdollars).1]
  decide +kernel

/-- A wildcard in a class and one without braces, which the template has and the pattern does not,
and an escaped dollar in front of braces, where it is the other way around. -/
theorem wildcards_differ :
    (∃ q, substituteKeepingWildcards "[$\x7b*x\x7d]" (fun _ => none) = .ok "[$\x7b*x\x7d]" ∧
      Pattern.compile "[$\x7b*x\x7d]" = .ok q ∧ q.names = [] ∧
      identifiers "[$\x7b*x\x7d]" = ["*x"]) ∧
    (∃ q, substituteKeepingWildcards "$*x" (fun _ => none) = .ok "$*x" ∧
      Pattern.compile "$*x" = .ok q ∧ q.names = [] ∧ identifiers "$*x" = ["*x"]) ∧
    ∃ q, substituteKeepingWildcards "$$\x7b*x\x7d" (fun _ => none) = .ok "$\x7b*x\x7d" ∧
      Pattern.compile "$\x7b*x\x7d" = .ok q ∧ q.names = ["x"] ∧
      identifiers "$$\x7b*x\x7d" = [] := by
  refine ⟨⟨⟨[.charClass false "$\x7b*x\x7d"], by decide⟩, ?_⟩,
    ⟨⟨[.literal "$", .star, .literal "x"], by decide⟩, ?_⟩, ⟨⟨[.named "x"], by decide⟩, ?_⟩⟩
  · decide +kernel
  · decide +kernel
  · decide +kernel

end Template
end DocGraph
