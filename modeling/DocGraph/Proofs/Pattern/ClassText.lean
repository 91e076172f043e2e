import DocGraph.Glob.Component
import DocGraph.Pattern.Glob
import DocGraph.Proofs.Pattern.Scan

/-!
# DocGraph.Proofs.Pattern.ClassText

Character classes as regular expressions and as globs read them.

* `ClassText.read?` — the characters of the class with a given text, in the syntax of regular
  expressions: ranges, characters behind a backslash, classes inside of classes, and the operators
  `&&`, `--` and `~~`.
* `readFrom_members` — of the members of a class only hyphens are special once they are escaped.
* `read?_expression` — so the regular expression of a class reads as the class that patterns match
  with.
* `GlobItem.read?_spelling` — the class that a glob reads.
* `removed_eq_nil_iff`, `base_eq_ofGlob` — a glob reads the same items, where nothing is taken away
  from them.
* `classes_alike` — a class of a compiled pattern for both.
* `class_differs` — two hyphens behind another character.
-/

namespace DocGraph

/-- A set of characters. -/
abbrev Chars := Char → Bool

namespace ClassText

/-- A character in the text of a class, as it is or behind a backslash. -/
inductive Symbol where
  | plain (c : Char)
  | escaped (c : Char)
deriving DecidableEq

def Symbol.char : Symbol → Char
  | plain c => c
  | escaped c => c

/-- Whether a character stands for itself behind a backslash. -/
def escapable (c : Char) : Bool := c.val < 128 && !c.isAlphanum && c != '<' && c != '>'

/-- The symbols of a text. What else stands behind a backslash is not read. -/
def symbols? : List Char → Option (List Symbol)
  | [] => some []
  | '\\' :: cs =>
    match cs with
    | c :: cs => if escapable c then (symbols? cs).map (.escaped c :: ·) else none
    | [] => none
  | c :: cs => (symbols? cs).map (.plain c :: ·)

/-- An operator on sets: `&&`, `--` or `~~`. -/
inductive Operator where
  | both
  | less
  | either
deriving DecidableEq

def Operator.apply : Operator → Chars → Chars → Chars
  | both, s, t => fun c => s c && t c
  | less, s, t => fun c => s c && !t c
  | either, s, t => fun c => s c != t c

/-- A class that is open. Operators apply from the left. -/
structure Frame where
  negated : Bool
  /-- The last operator, and what stands in front of it. -/
  left : Option (Operator × Chars) := none
  /-- What was read behind that. -/
  items : Chars := fun _ => false

namespace Frame

/-- What was read so far. -/
def set (f : Frame) : Chars :=
  match f.left with
  | none => f.items
  | some (op, s) => op.apply s f.items

def close (f : Frame) : Chars := fun c => f.set c != f.negated

def add (f : Frame) (s : Chars) : Frame := { f with items := fun c => f.items c || s c }

def operate (f : Frame) (op : Operator) : Frame :=
  { f with left := some (op, f.set), items := fun _ => false }

end Frame

/-- The start of a class, and what is left to read in it. A closing bracket stands for itself there,
and so do hyphens. -/
def started (negated : Bool) (r : List Symbol) : Frame × List Symbol :=
  match r with
  | .plain ']' :: r => ({ negated, items := fun c => ']' == c }, r)
  | r =>
    let hyphens := r.takeWhile (· == .plain '-')
    ({ negated, items := fun c => hyphens.any (·.char == c) }, r.drop hyphens.length)

/-- The class behind an opening bracket, and what is left to read in it. -/
def opened : List Symbol → Frame × List Symbol
  | .plain '^' :: r => started true r
  | r => started false r

/-- The operator that two symbols make. -/
def operator? : Symbol → List Symbol → Option Operator
  | .plain '&', .plain '&' :: _ => some .both
  | .plain '-', .plain '-' :: _ => some .less
  | .plain '~', .plain '~' :: _ => some .either
  | _, _ => none

/-- The end of the range that a hyphen makes, and what follows it. A hyphen in front of another one
or of the end of the class makes none. -/
def rangeEnd? : List Symbol → Option (Symbol × List Symbol)
  | .plain '-' :: b :: r => if b = .plain '-' ∨ b = .plain ']' then none else some (b, r)
  | _ => none

theorem length_started (negated : Bool) (r : List Symbol) :
    (started negated r).2.length ≤ r.length := by
  unfold started
  split
  · exact Nat.le_succ _
  · rw [List.length_drop]
    exact Nat.sub_le _ _

theorem length_opened (r : List Symbol) : (opened r).2.length ≤ r.length := by
  unfold opened
  split
  · exact Nat.le_succ_of_le (length_started true _)
  · exact length_started false _

theorem length_rangeEnd? {r r' : List Symbol} {b : Symbol} (h : rangeEnd? r = some (b, r')) :
    r'.length < r.length := by
  unfold rangeEnd? at h
  split at h
  · split at h
    · cases h
    · cases h
      simp only [List.length_cons]
      omega
  · cases h

/-- The characters of an open class inside of others, where the symbols are all that is left of it
and of them. Classes with a name, such as `[:alpha:]`, are not read. -/
def readFrom (stack : List Frame) (f : Frame) : List Symbol → Option Chars
  | [] => none
  | a :: r =>
    if a = .plain ']' then
      match stack with
      | [] => if r.isEmpty then some f.close else none
      | g :: stack => readFrom stack (g.add f.close) r
    else if a = .plain '[' then
      if r.head? = some (.plain ':') then none
      else readFrom (f :: stack) (opened r).1 (opened r).2
    else match operator? a r with
      | some op => readFrom stack (f.operate op) (r.drop 1)
      | none =>
        match _h : rangeEnd? r with
        | some (b, r') =>
          if a.char ≤ b.char
          then readFrom stack (f.add fun c => a.char ≤ c && c ≤ b.char) r'
          else none
        | none => readFrom stack (f.add fun c => a.char == c) r
termination_by r => r.length
decreasing_by
  · simp
  · have := length_opened r
    simp only [List.length_cons]
    omega
  · simp only [List.length_drop, List.length_cons]
    omega
  · have := length_rangeEnd? _h
    simp only [List.length_cons]
    omega
  · simp

/-- The characters of the class with a given text. -/
def read? (text : String) : Option Chars :=
  (symbols? text.toList).bind fun
    | .plain '[' :: r => readFrom [] (opened r).1 (opened r).2
    | _ => none

/-! ## Members of a class as they are escaped -/

/-- A member as the symbol that it is escaped to. -/
def ofMember (c : Char) : Symbol :=
  if c ∈ ['[', '\\', '&', '~', '^'] then .escaped c else .plain c

@[simp] theorem char_ofMember (c : Char) : (ofMember c).char = c := by
  unfold ofMember
  split <;> rfl

theorem ofMember_eq_plain {c d : Char} (hd : d ∉ ['[', '\\', '&', '~', '^']) :
    ofMember c = .plain d ↔ c = d := by
  unfold ofMember
  split
  · next hc =>
    refine ⟨nofun, ?_⟩
    rintro rfl
    exact absurd hc hd
  · exact ⟨Symbol.plain.inj, congrArg _⟩

theorem ofMember_ne_plain {c d : Char} (hd : d ∈ ['[', '\\', '&', '~', '^']) :
    ofMember c ≠ .plain d := by
  unfold ofMember
  split
  · nofun
  · next hc =>
    rintro ⟨⟩
    exact hc hd

theorem symbols?_escapeMember (c : Char) (r : List Char) :
    symbols? (Token.escapeMember c ++ r) = (symbols? r).map (ofMember c :: ·) := by
  unfold Token.escapeMember ofMember
  split
  · next hc =>
    have hescapable : escapable c = true := by
      simp only [List.mem_cons, List.not_mem_nil, or_false] at hc
      obtain rfl | rfl | rfl | rfl | rfl := hc <;> decide
    simp [symbols?, hescapable]
  · next hc =>
    have hback : c ≠ '\\' := fun h => hc (by simp [h])
    rw [List.singleton_append, symbols?]
    simpa using hback

theorem symbols?_members (cs r : List Char) :
    symbols? (cs.flatMap Token.escapeMember ++ r) =
      (symbols? r).map (cs.map ofMember ++ ·) := by
  induction cs with
  | nil => simp
  | cons c cs ih =>
    rw [List.flatMap_cons, List.append_assoc, symbols?_escapeMember, ih, Option.map_map]
    rfl

/-- The members of a class and its end. -/
def members (cs : List Char) : List Symbol := cs.map ofMember ++ [.plain ']']

theorem members_cons (c : Char) (cs : List Char) : members (c :: cs) = ofMember c :: members cs :=
  rfl

theorem operator?_members {c : Char} {cs : List Char} (h : c = '-' → cs.head? ≠ some '-') :
    operator? (ofMember c) (members cs) = none := by
  unfold operator?
  split
  · next hc _ => exact absurd hc (ofMember_ne_plain (by decide))
  · next hc hcs =>
    cases cs with
    | nil => cases hcs
    | cons d cs =>
      have hd : d = '-' := (ofMember_eq_plain (by decide)).1 (List.cons.inj hcs).1
      exact absurd (congrArg some hd) (h ((ofMember_eq_plain (by decide)).1 hc))
  · next hc _ => exact absurd hc (ofMember_ne_plain (by decide))
  · rfl

theorem rangeEnd?_members {d : Char} (cs : List Char) (hhyphen : d ≠ '-') (hclose : d ≠ ']') :
    rangeEnd? (members ('-' :: d :: cs)) = some (ofMember d, members cs) := by
  have h : ofMember '-' = .plain '-' := rfl
  simp [members_cons, rangeEnd?, ofMember_eq_plain, h, hhyphen, hclose]

theorem rangeEnd?_members_eq_none {cs : List Char} (h : ∀ d cs', cs = '-' :: d :: cs' → d = '-') :
    rangeEnd? (members cs) = none := by
  unfold rangeEnd?
  split
  · next b r heq =>
    match cs with
    | [] => cases heq
    | [c] =>
      cases (List.cons.inj heq).2
      rfl
    | c :: d :: cs =>
      obtain ⟨hc, hcs⟩ := List.cons.inj heq
      obtain rfl : c = '-' := (ofMember_eq_plain (by decide)).1 hc
      obtain rfl := h d cs rfl
      cases hcs
      rfl
  · rfl

namespace Frame

theorem add_add (f : Frame) (s t : Chars) : (f.add s).add t = f.add fun c => s c || t c := by
  simp [add, Bool.or_assoc]

/-- What a class accepts if the items that are left in it are those of `k`. -/
def withItems (f : Frame) (k : CharClass) : Chars :=
  fun c => ((f.add k.base.accepts).set c && !k.removed.any (CharSet.accepts · c)) != f.negated

theorem withItems_nil (f : Frame) : f.withItems ⟨[], []⟩ = f.close := by
  funext c
  simp [withItems, close, add, CharSet.accepts]

theorem withItems_cons (f : Frame) (i : CharItem) (k : CharClass) :
    f.withItems (k.cons i) = (f.add i.accepts).withItems k := by
  unfold withItems
  rw [add_add]
  rfl

theorem withItems_less (f : Frame) (k : CharClass) :
    f.withItems ⟨[], k.base :: k.removed⟩ = (f.operate .less).withItems k := by
  funext c
  simp [withItems, add, operate, CharSet.accepts, set, Operator.apply, Bool.and_assoc]

end Frame

section

variable {c d : Char} {cs : List Char} (f : Frame)

theorem readFrom_end : readFrom [] f (members []) = some f.close := by
  simp [members, readFrom]

theorem readFrom_less :
    readFrom [] f (members ('-' :: '-' :: cs)) = readFrom [] (f.operate .less) (members cs) := by
  rw [members_cons, readFrom]
  rfl

theorem readFrom_item (hc : c ≠ ']') (hless : c = '-' → cs.head? ≠ some '-') :
    readFrom [] f (members (c :: cs)) =
      match rangeEnd? (members cs) with
      | some (b, r) =>
        if c ≤ b.char then readFrom [] (f.add (CharItem.range c b.char).accepts) r else none
      | none => readFrom [] (f.add (CharItem.one c).accepts) (members cs) := by
  rw [members_cons, readFrom, if_neg (mt (ofMember_eq_plain (by decide)).1 hc),
    if_neg (ofMember_ne_plain (by decide)), operator?_members hless]
  dsimp only
  split
  · next h =>
    rw [h, char_ofMember]
    rfl
  · next h =>
    rw [h, char_ofMember]
    rfl

theorem readFrom_one (hc : c ≠ ']') (hless : c = '-' → cs.head? ≠ some '-')
    (hone : ∀ d cs', cs = '-' :: d :: cs' → d = '-') :
    readFrom [] f (members (c :: cs)) =
      readFrom [] (f.add (CharItem.one c).accepts) (members cs) := by
  rw [readFrom_item f hc hless, rangeEnd?_members_eq_none hone]

theorem readFrom_range (hc : c ≠ ']') (hless : c ≠ '-') (hd : d ≠ ']') (hrange : d ≠ '-') :
    readFrom [] f (members (c :: '-' :: d :: cs)) =
      if c ≤ d then readFrom [] (f.add (CharItem.range c d).accepts) (members cs) else none := by
  rw [readFrom_item f hc fun h => absurd h hless, rangeEnd?_members cs hrange hd]
  dsimp only
  rw [char_ofMember]

end

/-- Of the members of a class only hyphens are special. -/
theorem readFrom_members {cs : List Char} (hcs : ']' ∉ cs) (f : Frame) :
    readFrom [] f (members cs) = (CharClass.items? cs).map f.withItems := by
  -- what was read of the items so far is in the frame, which differs from case to case
  fun_induction CharClass.items? cs generalizing f with
  | case1 => rw [readFrom_end, Option.map_some, Frame.withItems_nil]
  | case2 cs ih =>
    rw [readFrom_less, ih (fun h => hcs (by simp [h])), Option.map_map]
    exact congrArg (Option.map · _) (funext fun k => (f.withItems_less k).symm)
  | case3 c cs hc ih =>
    simp only [List.mem_cons, not_or] at hcs
    rw [readFrom_one f (Ne.symm hcs.1) (fun h => (hc h).elim) (by simp), ih (by simp [hcs]),
      Option.map_map]
    exact congrArg (Option.map · _) (funext fun k => (f.withItems_cons _ k).symm)
  | case4 c d cs hc hd hle ih =>
    simp only [List.mem_cons, not_or] at hcs
    rw [readFrom_range f (Ne.symm hcs.1) hc (Ne.symm hcs.2.2.1) hd, if_pos hle, ih hcs.2.2.2,
      Option.map_map]
    exact congrArg (Option.map · _) (funext fun k => (f.withItems_cons _ k).symm)
  | case5 c d cs hc hd hle =>
    simp only [List.mem_cons, not_or] at hcs
    rw [readFrom_range f (Ne.symm hcs.1) hc (Ne.symm hcs.2.2.1) hd, if_neg hle, Option.map_none]
  | case6 c cs hless hrange ih =>
    simp only [List.mem_cons, not_or] at hcs
    rw [readFrom_one f (Ne.symm hcs.1) ?_ (fun d cs' h => (hrange d cs' h).elim), ih hcs.2,
      Option.map_map]
    · exact congrArg (Option.map · _) (funext fun k => (f.withItems_cons _ k).symm)
    · intro hc hhead
      obtain ⟨cs', rfl⟩ := List.head?_eq_some_iff.1 hhead
      exact hless cs' hc rfl

theorem takeWhile_members (cs : List Char) :
    (members cs).takeWhile (· == .plain '-') = (cs.takeWhile (· == '-')).map ofMember := by
  induction cs with
  | nil => rfl
  | cons c cs ih =>
    have hsymbol : (ofMember c == .plain '-') = (c == '-') := by
      rw [Bool.eq_iff_iff, beq_iff_eq, beq_iff_eq, ofMember_eq_plain (by decide)]
    rw [members_cons, List.takeWhile_cons, List.takeWhile_cons, hsymbol, ih]
    split <;> rfl

theorem drop_members {n : Nat} {cs : List Char} (h : n ≤ cs.length) :
    (members cs).drop n = members (cs.drop n) := by
  rw [members, List.drop_append_of_le_length (by simpa using h), ← List.map_drop]
  rfl

theorem started_members {cs : List Char} (hne : cs ≠ []) (hcs : ']' ∉ cs) (negated : Bool) :
    started negated (members cs) =
      let hyphens := cs.takeWhile (· == '-')
      ({ negated, items := CharSet.accepts (hyphens.map .one) },
        members (cs.drop hyphens.length)) := by
  unfold started
  split
  · next heq =>
    obtain ⟨c, cs, rfl⟩ := List.exists_cons_of_ne_nil hne
    have hc : c = ']' := (ofMember_eq_plain (by decide)).1 (List.cons.inj heq).1
    exact absurd (by simp [hc]) hcs
  · have hitems (l : List Char) :
        (fun c => (l.map ofMember).any (·.char == c)) = CharSet.accepts (l.map .one) := by
      funext c
      simp [CharSet.accepts, CharItem.accepts, List.any_map, Function.comp_def]
    dsimp only
    rw [takeWhile_members, List.length_map, drop_members (List.takeWhile_prefix _).length_le,
      hitems]

/-- The class that is read behind its hyphens. -/
theorem readFrom_started {body : String} (hne : body ≠ "") (hclose : ']' ∉ body.toList)
    (negated : Bool) :
    readFrom [] (started negated (members body.toList)).1
        (started negated (members body.toList)).2 =
      (CharClass.read? body).map fun k c => k.accepts c != negated := by
  rw [started_members (by simpa using hne) hclose]
  dsimp only
  rw [readFrom_members fun h => hclose (List.mem_of_mem_drop h), CharClass.read?, Option.map_map]
  refine congrArg (Option.map · _) (funext fun k => funext fun c => ?_)
  simp [Frame.withItems, Frame.add, Frame.set, CharClass.accepts, CharSet.accepts]

/-- The regular expression of a class reads as the class that patterns match with. -/
theorem read?_expression {body : String} (hne : body ≠ "") (hclose : ']' ∉ body.toList)
    (negated : Bool) (seen : List String) :
    read? ((Token.charClass negated body).expression seen) =
      (CharClass.read? body).map fun k c => k.accepts c != negated := by
  have hmembers : symbols? (body.toList.flatMap Token.escapeMember ++ [']']) =
      some (members body.toList) := symbols?_members _ _
  cases negated with
  | true =>
    have hsymbols : symbols? ((Token.charClass true body).expression seen).toList =
        some (.plain '[' :: .plain '^' :: members body.toList) := by
      simp [Token.expression, symbols?, hmembers]
    rw [read?, hsymbols]
    exact readFrom_started hne hclose true
  | false =>
    have hsymbols : symbols? ((Token.charClass false body).expression seen).toList =
        some (.plain '[' :: members body.toList) := by
      simp [Token.expression, symbols?, hmembers]
    have hopened : opened (members body.toList) = started false (members body.toList) := by
      unfold opened
      split
      · next heq =>
        obtain ⟨c, cs, hcs⟩ := List.exists_cons_of_ne_nil (String.toList_eq_nil_iff.not.2 hne)
        rw [hcs] at heq
        exact absurd (List.cons.inj heq).1 (ofMember_ne_plain (by decide))
      · rfl
    rw [read?, hsymbols, ← readFrom_started hne hclose false, ← hopened]
    rfl

end ClassText

/-! ## Classes in globs -/

namespace GlobItem

theorem body?_append {body : List Char} (hne : body ≠ []) (hclose : ']' ∉ body)
    (rest : List Char) : body? (body ++ ']' :: rest) = some (body, rest) := by
  obtain ⟨c, cs, rfl⟩ := List.exists_cons_of_ne_nil hne
  rw [List.mem_cons, not_or] at hclose
  have hcs : (cs ++ ']' :: rest).takeWhile (· != ']') = cs := by
    rw [List.takeWhile_append_of_pos fun d hd => by simpa using ne_of_mem_of_not_mem hd hclose.2]
    simp
  simp [body?, hcs]

theorem class?_append {negated : Bool} {body : String} (h : (Token.charClass negated body).Proper)
    (rest : List Char) :
    class? ((if negated then ['!'] else []) ++ (body.toList ++ ']' :: rest)) =
      some (.charClass negated (CharSet.ofGlob body.toList), rest) := by
  cases h with
  | charClass hne hclose hmark =>
    have hbody := body?_append (String.toList_eq_nil_iff.not.2 hne) hclose rest
    cases negated with
    | true => simp [class?, hbody]
    | false =>
      obtain ⟨c, cs, hcs⟩ := List.exists_cons_of_ne_nil (String.toList_eq_nil_iff.not.2 hne)
      have hc : c ≠ '!' := by
        rintro rfl
        exact hmark rfl (by rw [hcs]; rfl)
      rw [hcs] at hbody ⊢
      unfold class?
      split
      · next heq => exact absurd (List.cons.inj heq).1 hc
      · exact congrArg (Option.map _) hbody

/-- A glob reads the class of a token as its text says. -/
theorem read?_spelling {negated : Bool} {body : String} (h : (Token.charClass negated body).Proper)
    (rest : List Char) :
    read? ((Token.charClass negated body).spelling.toList ++ rest) =
      (read? rest).map (.charClass negated (CharSet.ofGlob body.toList) :: ·) := by
  rw [Token.toList_spelling_charClass, List.cons_append, List.append_assoc, List.append_assoc,
    List.singleton_append, read?]
  split
  · next i rest' hclass =>
    rw [class?_append h rest] at hclass
    cases hclass
    rfl
  · next hclass =>
    rw [class?_append h rest] at hclass
    cases hclass

end GlobItem

namespace CharClass

theorem removed_cons (i : CharItem) (k : CharClass) : (k.cons i).removed = k.removed := rfl

theorem hyphens_infix_cons {c : Char} {cs : List Char} :
    ['-', '-'] <:+: c :: cs ↔ c = '-' ∧ cs.head? = some '-' ∨ ['-', '-'] <:+: cs := by
  rw [List.infix_cons_iff, List.cons_prefix_cons, eq_comm]
  cases cs with
  | nil => simp
  | cons d cs => simp [List.cons_prefix_cons, eq_comm]

theorem hyphens_infix_cons_of {c : Char} {cs : List Char} (h : c = '-' → cs.head? ≠ some '-') :
    ['-', '-'] <:+: c :: cs ↔ ['-', '-'] <:+: cs := by
  rw [hyphens_infix_cons, or_iff_right fun hboth => h hboth.1 hboth.2]

/-- Sets are taken away exactly if two hyphens stand side by side. -/
theorem removed_eq_nil_iff {cs : List Char} {k : CharClass} (h : items? cs = some k) :
    k.removed = [] ↔ ¬['-', '-'] <:+: cs := by
  fun_induction items? cs generalizing k with
  | case1 =>
    cases h
    simp
  | case2 cs ih =>
    obtain ⟨k, -, rfl⟩ := Option.map_eq_some_iff.1 h
    simp [hyphens_infix_cons]
  | case3 c cs hc ih =>
    obtain ⟨k, hk, rfl⟩ := Option.map_eq_some_iff.1 h
    rw [removed_cons, hyphens_infix_cons_of fun h => (hc h).elim]
    exact ih hk
  | case4 c d cs hc hd hle ih =>
    obtain ⟨k, hk, rfl⟩ := Option.map_eq_some_iff.1 h
    rw [removed_cons, hyphens_infix_cons_of fun h => (hc h).elim,
      hyphens_infix_cons_of fun _ => by simpa using hd,
      hyphens_infix_cons_of fun h => absurd h hd]
    exact ih hk
  | case5 => cases h
  | case6 c cs hless hrange ih =>
    obtain ⟨k, hk, rfl⟩ := Option.map_eq_some_iff.1 h
    rw [removed_cons, hyphens_infix_cons_of ?_]
    · exact ih hk
    · intro hc hhead
      obtain ⟨r, rfl⟩ := List.head?_eq_some_iff.1 hhead
      exact hless r hc rfl

/-- A glob reads the same items if nothing is taken away from them. -/
theorem base_eq_ofGlob {cs : List Char} {k : CharClass} (h : items? cs = some k)
    (hnone : k.removed = []) : k.base = CharSet.ofGlob cs := by
  fun_induction items? cs generalizing k with
  | case1 =>
    cases h
    rfl
  | case2 cs ih =>
    obtain ⟨k, -, rfl⟩ := Option.map_eq_some_iff.1 h
    cases hnone
  | case3 c cs hc ih =>
    obtain ⟨k, hk, rfl⟩ := Option.map_eq_some_iff.1 h
    refine absurd ?_ ((removed_eq_nil_iff hk).1 hnone)
    exact (List.prefix_append ['-', '-'] cs).isInfix
  | case4 c d cs hc hd hle ih =>
    obtain ⟨k, hk, rfl⟩ := Option.map_eq_some_iff.1 h
    exact congrArg (CharItem.range c d :: ·) (ih hk hnone)
  | case5 => cases h
  | case6 c cs hless hrange ih => 
    obtain ⟨k, hk, rfl⟩ := Option.map_eq_some_iff.1 h
    rw [CharSet.ofGlob]
    · exact congrArg (CharItem.one c :: ·) (ih hk hnone)
    · exact hrange

theorem ofGlob_cons {c : Char} {cs : List Char} (h : cs.head? ≠ some '-') :
    CharSet.ofGlob (c :: cs) = .one c :: CharSet.ofGlob cs := by
  rw [CharSet.ofGlob]
  rintro d r rfl
  exact h rfl

theorem takeWhile_hyphens {cs : List Char} (h : cs.head? ≠ some '-') :
    cs.takeWhile (· == '-') = [] := by
  cases cs with
  | nil => rfl
  | cons c cs =>
    have hc : c ≠ '-' := by simpa using h
    simp [hc]

/-- The class is the one that a glob reads exactly if no two hyphens stand side by side in it, or
nothing else stands in it. -/
theorem read?_eq_ofGlob_iff {body : String} {k : CharClass} (h : read? body = some k) :
    k = ⟨CharSet.ofGlob body.toList, []⟩ ↔ ¬['-', '-'] <:+: body.toList ∨ body = "--" := by
  have hbody : body = "--" ↔ body.toList = ['-', '-'] := String.toList_inj.symm
  rw [read?] at h
  obtain ⟨k, hk, rfl⟩ := Option.map_eq_some_iff.1 h
  rw [hbody, CharClass.mk.injEq]
  generalize body.toList = cs at hk ⊢
  by_cases hfirst : cs.head? = some '-'
  · obtain ⟨cs, rfl⟩ := List.head?_eq_some_iff.1 hfirst
    by_cases hsecond : cs.head? = some '-'
    · obtain ⟨cs, rfl⟩ := List.head?_eq_some_iff.1 hsecond
      have hpair : ['-', '-'] <:+: '-' :: '-' :: cs := (List.prefix_append _ cs).isInfix
      -- if anything follows, a glob reads a range from a hyphen to it
      cases cs with
      | nil =>
        cases hk
        simp [CharSet.ofGlob]
      | cons c cs => simp [hpair, CharSet.ofGlob]
    · have hhyphens : ('-' :: cs).takeWhile (· == '-') = ['-'] := by
        simp [takeWhile_hyphens hsecond]
      rw [hhyphens] at hk ⊢
      have hk : items? cs = some k := hk
      have hlonger : '-' :: cs ≠ ['-', '-'] := by
        rintro ⟨⟩
        exact hsecond rfl
      rw [or_iff_left hlonger, hyphens_infix_cons_of fun _ => hsecond, ← removed_eq_nil_iff hk,
        ofGlob_cons hsecond]
      exact ⟨And.right, fun h => ⟨congrArg (CharItem.one '-' :: ·) (base_eq_ofGlob hk h), h⟩⟩
  · rw [takeWhile_hyphens hfirst] at hk ⊢
    have hk : items? cs = some k := hk
    have hother : cs ≠ ['-', '-'] := by
      rintro rfl
      exact hfirst rfl
    rw [or_iff_left hother, ← removed_eq_nil_iff hk]
    exact ⟨And.right, fun h => ⟨base_eq_ofGlob hk h, h⟩⟩

end CharClass

namespace Pattern

/-- A class of a compiled pattern as its regular expression and as its glob read it. They read the
same items, and nothing is taken away from them, exactly if no two hyphens stand side by side in the
class or nothing else stands in it, and then they accept the same characters. -/
theorem classes_alike {source : String} {p : Pattern} (hp : compile source = .ok p)
    {negated : Bool} {body : String} (ht : .charClass negated body ∈ p.tokens) :
    ∃ k, CharClass.read? body = some k ∧
      (∀ seen, ClassText.read? ((Token.charClass negated body).expression seen) =
        some fun c => k.accepts c != negated) ∧
      (∀ rest, GlobItem.read? ((Token.charClass negated body).spelling.toList ++ rest) =
        (GlobItem.read? rest).map (.charClass negated (CharSet.ofGlob body.toList) :: ·)) ∧
      (k = ⟨CharSet.ofGlob body.toList, []⟩ ↔ ¬['-', '-'] <:+: body.toList ∨ body = "--") ∧
      (¬['-', '-'] <:+: body.toList ∨ body = "--" →
        ∀ c, (k.accepts c != negated) =
          (CharSet.accepts (CharSet.ofGlob body.toList) c != negated)) := by
  obtain ⟨hne, hclose, hread⟩ := Token.isReadable_charClass.1 (p.readable _ ht)
  obtain ⟨k, hk⟩ := Option.isSome_iff_exists.1 hread
  have hiff := CharClass.read?_eq_ofGlob_iff hk
  refine ⟨k, hk, fun seen => ?_, GlobItem.read?_spelling (proper_of_compile hp ht), hiff,
    fun h c => ?_⟩
  · rw [ClassText.read?_expression hne hclose, hk]
    rfl
  · rw [hiff.2 h]
    simp [CharClass.accepts]

/-- A range, and a hyphen at the end. -/
def ranged : Pattern := ⟨[.charClass true "a-c-", .literal ".txt"], by decide⟩

theorem classes_alike_ranged :
    compile "[!a-c-].txt" = .ok ranged ∧ .charClass true "a-c-" ∈ ranged.tokens ∧
      ∃ set, ClassText.read? ((Token.charClass true "a-c-").expression []) = some set ∧
        ∀ c, set c = (CharSet.accepts [.range 'a' 'c', .one '-'] c != true) := by
  have hcompile : compile "[!a-c-].txt" = .ok ranged := by decide +kernel
  have hmem : .charClass true "a-c-" ∈ ranged.tokens := List.mem_cons_self
  obtain ⟨k, -, hread, -, -, hsame⟩ := classes_alike hcompile hmem
  exact ⟨hcompile, hmem, _, hread [], hsame (.inl (by decide))⟩

/-- Behind another character two hyphens take away what follows them, while a glob reads a range. -/
theorem class_differs :
    ∃ p set, compile "[,--]" = .ok p ∧ .charClass false ",--" ∈ p.tokens ∧
      ClassText.read? ((Token.charClass false ",--").expression []) = some set ∧
      set '-' = false ∧ CharSet.accepts (CharSet.ofGlob ",--".toList) '-' = true ∧
      p.glob = "[,--]" ∧ p.isMatch "-" = false := by
  have hread := ClassText.read?_expression (by decide : ",--" ≠ "") (by decide) false []
  exact ⟨⟨[.charClass false ",--"], by decide⟩, _, by decide +kernel, List.mem_cons_self, hread,
    by decide, by decide, by decide +kernel, by decide +kernel⟩

end Pattern
end DocGraph
