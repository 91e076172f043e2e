import DocGraph.Proofs.Outcome
import DocGraph.Proofs.Template.Parts

/-!
# DocGraph.Proofs.Template.Policy

One scanner under three policies.

* `Part.filled`  — what a part becomes where nothing is wrong: values go in as they are.
* `Offends`      — the parts that a policy does not let pass.
* `Part.fault`   — the error for such a part.
* `renderParts_of_clean`, `renderParts_of_offends` — rendering fills all parts, or fails at the
  leftmost one that offends.
* `render_eq_ok_iff`, `render_eq_error_iff` — so for a whole template.
* `policies_of_one_scanner` — the ways of substitution compared.
-/

namespace DocGraph
namespace Template

/-- The text of a part where nothing is wrong. A placeholder without a value stays as it is
written. -/
def Part.filled (v : Lookup) : Part → List Char
  | .char c => [c]
  | .escape => ['$']
  | .placeholder name spelling => ((v (String.ofList name)).map String.toList).getD spelling
  | .stray => ['$']

/-- The parts that a policy does not let pass: stray dollars and all names without a value if it is
strict, and names without a value that have no star if wildcards are kept. -/
inductive Offends (v : Lookup) : Policy → Part → Prop where
  | stray : Offends v .strict .stray
  | name {name spelling : List Char} (h : v (String.ofList name) = none) :
      Offends v .strict (.placeholder name spelling)
  | ordinary {name spelling : List Char} (h : v (String.ofList name) = none)
      (hname : name.head? ≠ some '*') : Offends v .keepWildcards (.placeholder name spelling)

/-- The error for a part that does not pass. -/
def Part.fault (template : String) (offset : Nat) : Part → Error
  | .placeholder name _ => .missing template (String.ofList name)
  | _ => .stray template offset

/-- The error is about the leftmost part of a template that does not pass. -/
def Faults (template : String) (v : Lookup) (policy : Policy) (e : Error) : Prop :=
  ∃ before part after, scan template.toList = before ++ part :: after ∧
    (∀ p ∈ before, ¬Offends v policy p) ∧ Offends v policy part ∧
    e = part.fault template (String.ofList (before.flatMap Part.spelling)).utf8ByteSize

variable {template : String} {v w : Lookup} {policy : Policy} {p : Part} {ps : List Part}

/-! ## Single parts -/

theorem renderPart_of_clean (offset : Nat) (h : ¬Offends v policy p) :
    renderPart template v policy offset p = .ok (p.filled v) := by
  cases p with
  | char c => rfl
  | escape => rfl
  | stray =>
    cases policy with
    | strict => exact absurd .stray h
    | keepWildcards => rfl
    | safe => rfl
  | placeholder name spelling =>
    rw [renderPart, Part.filled]
    cases hv : v (String.ofList name) with
    | some value => rfl
    | none =>
      have hkeeps : policy.keeps name = true := by
        cases policy with
        | strict => exact absurd (.name hv) h
        | keepWildcards =>
          by_contra hstar
          exact h (.ordinary hv fun heq => hstar (beq_iff_eq.2 heq))
        | safe => rfl
      rw [if_pos hkeeps]
      rfl

theorem renderPart_of_offends (offset : Nat) (h : Offends v policy p) :
    renderPart template v policy offset p = .error (p.fault template offset) := by
  cases h with
  | stray => rfl
  | name h =>
    rw [renderPart, h]
    rfl
  | ordinary h hname =>
    have hkeeps : Policy.keeps .keepWildcards _ ≠ true := fun heq => hname (beq_iff_eq.1 heq)
    rw [renderPart, h]
    exact if_neg hkeeps

/-! ## Templates -/

theorem byteLength_eq (cs : List Char) : byteLength cs = (String.ofList cs).utf8ByteSize := by
  induction cs with
  | nil => rfl
  | cons c cs ih =>
    rw [byteLength, ih, String.ofList_cons, String.utf8ByteSize_append,
      String.utf8ByteSize_singleton]

theorem byteLength_append (cs ds : List Char) :
    byteLength (cs ++ ds) = byteLength cs + byteLength ds := by
  rw [byteLength_eq, byteLength_eq, byteLength_eq, String.ofList_append,
    String.utf8ByteSize_append]

theorem renderParts_of_clean (offset : Nat) (h : ∀ p ∈ ps, ¬Offends v policy p) :
    renderParts template v policy offset ps = .ok (ps.flatMap (Part.filled v)) := by
  induction ps generalizing offset with
  | nil => rfl
  | cons p ps ih =>
    rw [List.forall_mem_cons] at h
    rw [renderParts, renderPart_of_clean offset h.1, ok_bind, ih _ h.2, ok_bind]
    rfl

theorem renderParts_of_offends (offset : Nat) (h : ∀ p ∈ ps, ¬Offends v policy p)
    (hp : Offends v policy p) (after : List Part) :
    renderParts template v policy offset (ps ++ p :: after) =
      .error (p.fault template (offset + byteLength (ps.flatMap Part.spelling))) := by
  induction ps generalizing offset with
  | nil =>
    rw [List.nil_append, renderParts, renderPart_of_offends offset hp]
    rfl
  | cons q ps ih =>
    rw [List.forall_mem_cons] at h
    rw [List.cons_append, renderParts, renderPart_of_clean offset h.1, ok_bind, ih _ h.2,
      List.flatMap_cons, byteLength_append, Nat.add_assoc]
    rfl

/-- Either all parts pass or one is the leftmost that does not. -/
theorem clean_or_exists_first (v : Lookup) (policy : Policy) (ps : List Part) :
    (∀ p ∈ ps, ¬Offends v policy p) ∨ ∃ before part after, ps = before ++ part :: after ∧
      (∀ p ∈ before, ¬Offends v policy p) ∧ Offends v policy part := by
  classical
  cases h : ps.find? fun p => Offends v policy p with
  | none => exact .inl fun p hp hoffends => List.find?_eq_none.1 h p hp (decide_eq_true hoffends)
  | some part =>
    obtain ⟨hpart, before, after, hps, hbefore⟩ := List.find?_eq_some_iff_append.1 h
    refine .inr ⟨before, part, after, hps, fun p hp hoffends => ?_, of_decide_eq_true hpart⟩
    simpa [hoffends] using hbefore p hp

/-- The text of a template where nothing is wrong. -/
def filled (template : String) (v : Lookup) : String :=
  String.ofList ((scan template.toList).flatMap (Part.filled v))

theorem render_of_clean (h : ∀ p ∈ scan template.toList, ¬Offends v policy p) :
    render template v policy = .ok (filled template v) := by
  rw [render, renderParts_of_clean 0 h]
  rfl

theorem render_of_faults {e : Error} (h : Faults template v policy e) :
    render template v policy = .error e := by
  obtain ⟨before, part, after, hparts, hbefore, hpart, rfl⟩ := h
  rw [render, hparts, renderParts_of_offends 0 hbefore hpart, Nat.zero_add, byteLength_eq]
  rfl

theorem clean_or_faults (template : String) (v : Lookup) (policy : Policy) :
    (∀ p ∈ scan template.toList, ¬Offends v policy p) ∨ ∃ e, Faults template v policy e := by
  refine (clean_or_exists_first v policy (scan template.toList)).imp_right ?_
  rintro ⟨before, part, after, hparts, hbefore, hpart⟩
  exact ⟨_, before, part, after, hparts, hbefore, hpart, rfl⟩

theorem render_eq_ok_iff {text : String} : render template v policy = .ok text ↔
    (∀ p ∈ scan template.toList, ¬Offends v policy p) ∧ text = filled template v := by
  constructor
  · intro h
    rcases clean_or_faults template v policy with hclean | ⟨e, he⟩
    · rw [render_of_clean hclean] at h
      exact ⟨hclean, (Except.ok.inj h).symm⟩
    · rw [render_of_faults he] at h
      cases h
  · rintro ⟨hclean, rfl⟩
    exact render_of_clean hclean

theorem render_eq_error_iff {e : Error} : render template v policy = .error e ↔
    Faults template v policy e := by
  refine ⟨fun h => ?_, render_of_faults⟩
  rcases clean_or_faults template v policy with hclean | ⟨e', he'⟩
  · rw [render_of_clean hclean] at h
    cases h
  · rw [render_of_faults he'] at h
    cases h
    exact he'

/-! ## Plain text -/

theorem flatMap_filled_char (v : Lookup) (cs : List Char) :
    (cs.map .char).flatMap (Part.filled v) = cs := by
  rw [List.flatMap_map]
  exact List.flatMap_singleton' cs

theorem not_offends_of_mem_char {cs : List Char} (hp : p ∈ cs.map .char) :
    ¬Offends v policy p := by
  obtain ⟨c, -, rfl⟩ := List.mem_map.1 hp
  exact nofun

/-- A text without a dollar is its own substitution. -/
theorem substitute_of_dollar_notMem {text : String} (h : '$' ∉ text.toList) (v : Lookup) :
    substitute text v = .ok text := by
  have hscan : scan text.toList = text.toList.map .char := by
    have hparses := Parses.nil.append_plain h
    rw [List.append_nil, List.append_nil] at hparses
    exact hparses.eq_scan.symm
  refine render_eq_ok_iff.2 ⟨fun p hp => not_offends_of_mem_char (hscan ▸ hp), ?_⟩
  rw [filled, hscan, flatMap_filled_char, String.ofList_toList]

/-! ## Names -/

theorem mem_distinct {l : List String} {s : String} : s ∈ distinct l ↔ s ∈ l := by
  have hfold : ∀ seen, s ∈ l.foldl (fun seen s => if s ∈ seen then seen else seen ++ [s]) seen ↔
      s ∈ seen ∨ s ∈ l := by
    induction l with
    | nil => simp
    | cons a l ih =>
      intro seen
      rw [List.foldl_cons, ih, List.mem_cons]
      split
      · next ha =>
        constructor
        · exact Or.imp_right .inr
        · rintro (h | rfl | h)
          · exact .inl h
          · exact .inl ha
          · exact .inr h
      · rw [List.mem_append, List.mem_singleton, or_assoc]
  rw [distinct, hfold, or_iff_right List.not_mem_nil]

theorem mem_identifiers {n : String} : n ∈ identifiers template ↔
    ∃ name spelling, .placeholder name spelling ∈ scan template.toList ∧
      String.ofList name = n := by
  rw [identifiers, mem_distinct, List.mem_filterMap]
  constructor
  · rintro ⟨p, hp, hname⟩
    cases p with
    | placeholder name spelling => exact ⟨name, spelling, hp, Option.some.inj hname⟩
    | _ => cases hname
  · rintro ⟨name, spelling, hp, rfl⟩
    exact ⟨_, hp, rfl⟩

theorem strict_clean_iff : (∀ p ∈ scan template.toList, ¬Offends v .strict p) ↔
    .stray ∉ scan template.toList ∧ ∀ n ∈ identifiers template, (v n).isSome = true := by
  constructor
  · intro h
    refine ⟨fun hstray => h _ hstray .stray, fun n hn => ?_⟩
    obtain ⟨name, spelling, hp, rfl⟩ := mem_identifiers.1 hn
    rw [Option.isSome_iff_ne_none]
    exact fun hnone => h _ hp (.name hnone)
  · rintro ⟨hstray, hnames⟩ p hp hoffends
    cases hoffends with
    | stray => exact hstray hp
    | name hnone =>
      have hsome := hnames _ (mem_identifiers.2 ⟨_, _, hp, rfl⟩)
      rw [hnone] at hsome
      cases hsome

theorem keepWildcards_clean_iff : (∀ p ∈ scan template.toList, ¬Offends v .keepWildcards p) ↔
    ∀ n ∈ identifiers template, n.toList.head? ≠ some '*' → (v n).isSome = true := by
  constructor
  · intro h n hn hstar
    obtain ⟨name, spelling, hp, rfl⟩ := mem_identifiers.1 hn
    rw [String.toList_ofList] at hstar
    rw [Option.isSome_iff_ne_none]
    exact fun hnone => h _ hp (.ordinary hnone hstar)
  · rintro hnames p hp ⟨⟩
    next name spelling hnone hstar =>
      have hsome := hnames _ (mem_identifiers.2 ⟨_, _, hp, rfl⟩) (by rwa [String.toList_ofList])
      rw [hnone] at hsome
      cases hsome

theorem not_offends_safe (v : Lookup) (p : Part) : ¬Offends v .safe p := nofun

theorem render_safe (template : String) (v : Lookup) :
    render template v .safe = .ok (filled template v) :=
  render_of_clean fun p _ => not_offends_safe v p

theorem substituteSafe_eq (template : String) (v : Lookup) :
    substituteSafe template v = filled template v := by
  rw [substituteSafe, render_safe]

/-- What does not pass where wildcards are kept does not pass the strict policy either. -/
theorem Offends.strict (h : Offends v .keepWildcards p) : Offends v .strict p := by
  cases h with
  | ordinary h => exact .name h

theorem renderParts_congr (offset : Nat)
    (h : ∀ name spelling, .placeholder name spelling ∈ ps →
      w (String.ofList name) = v (String.ofList name)) :
    renderParts template w policy offset ps = renderParts template v policy offset ps := by
  induction ps generalizing offset with
  | nil => rfl
  | cons p ps ih =>
    have hpart : renderPart template w policy offset p = renderPart template v policy offset p := by
      cases p with
      | placeholder name spelling =>
        rw [renderPart, renderPart, h name spelling List.mem_cons_self]
      | _ => rfl
    rw [renderParts, renderParts, hpart,
      ih _ fun name spelling hp => h name spelling (List.mem_cons_of_mem _ hp)]

/-- Only the values of the names in a template count. -/
theorem render_congr (h : ∀ n ∈ identifiers template, w n = v n) (policy : Policy) :
    render template w policy = render template v policy := by
  rw [render, render, renderParts_congr 0 fun name spelling hp =>
    h _ (mem_identifiers.2 ⟨name, spelling, hp, rfl⟩)]

/-- The three ways of substitution read a template alike and differ in what they let pass: all of
them fill its parts in, each value as it is, or fail at the leftmost part that does not pass. -/
theorem policies_of_one_scanner (template : String) (v : Lookup) :
    (∀ ps, Parses template.toList ps ↔ ps = scan template.toList) ∧
    (scan template.toList).flatMap Part.spelling = template.toList ∧
    ((∃ text, substitute template v = .ok text) ↔
      .stray ∉ scan template.toList ∧ ∀ n ∈ identifiers template, (v n).isSome = true) ∧
    ((∃ text, substituteKeepingWildcards template v = .ok text) ↔
      ∀ n ∈ identifiers template, n.toList.head? ≠ some '*' → (v n).isSome = true) ∧
    render template v .safe = .ok (substituteSafe template v) ∧
    (∀ text, substitute template v = .ok text →
      substituteKeepingWildcards template v = .ok text) ∧
    (∀ text, substituteKeepingWildcards template v = .ok text →
      substituteSafe template v = text) ∧
    (∀ e, substitute template v = .error e ↔ Faults template v .strict e) ∧
    (∀ e, substituteKeepingWildcards template v = .error e ↔
      Faults template v .keepWildcards e) ∧
    (∀ w : Lookup, (∀ n ∈ identifiers template, w n = v n) →
      substitute template w = substitute template v ∧
      substituteKeepingWildcards template w = substituteKeepingWildcards template v ∧
      substituteSafe template w = substituteSafe template v) ∧
    substituteSafe template v =
      String.ofList ((scan template.toList).flatMap (Part.filled v)) := by
  refine ⟨fun _ => parses_iff, (parses_scan _).spelled, ?_, ?_, ?_, ?_, ?_,
    fun _ => render_eq_error_iff, fun _ => render_eq_error_iff, ?_, substituteSafe_eq template v⟩
  · simp only [substitute, render_eq_ok_iff, exists_and_left, exists_eq, and_true,
      strict_clean_iff]
  · simp only [substituteKeepingWildcards, render_eq_ok_iff, exists_and_left, exists_eq, and_true,
      keepWildcards_clean_iff]
  · rw [substituteSafe_eq, render_safe]
  · intro text h
    obtain ⟨hclean, htext⟩ := render_eq_ok_iff.1 h
    exact render_eq_ok_iff.2 ⟨fun p hp hoffends => hclean p hp hoffends.strict, htext⟩
  · intro text h
    rw [substituteSafe_eq, (render_eq_ok_iff.1 h).2]
  · intro w h
    refine ⟨render_congr h .strict, render_congr h .keepWildcards, ?_⟩
    rw [substituteSafe, substituteSafe, render_congr h]

/-- A stray dollar behind a character of two bytes, and a value that looks like a placeholder. -/
theorem policies_of_one_scanner_stray :
    let template := "é$ $\x7bb\x7d"
    let v := Variables.lookup (Table.ofPairs [("b", "$b")])
    Faults template v .strict (.stray template 2) ∧
      substituteKeepingWildcards template v = .ok "é$ $b" ∧
      substituteSafe template v = "é$ $b" := by
  intro template v
  have hkeep : substituteKeepingWildcards template v = .ok "é$ $b" := by decide +kernel
  obtain ⟨-, -, -, -, -, -, hlax, hstrict, -⟩ := policies_of_one_scanner template v
  exact ⟨(hstrict _).1 (by decide +kernel), hkeep, hlax _ hkeep⟩

end Template
end DocGraph
