import Mathlib.Data.List.Forall2

/-!
# DocGraph.Proofs.Outcome

Outcomes that are a value or an error.

* `bind_eq_ok`, `map_eq_ok`, `mapError_eq_ok` — what must have gone well when the whole went well.
* `mapM_eq_ok`, `foldlM_cons_ok`, `forall₂_split_right` — the same for every element of a list.
* `mapM_again`, `foldlM_induct`, `foldlM_comm` — a list that is worked off in two ways, what its steps
  keep, and what they commute with.
* `bind_eq_error`, `mapError_eq_error`, `mapM_filter_eq_error`, `foldlM_eq_error` — where an error
  comes from.
-/

namespace DocGraph

variable {ε ε' α β : Type}

theorem error_bind (e : ε) (f : α → Except ε β) : (Except.error e >>= f) = .error e := rfl

theorem ok_bind (a : α) (f : α → Except ε β) : (Except.ok a >>= f) = f a := rfl

theorem bind_eq_ok {x : Except ε α} {f : α → Except ε β} {b : β} :
    x >>= f = .ok b ↔ ∃ a, x = .ok a ∧ f a = .ok b := by
  cases x with
  | error e => simp [bind, Except.bind]
  | ok a => simp [bind, Except.bind]

theorem bind_eq_error {x : Except ε α} {f : α → Except ε β} {e : ε} :
    x >>= f = .error e ↔ x = .error e ∨ ∃ a, x = .ok a ∧ f a = .error e := by
  cases x with
  | error e => simp [bind, Except.bind]
  | ok a => simp [bind, Except.bind]

theorem mapError_eq_error {x : Except ε α} {f : ε → ε'} {e : ε'} :
    x.mapError f = .error e ↔ ∃ e', x = .error e' ∧ f e' = e := by
  cases x with
  | error e => simp [Except.mapError]
  | ok a => simp [Except.mapError]

theorem map_eq_ok {x : Except ε α} {f : α → β} {b : β} :
    x.map f = .ok b ↔ ∃ a, x = .ok a ∧ f a = b := by
  cases x with
  | error e => simp [Except.map]
  | ok a => simp [Except.map]

theorem mapError_eq_ok {x : Except ε α} {f : ε → ε'} {a : α} :
    x.mapError f = .ok a ↔ x = .ok a := by
  cases x with
  | error e => simp [Except.mapError]
  | ok a => simp [Except.mapError]

/-- A list is worked off exactly if each of its elements is. -/
theorem mapM_eq_ok {f : α → Except ε β} {l : List α} {l' : List β} :
    l.mapM f = .ok l' ↔ List.Forall₂ (fun a b => f a = .ok b) l l' := by
  induction l generalizing l' with
  | nil =>
    rw [List.mapM_nil, List.forall₂_nil_left_iff]
    exact ⟨fun h => by cases h; rfl, fun h => by rw [h]; rfl⟩
  | cons a l ih =>
    rw [List.mapM_cons, bind_eq_ok]
    simp only [bind_eq_ok, ih]
    constructor
    · rintro ⟨b, hb, bs, hbs, h⟩
      cases h
      exact .cons hb hbs
    · intro h
      cases h with
      | cons hb hbs => exact ⟨_, hb, _, hbs, rfl⟩

theorem mapM_cons_eq_error {f : α → Except ε β} {a : α} {l : List α} {e : ε} :
    (a :: l).mapM f = .error e ↔ f a = .error e ∨ ∃ b, f a = .ok b ∧ l.mapM f = .error e := by
  rw [List.mapM_cons, bind_eq_error]
  refine or_congr_right (exists_congr fun b => and_congr_right fun _ => ?_)
  rw [bind_eq_error]
  refine ⟨?_, .inl⟩
  rintro (he | ⟨bs, -, hbs⟩)
  · exact he
  · cases hbs

/-- Elements that go well do not matter for how a list fails. -/
theorem mapM_filter_eq_error {f : α → Except ε β} {p : α → Bool} {l : List α} {e : ε}
    (h : ∀ a ∈ l, p a = false → ∃ b, f a = .ok b) :
    (l.filter p).mapM f = .error e ↔ l.mapM f = .error e := by
  induction l with
  | nil => rfl
  | cons a l ih =>
    have ih := ih fun a ha => h a (List.mem_cons_of_mem _ ha)
    cases hp : p a with
    | true =>
      rw [List.filter_cons_of_pos hp, mapM_cons_eq_error, mapM_cons_eq_error, ih]
    | false =>
      obtain ⟨b, hb⟩ := h a List.mem_cons_self hp
      rw [List.filter_cons_of_neg (by simp [hp]), mapM_cons_eq_error, ih, hb]
      simp

theorem forall₂_mem_right {R : α → β → Prop} {l : List α} {l' : List β} (h : List.Forall₂ R l l')
    {b : β} (hb : b ∈ l') : ∃ a ∈ l, R a b := by
  induction h with
  | nil => cases hb
  | cons hab _ ih =>
    rcases List.mem_cons.1 hb with rfl | hb
    · exact ⟨_, List.mem_cons_self, hab⟩
    · obtain ⟨a, ha, hr⟩ := ih hb
      exact ⟨a, List.mem_cons_of_mem _ ha, hr⟩

/-- What an element comes from stands behind others that came to something. -/
theorem forall₂_split_right {R : α → β → Prop} {l : List α} {l' : List β} (h : List.Forall₂ R l l')
    {b : β} (hb : b ∈ l') : ∃ before a after, l = before ++ a :: after ∧
      (∀ c ∈ before, ∃ d, R c d) ∧ R a b := by
  induction h with
  | nil => cases hb
  | @cons a b' l l' hab _ ih =>
    rcases List.mem_cons.1 hb with rfl | hb
    · exact ⟨[], a, l, rfl, nofun, hab⟩
    · obtain ⟨before, c, after, rfl, hbefore, hr⟩ := ih hb
      exact ⟨a :: before, c, after, rfl, List.forall_mem_cons.2 ⟨⟨b', hab⟩, hbefore⟩, hr⟩

/-- A list that is worked off in one way is so in another, if each of its elements is. -/
theorem mapM_again {f g : α → Except ε β} {R : β → β → Prop} {l : List α} {bs : List β}
    (h : ∀ a b, f a = .ok b → ∃ c, g a = .ok c ∧ R b c) (hl : l.mapM f = .ok bs) :
    ∃ cs, l.mapM g = .ok cs ∧ List.Forall₂ R bs cs := by
  simp only [mapM_eq_ok] at hl ⊢
  induction hl with
  | nil => exact ⟨[], .nil, .nil⟩
  | cons hb _ ih =>
    obtain ⟨c, hc, hr⟩ := h _ _ hb
    obtain ⟨cs, hcs, hrs⟩ := ih
    exact ⟨c :: cs, .cons hc hcs, .cons hr hrs⟩

theorem foldlM_cons_ok {f : β → α → Except ε β} {a : α} {l : List α} {b c : β} :
    (a :: l).foldlM f b = .ok c ↔ ∃ b', f b a = .ok b' ∧ l.foldlM f b' = .ok c := by
  rw [List.foldlM_cons, bind_eq_ok]

/-- What each step relates, the whole list does. -/
theorem foldlM_induct {f : β → α → Except ε β} {R : β → β → Prop} (hrefl : ∀ b, R b b)
    (htrans : ∀ {b c d}, R b c → R c d → R b d) (hstep : ∀ a b c, f b a = .ok c → R b c)
    {l : List α} {b c : β} (h : l.foldlM f b = .ok c) : R b c := by
  induction l generalizing b with
  | nil =>
    cases h
    exact hrefl _
  | cons a l ih =>
    obtain ⟨b', hb', hl⟩ := foldlM_cons_ok.1 h
    exact htrans (hstep a b b' hb') (ih hl)

/-- What holds of the errors of each step holds of how a list fails. -/
theorem foldlM_eq_error {f : β → α → Except ε β} {P : ε → Prop}
    (h : ∀ b a e, f b a = .error e → P e) {l : List α} {b : β} {e : ε}
    (hl : l.foldlM f b = .error e) : P e := by
  induction l generalizing b with
  | nil => cases hl
  | cons a l ih =>
    rw [List.foldlM_cons] at hl
    rcases bind_eq_error.1 hl with ha | ⟨b', -, hl⟩
    · exact h b a e ha
    · exact ih hl

/-- What each step commutes with, the whole list does. -/
theorem foldlM_comm {f : β → α → Except ε β} {u : β → β} (h : ∀ b a, f (u b) a = (f b a).map u)
    (l : List α) (b : β) : l.foldlM f (u b) = (l.foldlM f b).map u := by
  induction l generalizing b with
  | nil => rfl
  | cons a l ih =>
    rw [List.foldlM_cons, List.foldlM_cons, h]
    cases f b a with
    | error e => rfl
    | ok b' => exact ih b'

theorem foldlM_append_ok {f : β → α → Except ε β} {l l' : List α} {b c : β} :
    (l ++ l').foldlM f b = .ok c ↔ ∃ b', l.foldlM f b = .ok b' ∧ l'.foldlM f b' = .ok c := by
  rw [List.foldlM_append, bind_eq_ok]

end DocGraph
