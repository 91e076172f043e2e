import DocGraph.Config.Scope
import DocGraph.Ordered.Lemmas
import DocGraph.Proofs.Outcome
import Mathlib.Algebra.BigOperators.Group.List.Basic
import Mathlib.Data.List.GetD

/-!
# DocGraph.Proofs.Config.Loops

The rounds of loops.

* `LoopTable.Sound`  — keys are identifiers, and every row has a value for each key.
* `LoopTable.Fault`  — the error for a table that is not sound.
* `LoopTable.digits`, `LoopTable.place` — the row of every table that makes a round, and the place of
  that round among all. The last table varies fastest.
* `LoopTable.chosen` — the keys with their values in such rows, table after table.
* `Table.get?_ofPairs_iff`  — of equal keys in a list of pairs the last counts.
* `getElem?_foldl_product`  — the round at a place.
* `combinations_product`    — the rounds are the product of the tables in the order of their places,
  and there is none if a table is not sound.
-/

namespace DocGraph

/-- Of equal texts in a list of pairs the last counts. -/
theorem Table.get?_ofPairs_iff {β : Type} {l : List (String × β)} {k : String} {v : β} :
    (Table.ofPairs l).get? k = some v ↔
      ∃ before after, l = before ++ (k, v) :: after ∧ ∀ e ∈ after, e.1 ≠ k := by
  rw [Table.get?, Table.ofPairs, SortedBy.find?_putMany, SortedBy.find?_empty, Option.or_none,
    Option.map_eq_some_iff]
  constructor
  · rintro ⟨⟨k', v⟩, hfind, rfl⟩
    obtain ⟨hk, after, before, hl, hafter⟩ := List.find?_eq_some_iff_append.1 hfind
    obtain rfl : k' = k := Std.compare_eq_iff_eq.1 (beq_iff_eq.1 hk)
    refine ⟨before.reverse, after.reverse, ?_, fun e he heq => ?_⟩
    · rw [← List.reverse_reverse l, hl]
      simp
    · simpa [heq] using hafter e (List.mem_reverse.1 he)
  · rintro ⟨before, after, rfl, hafter⟩
    refine ⟨(k, v), List.find?_eq_some_iff_append.2 ⟨by simp, after.reverse, before.reverse, ?_, ?_⟩,
      rfl⟩
    · simp
    · intro e he
      simpa using hafter e (List.mem_reverse.1 he)

namespace LoopTable

/-- Keys are identifiers, and every row has a value for each of them. -/
structure Sound (t : LoopTable) : Prop where
  keys : ∀ k ∈ t.keys, Text.isIdentifier k = true
  rows : ∀ row ∈ t.rows, row.length = t.keys.length

/-- The error for a table that is not sound: its first key that is no identifier, or else its first
row of another length than the keys. -/
inductive Fault (t : LoopTable) : ConfigError → Prop where
  | key {before after : List String} {k : String} (hkeys : t.keys = before ++ k :: after)
      (hbefore : ∀ k ∈ before, Text.isIdentifier k = true) (hk : Text.isIdentifier k = false) :
      Fault t (.invalidName "loop variable" k)
  | row {before after : List (List String)} {row : List String}
      (hkeys : ∀ k ∈ t.keys, Text.isIdentifier k = true) (hrows : t.rows = before ++ row :: after)
      (hbefore : ∀ r ∈ before, r.length = t.keys.length) (hrow : row.length ≠ t.keys.length) :
      Fault t (.loopRow row t.keys)

/-- The error is about the first table that is not sound. -/
def FirstFault (tables : List LoopTable) (e : ConfigError) : Prop :=
  ∃ before t after, tables = before ++ t :: after ∧ (∀ b ∈ before, b.Sound) ∧ t.Fault e

/-- The numbers of rows of tables. -/
def sizes (tables : List LoopTable) : List Nat := tables.map fun t => t.rows.length

theorem sizes_cons (t : LoopTable) (ts : List LoopTable) :
    sizes (t :: ts) = t.rows.length :: sizes ts := rfl

/-- The digits of a number, where each has a base of its own. The last one counts units. -/
def digits : List Nat → Nat → List Nat
  | [], _ => []
  | _ :: bases, i => i / bases.prod :: digits bases (i % bases.prod)

/-- The number with given digits. -/
def place : List Nat → List Nat → Nat
  | _ :: bases, d :: ds => d * bases.prod + place bases ds
  | _, _ => 0

/-- The keys with their values in the rows at the given places, table after table. -/
def chosen : List LoopTable → List Nat → List (String × String)
  | t :: ts, d :: ds => t.keys.zip (t.rows.getD d []) ++ chosen ts ds
  | _, _ => []

/-! ## Faults -/

theorem check_cases (t : LoopTable) :
    t.check = .ok () ∧ t.Sound ∨ ∃ e, t.check = .error e ∧ t.Fault e := by
  rw [check]
  cases hkey : t.keys.find? fun k => !Text.isIdentifier k with
  | some key =>
    obtain ⟨hk, before, after, hkeys, hbefore⟩ := List.find?_eq_some_iff_append.1 hkey
    refine .inr ⟨_, rfl, .key hkeys (fun k hk => ?_) (by simpa using hk)⟩
    simpa using hbefore k hk
  | none =>
    have hkeys : ∀ k ∈ t.keys, Text.isIdentifier k = true := by simpa using hkey
    cases hrow : t.rows.find? fun row => row.length != t.keys.length with
    | some row =>
      obtain ⟨hlength, before, after, hrows, hbefore⟩ := List.find?_eq_some_iff_append.1 hrow
      refine .inr ⟨_, rfl, .row hkeys hrows (fun r hr => ?_) (bne_iff_ne.1 hlength)⟩
      simpa using hbefore r hr
    | none => exact .inl ⟨rfl, hkeys, by simpa using hrow⟩

theorem Fault.not_sound {t : LoopTable} {e : ConfigError} (h : t.Fault e) : ¬t.Sound := by
  intro hsound
  cases h with
  | key hkeys _ hk =>
    have hkey := hsound.keys _ (hkeys ▸ List.mem_append_right _ List.mem_cons_self)
    rw [hk] at hkey
    cases hkey
  | row _ hrows _ hrow =>
    exact hrow (hsound.rows _ (hrows ▸ List.mem_append_right _ List.mem_cons_self))

theorem check_of_sound {t : LoopTable} (h : t.Sound) : t.check = .ok () := by
  obtain ⟨hcheck, -⟩ | ⟨e, -, hfault⟩ := t.check_cases
  · exact hcheck
  · exact absurd h hfault.not_sound

/-! ## Rounds -/

/-- Every round in front of every row of a table. -/
def product (rounds : List Variables) (t : LoopTable) : List Variables :=
  rounds.flatMap fun vars => t.rows.map (t.assign vars)

theorem extend_of_sound {t : LoopTable} (h : t.Sound) (rounds : List Variables) :
    extend rounds t = .ok (product rounds t) := by
  rw [extend, check_of_sound h]
  rfl

theorem foldlM_extend_of_sound {tables : List LoopTable} (h : ∀ t ∈ tables, t.Sound)
    (rounds : List Variables) :
    tables.foldlM extend rounds = .ok (tables.foldl product rounds) := by
  induction tables generalizing rounds with
  | nil => rfl
  | cons t ts ih =>
    rw [List.forall_mem_cons] at h
    rw [List.foldlM_cons, extend_of_sound h.1, ok_bind, ih h.2]
    rfl

/-- A table that is not sound is come to, even if there is no round left. -/
theorem foldlM_extend_of_not_sound {tables : List LoopTable} (h : ∃ t ∈ tables, ¬t.Sound)
    (rounds : List Variables) :
    ∃ e, tables.foldlM extend rounds = .error e ∧ FirstFault tables e := by
  induction tables generalizing rounds with
  | nil => simp at h
  | cons t ts ih =>
    rw [List.foldlM_cons]
    obtain ⟨-, hsound⟩ | ⟨e, hcheck, hfault⟩ := t.check_cases
    · rw [List.exists_mem_cons_iff, or_iff_right (not_not_intro hsound)] at h
      rw [extend_of_sound hsound, ok_bind]
      obtain ⟨e, he, before, u, after, rfl, hbefore, hfault⟩ := ih h (product rounds t)
      exact ⟨e, he, t :: before, u, after, rfl, List.forall_mem_cons.2 ⟨hsound, hbefore⟩, hfault⟩
    · refine ⟨e, ?_, [], t, ts, rfl, nofun, hfault⟩
      rw [extend, hcheck]
      rfl

theorem length_product (rounds : List Variables) (t : LoopTable) :
    (product rounds t).length = rounds.length * t.rows.length := by
  simp [product, List.length_flatMap]

theorem length_foldl_product (tables : List LoopTable) (rounds : List Variables) :
    (tables.foldl product rounds).length = rounds.length * (sizes tables).prod := by
  induction tables generalizing rounds with
  | nil => simp [sizes]
  | cons t ts ih =>
    rw [List.foldl_cons, ih, length_product, sizes_cons, List.prod_cons, Nat.mul_assoc]

theorem getElem?_product {t : LoopTable} {j : Nat} (hj : j < t.rows.length)
    (rounds : List Variables) (k : Nat) :
    (product rounds t)[k * t.rows.length + j]? =
      rounds[k]?.map fun vars => t.assign vars (t.rows.getD j []) := by
  induction rounds generalizing k with
  | nil => simp [product]
  | cons vars rounds ih =>
    have hcons : product (vars :: rounds) t = t.rows.map (t.assign vars) ++ product rounds t :=
      List.flatMap_cons
    rw [hcons]
    cases k with
    | zero =>
      rw [Nat.zero_mul, Nat.zero_add, List.getElem?_append_left (by simpa using hj)]
      simp [hj]
    | succ k =>
      rw [List.getElem?_append_right (by rw [List.length_map, Nat.succ_mul]; omega),
        List.length_map, List.getElem?_cons_succ, ← ih]
      congr 1
      rw [Nat.succ_mul]
      omega

/-- The rounds that go back to the one at place `k` of those at the start have the values of the rows
that their digits choose. -/
theorem getElem?_foldl_product {tables : List LoopTable} {i : Nat} (hi : i < (sizes tables).prod)
    (rounds : List Variables) (k : Nat) :
    (tables.foldl product rounds)[k * (sizes tables).prod + i]? =
      rounds[k]?.map fun vars => vars.putMany (chosen tables (digits (sizes tables) i)) := by
  induction tables generalizing rounds k i with
  | nil =>
    obtain rfl : i = 0 := by simpa [sizes] using hi
    simp [sizes, chosen, SortedBy.putMany]
  | cons t ts ih =>
    rw [sizes_cons, List.prod_cons] at hi
    have hpos : 0 < (sizes ts).prod := Nat.pos_of_lt_mul_left hi
    have hrow : i / (sizes ts).prod < t.rows.length := (Nat.div_lt_iff_lt_mul hpos).2 hi
    have hindex : k * (t.rows.length * (sizes ts).prod) + i =
        (k * t.rows.length + i / (sizes ts).prod) * (sizes ts).prod + i % (sizes ts).prod := by
      rw [Nat.add_mul, Nat.mul_assoc, Nat.add_assoc, Nat.div_add_mod']
    rw [sizes_cons, List.prod_cons, hindex, List.foldl_cons, ih (Nat.mod_lt i hpos),
      getElem?_product hrow, Option.map_map, digits, chosen]
    refine congrArg (Option.map · rounds[k]?) (funext fun vars => ?_)
    exact List.foldl_append.symm

/-! ## Digits -/

theorem digits_lt {bases : List Nat} {i : Nat} (hi : i < bases.prod) :
    List.Forall₂ (· < ·) (digits bases i) bases := by
  induction bases generalizing i with
  | nil => exact .nil
  | cons b bases ih =>
    rw [List.prod_cons] at hi
    have hpos : 0 < bases.prod := Nat.pos_of_lt_mul_left hi
    exact .cons ((Nat.div_lt_iff_lt_mul hpos).2 hi) (ih (Nat.mod_lt i hpos))

theorem place_digits {bases : List Nat} {i : Nat} (hi : i < bases.prod) :
    place bases (digits bases i) = i := by
  induction bases generalizing i with
  | nil => simpa [digits, place, eq_comm] using hi
  | cons b bases ih =>
    rw [List.prod_cons] at hi
    rw [digits, place, ih (Nat.mod_lt i (Nat.pos_of_lt_mul_left hi)), Nat.div_add_mod']

/-- In rows that are there every key has a value. -/
theorem mem_chosen_keys {tables : List LoopTable} (h : ∀ t ∈ tables, t.Sound) {ds : List Nat}
    (hds : List.Forall₂ (· < ·) ds (sizes tables)) {name : String} :
    (∃ v, (name, v) ∈ chosen tables ds) ↔ ∃ t ∈ tables, name ∈ t.keys := by
  induction tables generalizing ds with
  | nil =>
    cases hds
    simp [chosen]
  | cons t ts ih =>
    rw [List.forall_mem_cons] at h
    rw [sizes_cons] at hds
    cases hds with
    | @cons d _ ds _ hd hds =>
      have hlength : (t.rows.getD d []).length = t.keys.length := by
        rw [List.getD_eq_getElem _ _ hd]
        exact h.1.rows _ (List.getElem_mem hd)
      have hzip : (∃ v, (name, v) ∈ t.keys.zip (t.rows.getD d [])) ↔ name ∈ t.keys := by
        have hkeys := List.map_fst_zip (Nat.le_of_eq hlength.symm)
        conv_rhs => rw [← hkeys]
        simp
      simp only [chosen, List.mem_append, exists_or, hzip, ih h.2 hds, List.exists_mem_cons_iff]

/-- The rounds of loops are the product of all tables, where the first table varies slowest: the
round at a place takes the values of the rows that the digits of the place choose, and of a key that
occurs more than once the last value. If a table is not sound there is an error for the first such
table, and no round. -/
theorem combinations_product (tables : List LoopTable) :
    ((∀ t ∈ tables, t.Sound) → ∃ rounds, combinations tables = .ok rounds ∧
      rounds.length = (sizes tables).prod ∧
      ∀ i < rounds.length, ∃ round, rounds[i]? = some round ∧
        List.Forall₂ (· < ·) (digits (sizes tables) i) (sizes tables) ∧
        place (sizes tables) (digits (sizes tables) i) = i ∧
        (∀ name, (round.get? name).isSome ↔ ∃ t ∈ tables, name ∈ t.keys) ∧
        ∀ name v, round.get? name = some v ↔
          ∃ before after, chosen tables (digits (sizes tables) i) = before ++ (name, v) :: after ∧
            ∀ e ∈ after, e.1 ≠ name) ∧
    ((∃ t ∈ tables, ¬t.Sound) →
      ∃ e, combinations tables = .error e ∧ FirstFault tables e) := by
  refine ⟨fun h => ?_, fun h => foldlM_extend_of_not_sound h _⟩
  have hlength : (tables.foldl product [∅]).length = (sizes tables).prod := by
    rw [length_foldl_product, List.length_singleton, Nat.one_mul]
  refine ⟨_, foldlM_extend_of_sound h _, hlength, fun i hi => ?_⟩
  rw [hlength] at hi
  have hround := getElem?_foldl_product hi [∅] 0
  rw [Nat.zero_mul, Nat.zero_add] at hround
  refine ⟨_, hround, digits_lt hi, place_digits hi, fun name => ?_, fun name v =>
    Table.get?_ofPairs_iff⟩
  rw [← Table.mem_keys_iff, ← mem_chosen_keys h (digits_lt hi)]
  exact Table.mem_keys_ofPairs.trans (by simp)

/-- Two tables that share a key, one of which has it twice. -/
def sharing : List LoopTable :=
  [⟨["a", "b"], [["1", "2"], ["3", "4"]]⟩, ⟨["b", "b", "c"], [["5", "6", "7"], ["8", "9", "0"]]⟩]

/-- The round at place 2 has the second row of the first table and the first one of the other. -/
theorem combinations_product_sharing :
    (∀ t ∈ sharing, t.Sound) ∧ ∃ rounds round, combinations sharing = .ok rounds ∧
      rounds.length = 4 ∧ rounds[2]? = some round ∧ round.get? "b" = some "6" := by
  have hsound : ∀ t ∈ sharing, t.Sound := by
    rintro t ht
    simp only [sharing, List.mem_cons, List.not_mem_nil, or_false] at ht
    rcases ht with rfl | rfl
    · exact ⟨by decide +kernel, by decide⟩
    · exact ⟨by decide +kernel, by decide⟩
  obtain ⟨rounds, hrounds, hlength, hround⟩ := (combinations_product sharing).1 hsound
  have hfour : rounds.length = 4 := hlength
  obtain ⟨round, hat, -, -, -, hvalue⟩ := hround 2 (by omega)
  exact ⟨hsound, rounds, round, hrounds, hfour, hat, (hvalue "b" "6").2
    ⟨[("a", "3"), ("b", "4"), ("b", "5")], [("c", "7")], rfl, by decide⟩⟩

end LoopTable
end DocGraph
