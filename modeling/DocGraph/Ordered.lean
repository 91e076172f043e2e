/-!
# DocGraph.Ordered

Finite collections in the order of a key.

* `SortedBy key` — a list whose elements increase strictly in `key`, so no key occurs twice.
* `insert`       — adds an element unless its key is there already: the first one stays.
* `put`          — adds an element in place of the one with its key: the last one stays.
* `Table β`      — texts mapped to values of `β`, in the order of the texts.
* `TextSet`      — a set of texts.

Texts are ordered by code point, which is also the order of their UTF-8 bytes. Since the order
fixes the list, two collections with the same elements are equal.
-/

namespace DocGraph

/-- A list that increases strictly in `key`. -/
structure SortedBy {α κ : Type} [Ord κ] (key : α → κ) where
  toList : List α
  increasing : toList.Pairwise fun a b => compare (key a) (key b) = .lt

namespace SortedBy

variable {α κ : Type} [Ord κ] {key : α → κ}

@[ext] theorem ext {s t : SortedBy key} (h : s.toList = t.toList) : s = t := by
  cases s; cases t; cases h; rfl

instance [DecidableEq α] : DecidableEq (SortedBy key) := fun s t =>
  decidable_of_iff (s.toList = t.toList) ⟨ext, fun h => h ▸ rfl⟩

def empty : SortedBy key := ⟨[], .nil⟩

instance : EmptyCollection (SortedBy key) := ⟨empty⟩

instance : Inhabited (SortedBy key) := ⟨empty⟩

instance : Membership α (SortedBy key) := ⟨fun s a => a ∈ s.toList⟩

@[simp] theorem toList_empty : (∅ : SortedBy key).toList = [] := rfl

theorem mem_def {s : SortedBy key} {a : α} : a ∈ s ↔ a ∈ s.toList := Iff.rfl

def find? (s : SortedBy key) (k : κ) : Option α :=
  s.toList.find? fun a => compare (key a) k == .eq

def contains (s : SortedBy key) (k : κ) : Bool :=
  s.toList.any fun a => compare (key a) k == .eq

def isEmpty (s : SortedBy key) : Bool := s.toList.isEmpty

def size (s : SortedBy key) : Nat := s.toList.length

/-- Place `a` among increasing elements; `choose` decides between two of equal keys. -/
def place (key : α → κ) (choose : α → α → α) (a : α) : List α → List α
  | [] => [a]
  | b :: l =>
    match compare (key a) (key b) with
    | .lt => a :: b :: l
    | .eq => choose b a :: l
    | .gt => b :: place key choose a l

theorem key_of_mem_place [Std.LawfulEqOrd κ] {choose : α → α → α}
    (hc : ∀ b a, key b = key a → key (choose b a) = key a) {a c : α} {l : List α}
    (h : c ∈ place key choose a l) : key c = key a ∨ c ∈ l := by
  induction l with
  | nil => simp [place] at h; exact .inl (by rw [h])
  | cons b l ih =>
    unfold place at h
    split at h
    · rcases List.mem_cons.1 h with h | h
      · exact .inl (by rw [h])
      · exact .inr h
    · next he =>
      have hk : key a = key b := Std.compare_eq_iff_eq.1 he
      rcases List.mem_cons.1 h with h | h
      · exact .inl (by rw [h]; exact hc b a hk.symm)
      · exact .inr (List.mem_cons_of_mem _ h)
    · rcases List.mem_cons.1 h with h | h
      · exact .inr (by simp [h])
      · exact (ih h).imp id (List.mem_cons_of_mem _)

theorem increasing_place [Std.TransOrd κ] [Std.LawfulEqOrd κ] {choose : α → α → α}
    (hc : ∀ b a, key b = key a → key (choose b a) = key a) (a : α) {l : List α}
    (h : l.Pairwise fun a b => compare (key a) (key b) = .lt) :
    (place key choose a l).Pairwise fun a b => compare (key a) (key b) = .lt := by
  induction l with
  | nil => simp [place]
  | cons b l ih =>
    obtain ⟨hb, hl⟩ := List.pairwise_cons.1 h
    unfold place
    split
    · next hab =>
      refine List.pairwise_cons.2 ⟨fun c hm => ?_, h⟩
      rcases List.mem_cons.1 hm with rfl | hm
      · exact hab
      · exact Std.TransCmp.lt_trans hab (hb c hm)
    · next he =>
      have hk : key a = key b := Std.compare_eq_iff_eq.1 he
      refine List.pairwise_cons.2 ⟨fun c hm => ?_, hl⟩
      rw [hc b a hk.symm, hk]
      exact hb c hm
    · next hab =>
      refine List.pairwise_cons.2 ⟨fun c hm => ?_, ih hl⟩
      rcases key_of_mem_place hc hm with hk | hm
      · rw [hk]; exact Std.OrientedCmp.gt_iff_lt.1 hab
      · exact hb c hm

variable [Std.TransOrd κ] [Std.LawfulEqOrd κ]

/-- Add an element; one that is there with the same key stays instead. -/
def insert (s : SortedBy key) (a : α) : SortedBy key where
  toList := place key (fun b _ => b) a s.toList
  increasing := increasing_place (fun _ _ h => h) a s.increasing

/-- Add an element in place of one with the same key. -/
def put (s : SortedBy key) (a : α) : SortedBy key where
  toList := place key (fun _ a => a) a s.toList
  increasing := increasing_place (fun _ _ _ => rfl) a s.increasing

/-- Add elements from the left; of equal keys the first stays. -/
def insertMany (s : SortedBy key) (l : List α) : SortedBy key := l.foldl insert s

/-- Add elements from the left; of equal keys the last stays. -/
def putMany (s : SortedBy key) (l : List α) : SortedBy key := l.foldl put s

/-- The elements of a list, the first of each key. -/
def ofList (l : List α) : SortedBy key := (∅ : SortedBy key).insertMany l

/-- All elements of `s`, and those of `t` whose keys are new. -/
def union (s t : SortedBy key) : SortedBy key := s.insertMany t.toList

def filter (p : α → Bool) (s : SortedBy key) : SortedBy key where
  toList := s.toList.filter p
  increasing := s.increasing.filter _

/-- The elements of `s` whose keys `t` lacks. -/
def diff (s t : SortedBy key) : SortedBy key := s.filter fun a => !t.contains (key a)

end SortedBy

/-- Texts mapped to values. -/
abbrev Table (β : Type) := SortedBy (Prod.fst : String × β → String)

namespace Table

variable {β : Type}

def get? (t : Table β) (k : String) : Option β := (t.find? k).map Prod.snd

/-- Map `k` to `v`, whatever it was mapped to before. -/
def set (t : Table β) (k : String) (v : β) : Table β := t.put (k, v)

/-- The table of a list of pairs; of equal texts the last counts. -/
def ofPairs (l : List (String × β)) : Table β := (∅ : Table β).putMany l

def keys (t : Table β) : List String := t.toList.map Prod.fst

def mapValues {γ : Type} (f : String → β → γ) (t : Table β) : Table γ where
  toList := t.toList.map fun e => (e.1, f e.1 e.2)
  increasing := by simpa [List.pairwise_map] using t.increasing

end Table

abbrev TextSet := SortedBy (id : String → String)

end DocGraph
