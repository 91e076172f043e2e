import DocGraph.Proofs.Pattern.Scan

/-!
# DocGraph.Proofs.Pattern.Composition

Patterns to which several bindings are put, one after the other.

* `Binding.merged`   — several bindings as one, where the first value of a name counts.
* `joined_of_compile`, `joined_foldl_bind` — a compiled pattern has no empty and no neighbouring
  literals, and binding brings in none.
* `bind_eq_self_iff` — so only values of its names change a pattern.
* `foldl_bind`       — binding several times is binding once.
* `bind_composes`    — all that bindings of a compiled pattern come to.
-/

namespace DocGraph

/-- Several bindings as one. The first value of a name counts. -/
def Binding.merged (bs : List Binding) : Binding :=
  bs.foldr (fun b later => later.putMany b.toList) ∅

namespace Pattern

variable {p : Pattern} {b : Binding}

theorem joined_of_compile {source : String} (h : compile source = .ok p) : Joined p.tokens :=
  Token.joined_of_scan (tokens_of_compile h)

theorem joined_bind (p : Pattern) (b : Binding) : Joined (p.bind b).tokens := by
  rw [tokens_bind]
  exact joined_joinLiterals _

theorem joined_foldl_bind (h : Joined p.tokens) (bs : List Binding) :
    Joined (bs.foldl bind p).tokens := by
  induction bs generalizing p with
  | nil => exact h
  | cons b bs ih => exact ih (joined_bind p b)

theorem bind_empty (h : Joined p.tokens) : p.bind ∅ = p := by
  apply ext_tokens
  rw [tokens_bind, map_bindToken_empty, joinLiterals_eq_self h]

/-- A binding without values for the names of a pattern leaves it as it is. No other one does. -/
theorem bind_eq_self_iff (h : Joined p.tokens) :
    p.bind b = p ↔ ∀ name ∈ p.names, b.get? name = none := by
  constructor
  · intro hself name hname
    rw [← hself, names_bind] at hname
    exact Option.isNone_iff_eq_none.1 (List.mem_filter.1 hname).2
  · intro hnone
    have hempty : p.bind b = p.bind ∅ := bind_congr fun name hname => hnone name hname
    rw [hempty, bind_empty h]

/-- Binding several times is binding once. -/
theorem foldl_bind (h : Joined p.tokens) (bs : List Binding) :
    bs.foldl bind p = p.bind (Binding.merged bs) := by
  induction bs generalizing p with
  | nil => exact (bind_empty h).symm
  | cons b bs ih =>
    rw [List.foldl_cons, ih (joined_bind p b), bind_bind]
    rfl

/-- However often a compiled pattern was bound, that comes to one binding. Two more bindings give
the same tokens, and so the same source and names, as one in which the values of the first replace
those of the second. Only values of its names change the pattern. It has no empty and no
neighbouring literals. -/
theorem bind_composes {source : String} {q : Pattern} (hq : compile source = .ok q)
    (bs : List Binding) :
    let p := bs.foldl bind q
    p = q.bind (Binding.merged bs) ∧
    (∀ s t : Binding, (p.bind s).bind t = p.bind (t.putMany s.toList)) ∧
    (∀ s : Binding, p.bind s = p ↔ ∀ name ∈ p.names, s.get? name = none) ∧
    Joined p.tokens := by
  have hjoined := joined_foldl_bind (joined_of_compile hq) bs
  exact ⟨foldl_bind (joined_of_compile hq) bs, bind_bind _, fun _ => bind_eq_self_iff hjoined,
    hjoined⟩

/-- An empty value joins the literals around it, and of two values the first counts. -/
theorem bind_composes_emptied :
    let q : Pattern := ⟨[.named "a", .literal "-", .named "b", .literal "/", .named "a"], by decide⟩
    let p : Pattern := ⟨[.named "a", .literal "-/", .named "a"], by decide⟩
    compile "$\x7b*a\x7d-$\x7b*b\x7d/$\x7b*a\x7d" = .ok q ∧
    [Table.ofPairs [("b", "")]].foldl bind q = p ∧
    (p.bind (Table.ofPairs [("a", "x")])).bind (Table.ofPairs [("a", "y")]) =
      p.bind (Table.ofPairs [("a", "x")]) ∧
    p.bind (Table.ofPairs [("b", "z")]) = p ∧ Joined p.tokens := by
  intro q p
  have hcompile : compile "$\x7b*a\x7d-$\x7b*b\x7d/$\x7b*a\x7d" = .ok q := by decide +kernel
  have hp : [Table.ofPairs [("b", "")]].foldl bind q = p := by decide +kernel
  have hfirst : Table.ofPairs [("a", "x")] =
      (Table.ofPairs [("a", "y")]).putMany (Table.ofPairs [("a", "x")]).toList := by
    decide +kernel
  obtain ⟨-, htwice, hself, hjoined⟩ := bind_composes hcompile [Table.ofPairs [("b", "")]]
  rw [hp] at htwice hself hjoined
  refine ⟨hcompile, hp, ?_, (hself _).2 (by decide +kernel), hjoined⟩
  rw [htwice, ← hfirst]

end Pattern
end DocGraph
