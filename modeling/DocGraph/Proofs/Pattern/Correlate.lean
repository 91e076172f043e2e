import DocGraph.Pattern.Correlate
import DocGraph.Proofs.Pattern.Filter

/-!
# DocGraph.Proofs.Pattern.Correlate

Correlation against its flat description.

* `agrees`       — whether a pattern gives a path the values of a binding, once those for the names of
  the patterns before it are in place.
* `Admits`       — a binding of all names, and for each pattern the paths that agree with it, of which
  there is at least one.
* `admits_cons`  — the description of several patterns falls apart like the recursion does.
* `mem_correlations`, `correlations_increasing` — the recursion finds exactly these, in order.
* `correlations_congr` — candidates that their pattern does not match make no difference.
* `correlate_exact` — what correlation gives.
-/

namespace DocGraph

namespace Pattern

/-- The names of patterns, in order of first appearance. -/
def allNames (ps : List Pattern) : List String := firsts [] (ps.flatMap names)

/-- The names of a pattern that those before it lack. -/
def fresh (before : List Pattern) (p : Pattern) : List String :=
  p.names.filter fun n => decide (n ∉ allNames before)

/-- Whether the pattern, with the values for the names before it in place, gives a path the values
for the other names. -/
def agrees (before : List Pattern) (p : Pattern) (b : Binding) (path : String) : Bool :=
  decide ((p.bind (b.restrict (allNames before))).captures path = some (b.values (fresh before p)))

theorem mem_allNames {ps : List Pattern} {n : String} :
    n ∈ allNames ps ↔ ∃ p ∈ ps, n ∈ p.names := by
  rw [allNames, mem_firsts, List.mem_flatMap]
  exact and_iff_left List.not_mem_nil

theorem mem_names_bind {p : Pattern} {b : Binding} {names : List String} (hb : b.Covers names)
    {n : String} : n ∈ (p.bind b).names ↔ n ∈ p.names ∧ n ∉ names := by
  rw [names_bind, List.mem_filter, ← hb n]
  simp

theorem mem_allNames_bind {ps : List Pattern} {b : Binding} {names : List String}
    (hb : b.Covers names) {n : String} :
    n ∈ allNames (ps.map (·.bind b)) ↔ n ∈ allNames ps ∧ n ∉ names := by
  rw [mem_allNames, mem_allNames]
  constructor
  · rintro ⟨_, hq, hn⟩
    obtain ⟨p, hp, rfl⟩ := List.mem_map.1 hq
    obtain ⟨hn, hne⟩ := (mem_names_bind hb).1 hn
    exact ⟨⟨p, hp, hn⟩, hne⟩
  · rintro ⟨⟨p, hp, hn⟩, hne⟩
    exact ⟨_, List.mem_map_of_mem hp, (mem_names_bind hb).2 ⟨hn, hne⟩⟩

theorem mem_allNames_cons {p : Pattern} {ps : List Pattern} {n : String} :
    n ∈ allNames (p :: ps) ↔ n ∈ p.names ∨ n ∈ allNames ps := by
  simp [mem_allNames]

/-- The names of the first pattern come first, then those that are left in the others. -/
theorem allNames_cons {p : Pattern} {b : Binding} (hb : b.Covers p.names) (ps : List Pattern) :
    allNames (p :: ps) = p.names ++ allNames (ps.map (·.bind b)) := by
  have hflat : (ps.map (·.bind b)).flatMap names =
      (ps.flatMap names).filter fun n => (b.get? n).isNone := by
    induction ps with
    | nil => rfl
    | cons q ps ih =>
      rw [List.map_cons, List.flatMap_cons, List.flatMap_cons, List.filter_append, ih, names_bind]
  have hfirst : firsts [] p.names = p.names :=
    firsts_eq_self p.nodup_names fun _ _ => List.not_mem_nil
  have hnone : ∀ n, (b.get? n).isNone = true ↔ n ∉ p.names := by
    intro n
    rw [← hb n]
    simp
  have hrest : firsts [] ((ps.flatMap names).filter fun n => (b.get? n).isNone) =
      (firsts p.names (ps.flatMap names)).filter fun n => (b.get? n).isNone := by
    refine firsts_filter ?_ _
    intro n hn
    exact iff_of_false List.not_mem_nil ((hnone n).1 hn)
  have hall : (firsts p.names (ps.flatMap names)).filter (fun n => (b.get? n).isNone) =
      firsts p.names (ps.flatMap names) := by
    rw [List.filter_eq_self]
    intro n hn
    exact (hnone n).2 (mem_firsts.1 hn).2
  rw [allNames, allNames, List.flatMap_cons, firsts_append, hfirst, List.append_nil, hflat, hrest,
    hall]

/-! ## One pattern and the others -/

theorem fresh_nil (p : Pattern) : fresh [] p = p.names := by
  rw [fresh, List.filter_eq_self]
  intro n _
  simp [allNames, firsts]

theorem agrees_nil (p : Pattern) (b : Binding) (path : String) :
    agrees [] p b path = decide (p.captures path = some (b.values p.names)) := by
  have hempty : b.restrict (allNames []) = ∅ := by
    refine Table.ext_get? ?_
    intro n
    rw [Binding.get?_restrict, if_neg (by simp [allNames, firsts])]
    rfl
  rw [agrees, fresh_nil, hempty, captures_bind_empty]

/-- What agrees behind a first pattern agrees once the values for that pattern are in place. -/
theorem agrees_cons {q : Pattern} {b : Binding} (hq : ∀ n ∈ q.names, (b.get? n).isSome = true)
    (before : List Pattern) (p : Pattern) (path : String) :
    agrees (before.map (·.bind (b.restrict q.names))) (p.bind (b.restrict q.names))
      (b.without q.names) path = agrees (q :: before) p b path := by
  have hcov := Binding.covers_restrict hq
  have hbind : (p.bind (b.restrict q.names)).bind ((b.without q.names).restrict
      (allNames (before.map (·.bind (b.restrict q.names))))) =
        p.bind (b.restrict (allNames (q :: before))) := by
    rw [bind_bind]
    refine bind_congr ?_
    intro n _
    rw [Table.get?_putMany, Binding.get?_restrict, Binding.get?_restrict, Binding.get?_restrict,
      Binding.get?_without]
    by_cases hn : n ∈ q.names
    · obtain ⟨v, hv⟩ := Option.isSome_iff_exists.1 (hq n hn)
      simp [hn, mem_allNames_cons, hv]
    · simp [hn, mem_allNames_cons, mem_allNames_bind hcov]
  have hfresh : fresh (before.map (·.bind (b.restrict q.names))) (p.bind (b.restrict q.names)) =
      fresh (q :: before) p := by
    rw [fresh, fresh, names_bind, List.filter_filter]
    refine List.filter_congr ?_
    intro n _
    have hnone : ((b.restrict q.names).get? n).isNone = decide (n ∉ q.names) := by
      rw [Bool.eq_iff_iff, decide_eq_true_eq, ← hcov n]
      simp
    rw [hnone, ← Bool.decide_and, decide_eq_decide, mem_allNames_bind hcov, mem_allNames_cons]
    tauto
  have hvalues : (b.without q.names).values (fresh (q :: before) p) =
      b.values (fresh (q :: before) p) := by
    refine Binding.values_congr ?_
    intro n hn
    have hne := (List.mem_filter.1 hn).2
    rw [decide_eq_true_eq, mem_allNames_cons, not_or] at hne
    rw [Binding.get?_without, if_neg hne.1]
  rw [agrees, agrees, hbind, hfresh, hvalues]

end Pattern

open Pattern

theorem length_map_bind {p : Pattern} {ps : List Pattern} {s : TextSet} {cs : List TextSet}
    (hl : (p :: ps).length = (s :: cs).length) (b : Binding) :
    (ps.map (·.bind b)).length = cs.length := by
  rw [List.length_map]
  exact Nat.succ.inj hl

theorem getElem?_map_bind {ps : List Pattern} {b : Binding} {i : Nat} {q : Pattern} :
    (ps.map (·.bind b))[i]? = some q ↔ ∃ p, ps[i]? = some p ∧ p.bind b = q := by
  rw [List.getElem?_map, Option.map_eq_some_iff]

/-! ## The flat description -/

/-- A binding of all names of patterns, and for each of them the candidates that agree with it, of
which there is at least one. -/
structure Admits (ps : List Pattern) (cs : List TextSet) (b : Binding)
    (groups : List (List String)) : Prop where
  covers : b.Covers (allNames ps)
  length_eq : groups.length = ps.length
  group_eq : ∀ (i : Nat) (p : Pattern) (s : TextSet), ps[i]? = some p → cs[i]? = some s →
    groups[i]? = some (s.filter (agrees (ps.take i) p b)).toList
  inhabited : ∀ (i : Nat) (p : Pattern) (s : TextSet), ps[i]? = some p → cs[i]? = some s →
    ∃ path ∈ s, agrees (ps.take i) p b path = true

/-- The description of several patterns falls apart like the recursion does. -/
theorem admits_cons {p : Pattern} {ps : List Pattern} {s : TextSet} {cs : List TextSet}
    {b : Binding} {g : List String} {gs : List (List String)}
    (hp : ∀ n ∈ p.names, (b.get? n).isSome = true) :
    Admits (p :: ps) (s :: cs) b (g :: gs) ↔
      (b.restrict p.names, g) ∈ p.filter s.toList ∧
      Admits (ps.map (·.bind (b.restrict p.names))) cs (b.without p.names) gs := by
  have hcov := Binding.covers_restrict hp
  have hagree : ∀ i q, agrees ((ps.map (·.bind (b.restrict p.names))).take i)
      (q.bind (b.restrict p.names)) (b.without p.names) = agrees (p :: ps.take i) q b := by
    intro i q
    funext path
    rw [← List.map_take, agrees_cons hp]
  have hfirst : agrees [] p b = fun path => decide (p.captures path = some (b.values p.names)) :=
    funext (agrees_nil p b)
  have hcovers : b.Covers (allNames (p :: ps)) ↔
      (b.without p.names).Covers (allNames (ps.map (·.bind (b.restrict p.names)))) := by
    refine forall_congr' ?_
    intro n
    rw [Binding.get?_without, mem_allNames_cons, mem_allNames_bind hcov]
    by_cases hn : n ∈ p.names
    · simp [hn, hp n hn]
    · simp [hn]
  rw [mem_filter, Binding.values_restrict, ← hfirst]
  constructor
  · intro h
    have hg := h.group_eq 0 p s rfl rfl
    obtain ⟨path, hpath, ha⟩ := h.inhabited 0 p s rfl rfl
    rw [List.take_zero, List.getElem?_cons_zero, Option.some.injEq] at hg
    rw [List.take_zero, agrees_nil, decide_eq_true_eq] at ha
    refine ⟨⟨hcov, hg, path, hpath, ha⟩, hcovers.1 h.covers, ?_, ?_, ?_⟩
    · rw [List.length_map]
      exact Nat.succ.inj h.length_eq
    · intro i q t hq ht
      obtain ⟨q, hq', rfl⟩ := getElem?_map_bind.1 hq
      rw [hagree]
      exact h.group_eq (i + 1) q t hq' ht
    · intro i q t hq ht
      obtain ⟨q, hq', rfl⟩ := getElem?_map_bind.1 hq
      rw [hagree]
      exact h.inhabited (i + 1) q t hq' ht
  · rintro ⟨⟨-, hg, path, hpath, hc⟩, h⟩
    refine ⟨hcovers.2 h.covers, ?_, ?_, ?_⟩
    · rw [List.length_cons, List.length_cons, h.length_eq, List.length_map]
    · intro i q t hq ht
      cases i with
      | zero =>
        cases hq
        cases ht
        rw [hg]
        rfl
      | succ i =>
        have hbound := h.group_eq i _ t (getElem?_map_bind.2 ⟨q, hq, rfl⟩) ht
        rw [hagree] at hbound
        exact hbound
    · intro i q t hq ht
      cases i with
      | zero =>
        cases hq
        cases ht
        refine ⟨path, hpath, ?_⟩
        rw [List.take_zero, agrees_nil, decide_eq_true_eq]
        exact hc
      | succ i =>
        have hbound := h.inhabited i _ t (getElem?_map_bind.2 ⟨q, hq, rfl⟩) ht
        rw [hagree] at hbound
        exact hbound

/-! ## The recursion -/

theorem mem_correlations_cons {s : TextSet} {cs : List TextSet} {p : Pattern} {ps : List Pattern}
    {c : Correlation} :
    c ∈ correlations (s :: cs) (p :: ps) ↔ ∃ b paths, (b, paths) ∈ p.filter s.toList ∧
      (ps = [] ∧ c = ⟨b, [paths]⟩ ∨
        ps ≠ [] ∧ ∃ d ∈ correlations cs (ps.map (·.bind b)), c = .cons b paths d) := by
  rw [correlations, List.mem_flatMap, Prod.exists]
  refine exists_congr fun b => exists_congr fun paths => and_congr_right fun _ => ?_
  cases ps with
  | nil => simp
  | cons q ps => simp [eq_comm]

/-- The recursion finds exactly the bindings and groups of the flat description. -/
theorem mem_correlations {ps : List Pattern} {cs : List TextSet} (hl : ps.length = cs.length)
    (hne : ps ≠ []) {c : Correlation} :
    c ∈ correlations cs ps ↔ Admits ps cs c.binding c.groups := by
  induction cs generalizing ps c with
  | nil => exact absurd (List.length_eq_zero_iff.1 hl) hne
  | cons s cs ih =>
    cases ps with
    | nil => exact absurd rfl hne
    | cons p ps =>
      have hl' := length_map_bind hl
      rw [mem_correlations_cons]
      constructor
      · rintro ⟨b, paths, hb, hc⟩
        have hcov := (mem_filter.1 hb).1
        -- whatever the other patterns admit goes with the first group
        have hcons : ∀ d gs, Admits (ps.map (·.bind b)) cs d gs →
            Admits (p :: ps) (s :: cs) (b.putMany d.toList) (paths :: gs) := by
          intro d gs h
          have hdis : ∀ n ∈ allNames (ps.map (·.bind b)), n ∉ p.names :=
            fun n hn => ((mem_allNames_bind hcov).1 hn).2
          have hsome : ∀ n ∈ p.names, (Table.get? (b.putMany d.toList) n).isSome = true := by
            intro n hn
            rw [Binding.get?_putMany_of_covers hcov h.covers hdis, if_pos hn]
            exact (hcov n).2 hn
          rw [admits_cons hsome, Binding.restrict_putMany hcov h.covers hdis,
            Binding.without_putMany hcov h.covers hdis]
          exact ⟨hb, h⟩
        rcases hc with ⟨rfl, rfl⟩ | ⟨hps, d, hd, rfl⟩
        · refine hcons ∅ [] ⟨?_, rfl, ?_, ?_⟩
          · intro n
            simp [mem_allNames]
          · intro i q t hq
            cases hq
          · intro i q t hq
            cases hq
        · refine hcons d.binding d.groups ((ih (hl' b) ?_).1 hd)
          rwa [ne_eq, List.map_eq_nil_iff]
      · intro h
        obtain ⟨b, groups⟩ := c
        have hp : ∀ n ∈ p.names, (b.get? n).isSome = true := fun n hn =>
          (h.covers n).2 (mem_allNames_cons.2 (.inl hn))
        cases groups with
        | nil => exact absurd h.length_eq (Nat.succ_ne_zero _).symm
        | cons g gs =>
          obtain ⟨hfirst, hrest⟩ := (admits_cons hp).1 h
          refine ⟨_, g, hfirst, ?_⟩
          by_cases hps : ps = []
          · subst hps
            refine .inl ⟨rfl, ?_⟩
            have hgs : gs = [] := List.length_eq_zero_iff.1 hrest.length_eq
            have hb : b.restrict p.names = b := by
              refine Table.ext_get? ?_
              intro n
              rw [Binding.get?_restrict]
              split
              · rfl
              · next hn =>
                rw [h.covers.get?_eq_none]
                simpa [mem_allNames] using hn
            rw [hb, hgs]
          · refine .inr ⟨hps, ⟨b.without p.names, gs⟩, (ih (hl' _) ?_).2 hrest, ?_⟩
            · rwa [ne_eq, List.map_eq_nil_iff]
            · rw [Correlation.cons, Binding.restrict_putMany_without]

/-! ## Order -/

theorem compare_append_left (l m m' : List String) : compare (l ++ m) (l ++ m') = compare m m' := by
  induction l with
  | nil => rfl
  | cons a l ih =>
    rw [List.cons_append, List.cons_append, List.compare_cons_cons, ih]
    simp

theorem compare_append_of_lt {l l' : List String} (hlen : l.length = l'.length)
    (h : compare l l' = .lt) (m m' : List String) : compare (l ++ m) (l' ++ m') = .lt := by
  induction l generalizing l' with
  | nil =>
    rw [List.length_eq_zero_iff.1 hlen.symm] at h
    simp at h
  | cons a l ih =>
    cases l' with
    | nil => cases hlen
    | cons a' l' =>
      rw [List.compare_cons_cons, Ordering.then_eq_lt] at h
      rw [List.cons_append, List.cons_append, List.compare_cons_cons, Ordering.then_eq_lt]
      rcases h with h | ⟨ha, h⟩
      · exact .inl h
      · exact .inr ⟨ha, ih (Nat.succ.inj hlen) h⟩

/-- The values of a correlation: those for the first pattern, then those for the others. -/
theorem values_cons {b : Binding} {d : Correlation} {p : Pattern} {ps : List Pattern}
    {cs : List TextSet} {gs : List (List String)} (hb : b.Covers p.names)
    (hd : Admits (ps.map (·.bind b)) cs d.binding gs) (paths : List String) :
    (Correlation.cons b paths d).binding.values (allNames (p :: ps)) =
      b.values p.names ++ d.binding.values (allNames (ps.map (·.bind b))) := by
  have hdis : ∀ n ∈ Pattern.allNames (ps.map (·.bind b)), n ∉ p.names :=
    fun n hn => ((mem_allNames_bind hb).1 hn).2
  have hget := Binding.get?_putMany_of_covers hb hd.covers hdis
  have hfirst : (Correlation.cons b paths d).binding.values p.names = b.values p.names := by
    refine Binding.values_congr ?_
    intro n hn
    rw [Correlation.cons, hget, if_pos hn]
  have hrest : (Correlation.cons b paths d).binding.values (Pattern.allNames (ps.map (·.bind b))) =
      d.binding.values (Pattern.allNames (ps.map (·.bind b))) := by
    refine Binding.values_congr ?_
    intro n hn
    rw [Correlation.cons, hget, if_neg (hdis n hn)]
  rw [allNames_cons hb, Binding.values, List.map_append, ← Binding.values, ← Binding.values,
    hfirst, hrest]

theorem allNames_singleton (p : Pattern) : allNames [p] = p.names := by
  rw [Pattern.allNames, List.flatMap_singleton]
  exact firsts_eq_self p.nodup_names fun _ _ => List.not_mem_nil

theorem correlations_singleton (s : TextSet) (cs : List TextSet) (p : Pattern) :
    correlations (s :: cs) [p] = (p.filter s.toList).map fun e => ⟨e.1, [e.2]⟩ := by
  rw [correlations, List.map_eq_flatMap]
  rfl

theorem correlations_cons_cons (s : TextSet) (cs : List TextSet) (p q : Pattern)
    (ps : List Pattern) :
    correlations (s :: cs) (p :: q :: ps) = (p.filter s.toList).flatMap fun e =>
      (correlations cs ((q :: ps).map (·.bind e.1))).map (.cons e.1 e.2) := by
  rw [correlations]
  rfl

/-- The recursion finds bindings in the order of their values. -/
theorem correlations_increasing {ps : List Pattern} {cs : List TextSet}
    (hl : ps.length = cs.length) : (correlations cs ps).Pairwise fun c d =>
      compare (c.binding.values (allNames ps)) (d.binding.values (allNames ps)) = .lt := by
  induction cs generalizing ps with
  | nil => exact .nil
  | cons s cs ih =>
    cases ps with
    | nil => exact .nil
    | cons p ps =>
      cases ps with
      | nil =>
        rw [correlations_singleton, allNames_singleton, List.pairwise_map]
        exact p.filter_increasing s.toList
      | cons q ps =>
        have hl' := length_map_bind hl
        have hvalues : ∀ e ∈ p.filter s.toList,
            ∀ d ∈ correlations cs ((q :: ps).map (·.bind e.1)),
            (Correlation.cons e.1 e.2 d).binding.values (Pattern.allNames (p :: q :: ps)) =
              e.1.values p.names ++
                d.binding.values (Pattern.allNames ((q :: ps).map (·.bind e.1))) := by
          intro e he d hd
          have hd := (mem_correlations (hl' e.1) (List.cons_ne_nil _ _)).1 hd
          exact values_cons (mem_filter.1 he).1 hd e.2
        rw [correlations_cons_cons, List.pairwise_flatMap]
        refine ⟨?_, ?_⟩
        · -- within a group, the other values decide
          intro e he
          rw [List.pairwise_map]
          refine (ih (hl' e.1)).imp_of_mem ?_
          intro c d hc hd hlt
          rw [hvalues e he c hc, hvalues e he d hd, compare_append_left]
          exact hlt
        · -- between groups, the values of the first pattern do
          refine (p.filter_increasing s.toList).imp_of_mem ?_
          intro e f he hf hlt x hx y hy
          obtain ⟨c, hc, rfl⟩ := List.mem_map.1 hx
          obtain ⟨d, hd, rfl⟩ := List.mem_map.1 hy
          rw [hvalues e he c hc, hvalues f hf d hd]
          refine compare_append_of_lt ?_ hlt _ _
          rw [Binding.values, Binding.values, List.length_map, List.length_map]

/-! ## Candidates that match nothing -/

/-- Values of a group have no slashes. -/
theorem noSlash_of_mem_filter {p : Pattern} {s : TextSet} {b : Binding} {paths : List String}
    (h : (b, paths) ∈ p.filter s.toList) {n v : String} (hv : b.get? n = some v) :
    '/' ∉ v.toList := by
  obtain ⟨hcov, -, path, -, hc⟩ := mem_filter.1 h
  have hsome : (b.get? n).isSome = true := by simp [hv]
  have hval : v = b.value n := by
    rw [Binding.get?_eq_value hsome, Option.some.injEq] at hv
    exact hv.symm
  refine captures_noSlash hc ?_
  rw [hval]
  exact List.mem_map_of_mem ((hcov n).1 hsome)

/-- Candidates that their pattern does not match make no difference, not even once values are in
place. -/
theorem correlations_congr {ps : List Pattern} {cs cs' : List TextSet}
    (hl : cs.length = cs'.length)
    (h : ∀ (i : Nat) (p : Pattern) (s s' : TextSet), ps[i]? = some p → cs[i]? = some s →
      cs'[i]? = some s' → ∀ path, p.isMatch path = true → (path ∈ s ↔ path ∈ s')) :
    correlations cs ps = correlations cs' ps := by
  induction cs generalizing ps cs' with
  | nil => rw [List.length_eq_zero_iff.1 hl.symm]
  | cons s cs ih =>
    cases cs' with
    | nil => cases hl
    | cons s' cs' =>
      cases ps with
      | nil => rfl
      | cons p ps =>
        rw [correlations, correlations, ← filter_congr (h 0 p s s' rfl rfl rfl),
          List.flatMap_def, List.flatMap_def]
        refine congrArg List.flatten (List.map_congr_left ?_)
        rintro ⟨b, paths⟩ hb
        have hrest : correlations cs (ps.map (·.bind b)) = correlations cs' (ps.map (·.bind b)) := by
          refine ih (Nat.succ.inj hl) ?_
          intro i q t t' hq ht ht' path hmatch
          obtain ⟨q, hq', rfl⟩ := getElem?_map_bind.1 hq
          refine h (i + 1) q t t' hq' ht ht' path (isMatch_of_bind ?_ hmatch)
          intro n v hv
          exact noSlash_of_mem_filter hb hv
        dsimp only
        rw [hrest]

/-! ## The result -/

/-- A pattern with all values in place matches the paths that agree. -/
theorem isMatch_of_agrees {before : List Pattern} {p : Pattern} {b : Binding} {path : String}
    (hb : ∀ n ∈ Pattern.allNames before, (b.get? n).isSome = true)
    (h : agrees before p b path = true) : (p.bind b).isMatch path = true := by
  have hcov := Binding.covers_restrict hb
  have hnames : (p.bind (b.restrict (Pattern.allNames before))).names = fresh before p := by
    rw [names_bind, fresh]
    refine List.filter_congr ?_
    intro n _
    rw [Bool.eq_iff_iff, decide_eq_true_eq, ← hcov n]
    simp
  rw [agrees, decide_eq_true_eq, ← hnames] at h
  have hmatch := isMatch_bind h
  rw [bind_bind] at hmatch
  rw [bind_congr (t := b.putMany (b.restrict (Pattern.allNames before)).toList)]
  · exact hmatch
  · intro n _
    rw [Table.get?_putMany, Binding.get?_restrict]
    split
    · rw [Option.or_self]
    · rw [Option.none_or]

/-- Correlation of patterns succeeds.
* A binding is found exactly if it is one of all names such that each pattern, with the values for
  the names of earlier patterns in place, gives some candidate the values for its other names.
* The paths of a pattern are all such candidates, in order.
* Bindings are found in the order of their values, and none of them twice.
* With all values in place, a pattern matches its paths. -/
theorem correlate_exact {ps : List Pattern} {cs : List TextSet} (hne : ps ≠ [])
    (hl : ps.length = cs.length) : ∃ found, correlate ps cs = .ok found ∧
      (∀ b : Binding, (∃ c ∈ found, c.binding = b) ↔ b.Covers (allNames ps) ∧
        ∀ (i : Nat) (p : Pattern) (s : TextSet), ps[i]? = some p → cs[i]? = some s →
          ∃ path ∈ s, (p.bind (b.restrict (allNames (ps.take i)))).captures path =
            some (b.values (fresh (ps.take i) p))) ∧
      (∀ c ∈ found, c.groups.length = ps.length ∧
        ∀ (i : Nat) (p : Pattern) (s : TextSet), ps[i]? = some p → cs[i]? = some s →
          c.groups[i]? = some (s.filter fun path =>
            (p.bind (c.binding.restrict (allNames (ps.take i)))).captures path =
              some (c.binding.values (fresh (ps.take i) p))).toList) ∧
      (found.Pairwise fun c d =>
        compare (c.binding.values (allNames ps)) (d.binding.values (allNames ps)) = .lt) ∧
      ∀ c ∈ found, ∀ (i : Nat) (p : Pattern) (paths : List String), ps[i]? = some p →
        c.groups[i]? = some paths → ∀ path ∈ paths, (p.bind c.binding).isMatch path = true := by
  refine ⟨correlations cs ps, if_pos hl, ?_, ?_, correlations_increasing hl, ?_⟩
  · intro b
    constructor
    · rintro ⟨c, hc, rfl⟩
      have h := (mem_correlations hl hne).1 hc
      refine ⟨h.covers, ?_⟩
      intro i p s hp hs
      obtain ⟨path, hpath, ha⟩ := h.inhabited i p s hp hs
      exact ⟨path, hpath, of_decide_eq_true ha⟩
    · rintro ⟨hcov, hall⟩
      let groups := (ps.zip cs).mapIdx fun i e => (e.2.filter (agrees (ps.take i) e.1 b)).toList
      refine ⟨⟨b, groups⟩, (mem_correlations hl hne).2 ⟨hcov, ?_, ?_, ?_⟩, rfl⟩
      · rw [List.length_mapIdx, List.length_zip, ← hl, Nat.min_self]
      · intro i p s hp hs
        have hzip : (ps.zip cs)[i]? = some (p, s) := List.getElem?_zip_eq_some.2 ⟨hp, hs⟩
        rw [List.getElem?_mapIdx, hzip, Option.map_some]
      · intro i p s hp hs
        obtain ⟨path, hpath, hc⟩ := hall i p s hp hs
        exact ⟨path, hpath, decide_eq_true hc⟩
  · intro c hc
    have h := (mem_correlations hl hne).1 hc
    exact ⟨h.length_eq, h.group_eq⟩
  · intro c hc i p paths hp hpaths path hpath
    have h := (mem_correlations hl hne).1 hc
    have hi : i < cs.length := by
      rw [← hl]
      exact (List.getElem?_eq_some_iff.1 hp).1
    rw [h.group_eq i p cs[i] hp (List.getElem?_eq_getElem hi), Option.some.injEq] at hpaths
    rw [← hpaths] at hpath
    have ha : agrees (ps.take i) p c.binding path = true := (List.mem_filter.1 hpath).2
    refine isMatch_of_agrees ?_ ha
    intro n hn
    rw [h.covers, mem_allNames]
    obtain ⟨q, hq, hqn⟩ := mem_allNames.1 hn
    exact ⟨q, List.mem_of_mem_take hq, hqn⟩

/-- Two patterns that share a name. -/
def Pattern.sharing : List Pattern :=
  [⟨[.named "a", .literal ".x"], by decide⟩, ⟨[.named "a", .literal "/", .named "b"], by decide⟩]

theorem correlate_exact_sharing : ∃ found,
    correlate sharing [.ofList ["q.x", "p.x"], .ofList ["p/2", "p/1"]] = .ok found ∧
    found.map Correlation.groups = [[["p.x"], ["p/1"]], [["p.x"], ["p/2"]]] ∧
    ∀ c ∈ found, c.binding.Covers ["a", "b"] := by
  have hne : sharing ≠ [] := List.cons_ne_nil _ _
  have hl : sharing.length =
      [(.ofList ["q.x", "p.x"] : TextSet), .ofList ["p/2", "p/1"]].length := rfl
  obtain ⟨found, h, hbindings, -⟩ := correlate_exact hne hl
  refine ⟨found, h, ?_, ?_⟩
  · have hgroups : (correlate sharing [.ofList ["q.x", "p.x"], .ofList ["p/2", "p/1"]]).map
        (List.map Correlation.groups) = .ok [[["p.x"], ["p/1"]], [["p.x"], ["p/2"]]] := by
      decide +kernel
    rw [h] at hgroups
    exact Except.ok.inj hgroups
  · intro c hc
    exact ((hbindings c.binding).1 ⟨c, hc, rfl⟩).1

end DocGraph
