import DocGraph.Proofs.Latex.Scan

/-!
# DocGraph.Proofs.Latex.Walk

The sources that the scan of a LaTeX document looks at, and those that it ought to.

* `Reading`    — a source with the directory that its references are relative to.
* `Reached`    — the readings that the references of a document lead to, one after the other.
* `Walk`       — the readings that the scan makes: of each file the one it comes to first.
* `Describes`  — a scan has what some readings give, and nothing else.
* `describes_walk`    — a scan has what the readings of its walk give.
* `scan_complete_iff` — it has what all readings that are reached give exactly if those that it does
  not make give nothing new; so it is if no file is reached for two directories.
* `scan_misses_imported` — a file that is imported after it was read for another directory gives
  nothing.
-/

namespace DocGraph
namespace Latex

/-- A source, and the directory that its references are relative to. -/
structure Reading where
  source : Path
  directory : Path
deriving DecidableEq

namespace Reading

/-- A document is read for its own directory. -/
def first (document : Path) : Reading := ⟨document, document.parentDir⟩

/-- The references of the source, if it is there. -/
def references (t : Tree) (v : Reading) : List Reference :=
  match t.read? v.source with
  | none => []
  | some content => Latex.references (Text.decodeLossy content)

def target (v : Reading) (r : Reference) : Path := r.target v.directory

/-- What a reference leads to if it is to a source. -/
def included? (v : Reading) (r : Reference) : Option Reading :=
  if r.kind = .source then some ⟨v.target r, r.directoryFrom v.directory⟩ else none

/-- What a source includes, in the order of its references. -/
def includes (t : Tree) (v : Reading) : List Reading := (v.references t).filterMap v.included?

theorem included?_eq_some_iff {v w : Reading} {r : Reference} :
    v.included? r = some w ↔
      r.kind = .source ∧ v.target r = w.source ∧ r.directoryFrom v.directory = w.directory := by
  rw [included?, Option.ite_none_right_eq_some, Option.some.injEq, Reading.mk.injEq]

theorem exists_included? (v : Reading) {r : Reference} (h : r.kind = .source) :
    ∃ w, v.included? r = some w ∧ v.target r = w.source ∧
      r.directoryFrom v.directory = w.directory := by
  obtain ⟨w, hw⟩ : ∃ w, v.included? r = some w := ⟨_, if_pos h⟩
  exact ⟨w, hw, (included?_eq_some_iff.1 hw).2⟩

theorem included?_eq_none {v : Reading} {r : Reference} (h : r.kind ≠ .source) :
    v.included? r = none := if_neg h

theorem exists_normalize {v w : Reading} {r : Reference} (h : v.included? r = some w) :
    ∃ p : Path, w.source = p.normalize := by
  obtain ⟨-, hsource, -⟩ := included?_eq_some_iff.1 h
  exact ⟨(r.directoryFrom v.directory).join (clean r.path r.kind), hsource.symm⟩

theorem mem_includes {t : Tree} {v w : Reading} :
    w ∈ v.includes t ↔ ∃ r ∈ v.references t, v.included? r = some w := List.mem_filterMap

end Reading

/-- The least set of readings with the document that has with every reading what it includes. -/
inductive Reached (t : Tree) (document : Path) : Reading → Prop
  | first : Reached t document (.first document)
  | included {v w : Reading} : Reached t document v → w ∈ v.includes t → Reached t document w

/-- `Walk t seen todo seen'` is the way from the readings `seen` through `todo` and all it includes
to `seen'`. A file that was read is not read again, for whatever directory. -/
inductive Walk (t : Tree) : List Reading → List Reading → List Reading → Prop
  | done {seen : List Reading} : Walk t seen [] seen
  | again {seen todo last : List Reading} {v : Reading} :
      (∃ w ∈ seen, w.source.Same v.source) → Walk t seen todo last → Walk t seen (v :: todo) last
  | read {seen todo mid last : List Reading} {v : Reading} :
      (∀ w ∈ seen, ¬w.source.Same v.source) → Walk t (seen ++ [v]) (v.includes t) mid →
      Walk t mid todo last → Walk t seen (v :: todo) last

/-- A scan has what the readings give, and nothing else. -/
structure Describes (t : Tree) (readings : Reading → Prop) (scan : Scan) : Prop where
  gendeps (p : Path) : scan.gendeps.contains p.components = true ↔
    ∃ v, readings v ∧ v.source.Same p
  implicit (p : Path) : scan.implicit.contains p.components = true ↔
    ∃ v, readings v ∧ ∃ r ∈ v.references t, r.kind ≠ .bibliography ∧ (v.target r).Same p
  bib (p : Path) : scan.bib.contains p.components = true ↔
    ∃ v, readings v ∧ ∃ r ∈ v.references t, r.kind = .bibliography ∧ (v.target r).Same p

/-- A scan has a path where it keeps those of its kind. -/
def Scan.Lists (s : Scan) (kind : Kind) (p : Path) : Prop :=
  match kind with
  | .source => s.gendeps.contains p.components = true ∧ s.implicit.contains p.components = true
  | .graphics => s.implicit.contains p.components = true
  | .bibliography => s.bib.contains p.components = true

/-! ## Walks -/

namespace Walk

variable {t : Tree} {seen todo todo' mid last : List Reading}

theorem append (h : Walk t seen todo mid) (h' : Walk t mid todo' last) :
    Walk t seen (todo ++ todo') last := by
  induction h with
  | done => exact h'
  | again hseen _ ih => exact .again hseen (ih h')
  | read hnew hinside _ _ ih => exact .read hnew hinside (ih h')

theorem unique {last' : List Reading} (h : Walk t seen todo last) (h' : Walk t seen todo last') :
    last = last' := by
  induction h generalizing last' with
  | done =>
    cases h'
    rfl
  | again hseen _ ih =>
    cases h' with
    | again _ hrest => exact ih hrest
    | read hnew _ _ =>
      obtain ⟨w, hw, hsame⟩ := hseen
      exact absurd hsame (hnew w hw)
  | read hnew _ _ ihinside ihrest =>
    cases h' with
    | again hseen _ =>
      obtain ⟨w, hw, hsame⟩ := hseen
      exact absurd hsame (hnew w hw)
    | read _ hinside hrest =>
      cases ihinside hinside
      exact ihrest hrest

theorem subset (h : Walk t seen todo last) : seen ⊆ last := by
  induction h with
  | done => exact List.Subset.refl _
  | again _ _ ih => exact ih
  | read _ _ _ ihinside ihrest =>
    intro v hv
    exact ihrest (ihinside (List.mem_append_left _ hv))

theorem pairwise (h : Walk t seen todo last)
    (hseen : seen.Pairwise fun v w => ¬v.source.Same w.source) :
    last.Pairwise fun v w => ¬v.source.Same w.source := by
  induction h with
  | done => exact hseen
  | again _ _ ih => exact ih hseen
  | read hnew _ _ ihinside ihrest =>
    refine ihrest (ihinside (List.pairwise_append.2 ⟨hseen, List.pairwise_singleton _ _, ?_⟩))
    intro w hw v hv
    rw [List.mem_singleton.1 hv]
    exact hnew w hw

/-- What holds of the readings and of everything they include holds of all on the way. -/
theorem forall_mem {P : Reading → Prop} (hP : ∀ v, P v → ∀ w ∈ v.includes t, P w)
    (h : Walk t seen todo last) (hseen : ∀ v ∈ seen, P v) (htodo : ∀ v ∈ todo, P v) :
    ∀ v ∈ last, P v := by
  induction h with
  | done => exact hseen
  | again _ _ ih => exact ih hseen (List.forall_mem_cons.1 htodo).2
  | @read _ _ _ _ v _ _ _ ihinside ihrest =>
    obtain ⟨hv, hrest⟩ := List.forall_mem_cons.1 htodo
    have hvisited := List.forall_mem_append.2 ⟨hseen, List.forall_mem_singleton.2 hv⟩
    exact ihrest (ihinside hvisited (hP v hv)) hrest

/-- Every file that was to be read is read, for some directory. -/
theorem exists_same (h : Walk t seen todo last) :
    ∀ v ∈ todo, ∃ w ∈ last, w.source.Same v.source := by
  induction h with
  | done => exact nofun
  | again hseen hrest ih =>
    obtain ⟨w, hw, hsame⟩ := hseen
    exact List.forall_mem_cons.2 ⟨⟨w, hrest.subset hw, hsame⟩, ih⟩
  | @read seen _ _ _ v _ hinside hrest _ ih =>
    have hv : v ∈ seen ++ [v] := List.mem_append_right _ List.mem_cons_self
    exact List.forall_mem_cons.2 ⟨⟨v, hrest.subset (hinside.subset hv), rfl⟩, ih⟩

/-- A new reading on the way has all files read that its source includes. -/
theorem exists_same_of_includes (h : Walk t seen todo last) :
    ∀ v ∈ last, v ∉ seen → ∀ w ∈ v.includes t, ∃ u ∈ last, u.source.Same w.source := by
  induction h with
  | done => exact fun v hv hnew => absurd hv hnew
  | again _ _ ih => exact ih
  | @read seen _ mid _ v _ hinside hrest ihinside ihrest =>
    intro u hu hnew w hw
    by_cases hmid : u ∈ mid
    · -- `u` is `v` itself, or was come to inside of it
      have hread : ∃ x ∈ mid, x.source.Same w.source := by
        by_cases hv : u = v
        · exact hinside.exists_same w (hv ▸ hw)
        · refine ihinside u hmid (fun hmem => ?_) w hw
          exact (List.mem_append.1 hmem).elim hnew fun h => hv (List.mem_singleton.1 h)
      obtain ⟨x, hx, hsame⟩ := hread
      exact ⟨x, hrest.subset hx, hsame⟩
    · exact ihrest u hu hmid w hw

end Walk

/-! ## The scan walks -/

/-- What a scan has while a source is worked on: the files of the readings, and what the references
that were met lead to. -/
structure Records (s : Scan) (seen : List Reading) (met : Reading → Reference → Prop) : Prop where
  gendeps (p : Path) : s.gendeps.contains p.components = true ↔ ∃ v ∈ seen, v.source.Same p
  implicit (p : Path) : s.implicit.contains p.components = true ↔
    ∃ v r, met v r ∧ r.kind ≠ .bibliography ∧ (v.target r).Same p
  bib (p : Path) : s.bib.contains p.components = true ↔
    ∃ v r, met v r ∧ r.kind = .bibliography ∧ (v.target r).Same p

namespace Records

variable {s : Scan} {seen : List Reading} {met met' : Reading → Reference → Prop}

theorem empty : Records .empty [] fun _ _ => False := by
  constructor <;> intro p <;> simp [Scan.empty]

theorem congr (h : Records s seen met) (hmet : ∀ v r, met v r ↔ met' v r) :
    Records s seen met' := by
  obtain rfl : met = met' := funext fun v => funext fun r => propext (hmet v r)
  exact h

theorem visit (h : Records s seen met) (v : Reading) :
    Records (s.visit v.source) (seen ++ [v]) met := by
  refine ⟨fun p => ?_, h.implicit, h.bib⟩
  rw [Scan.visit, SortedBy.contains_insert, h.gendeps]
  simp [or_and_right, exists_or, Path.Same]

theorem insert_implicit (h : Records s seen met) (v : Reading) {r : Reference}
    (hr : r.kind ≠ .bibliography) :
    Records { s with implicit := s.implicit.insert (v.target r) } seen
      fun w q => met w q ∨ w = v ∧ q = r := by
  refine ⟨h.gendeps, fun p => ?_, fun p => ?_⟩
  · rw [SortedBy.contains_insert, h.implicit]
    simp [or_and_right, exists_or, hr, Path.Same]
  · rw [h.bib]
    simp [or_and_right, exists_or, hr]

theorem insert_bib (h : Records s seen met) (v : Reading) {r : Reference}
    (hr : r.kind = .bibliography) :
    Records { s with bib := s.bib.insert (v.target r) } seen
      fun w q => met w q ∨ w = v ∧ q = r := by
  refine ⟨h.gendeps, fun p => ?_, fun p => ?_⟩
  · rw [h.implicit]
    simp [or_and_right, exists_or, hr]
  · rw [SortedBy.contains_insert, h.bib]
    simp [or_and_right, exists_or, hr, Path.Same]

end Records

/-- A walk through `todo` leads from one scan to another, where the references `own` are met beside
those of the new readings. -/
def Leads (t : Tree) (s s' : Scan) (todo : List Reading) (own : Reading → Reference → Prop) :
    Prop :=
  ∀ seen met, Records s seen met → ∃ new, Walk t seen todo (seen ++ new) ∧
    Records s' (seen ++ new) fun v r => met v r ∨ own v r ∨ v ∈ new ∧ r ∈ v.references t

def noReference (_ : Reading) (_ : Reference) : Prop := False

section

variable {t : Tree} {s s' s'' : Scan} {v : Reading}

theorem Leads.congr {todo : List Reading} {own own' : Reading → Reference → Prop}
    (h : Leads t s s' todo own) (hown : ∀ v r, own v r ↔ own' v r) : Leads t s s' todo own' := by
  obtain rfl : own = own' := funext fun v => funext fun r => propext (hown v r)
  exact h

theorem Leads.of_records {own : Reading → Reference → Prop}
    (h : ∀ seen met, Records s seen met → Records s' seen fun v r => met v r ∨ own v r) :
    Leads t s s' [] own := by
  intro seen met hs
  refine ⟨[], ?_, ?_⟩
  · rw [List.append_nil]
    exact .done
  · rw [List.append_nil]
    exact (h seen met hs).congr fun v r => by simp

theorem leads_done : Leads t s s [] noReference :=
  .of_records fun _ _ hs => hs.congr fun _ _ => (or_iff_left id).symm

theorem leads_insert_implicit (v : Reading) {r : Reference} (hr : r.kind ≠ .bibliography) :
    Leads t s { s with implicit := s.implicit.insert (v.target r) } []
      fun w q => w = v ∧ q = r :=
  .of_records fun _ _ hs => hs.insert_implicit v hr

theorem Leads.append {todo todo' : List Reading} {own own' : Reading → Reference → Prop}
    (h : Leads t s s' todo own) (h' : Leads t s' s'' todo' own') :
    Leads t s s'' (todo ++ todo') fun v r => own v r ∨ own' v r := by
  intro seen met hs
  obtain ⟨new, hwalk, hs'⟩ := h seen met hs
  obtain ⟨new', hwalk', hs''⟩ := h' _ _ hs'
  rw [List.append_assoc] at hwalk' hs''
  refine ⟨new ++ new', hwalk.append hwalk', hs''.congr fun v r => ?_⟩
  rw [List.mem_append]
  tauto

theorem leads_again (h : s.gendeps.contains v.source.components = true) :
    Leads t s s [v] noReference := by
  intro seen met hs
  obtain ⟨new, hwalk, hs'⟩ := leads_done (t := t) seen met hs
  exact ⟨new, .again ((hs.gendeps v.source).1 h) hwalk, hs'⟩

/-- A new file leads to what it includes, and its own references are met. -/
theorem leads_read (hnew : s.gendeps.contains v.source.components = false)
    (h : Leads t (s.visit v.source) s' (v.includes t) fun w r => w = v ∧ r ∈ w.references t) :
    Leads t s s' [v] noReference := by
  intro seen met hs
  obtain ⟨new, hwalk, hs'⟩ := h _ _ (hs.visit v)
  have hfirst : ∀ w ∈ seen, ¬w.source.Same v.source := by
    intro w hw hsame
    rw [(hs.gendeps v.source).2 ⟨w, hw, hsame⟩] at hnew
    cases hnew
  rw [List.append_assoc, List.singleton_append] at hwalk hs'
  refine ⟨v :: new, .read hfirst hwalk .done, hs'.congr fun w r => ?_⟩
  rw [List.mem_cons, noReference]
  tauto

section

variable {deeper : Scan → Path → Path → Scan}

theorem leads_follow {r : Reference}
    (hdeeper : ∀ mid, s.Grows mid → ∀ w, v.included? r = some w →
      Leads t mid (deeper mid w.source w.directory) [w] noReference) :
    Leads t s (follow deeper v.directory s r) ([r].filterMap v.included?)
      fun w q => w = v ∧ q = r := by
  cases hkind : r.kind with
  | source =>
    obtain ⟨w, hw, hsource, hdirectory⟩ := v.exists_included? hkind
    have hmet := leads_insert_implicit (t := t) (s := s) v (r := r) (by rw [hkind]; decide)
    rw [hsource] at hmet
    have hinside := hdeeper { s with implicit := s.implicit.insert w.source } (fun _ hp => hp) w hw
    have hall := hmet.append hinside
    rw [List.nil_append] at hall
    rw [follow_source hkind, List.filterMap_cons_some hw, List.filterMap_nil, hdirectory,
      ← Reading.target, hsource]
    exact hall.congr fun w q => or_iff_left False.elim
  | graphics =>
    have hincluded := Reading.included?_eq_none (v := v) (r := r) (by rw [hkind]; decide)
    rw [follow, hkind, List.filterMap_cons_none hincluded, List.filterMap_nil]
    exact leads_insert_implicit v (by rw [hkind]; decide)
  | bibliography =>
    have hincluded := Reading.included?_eq_none (v := v) (r := r) (by rw [hkind]; decide)
    rw [follow, hkind, List.filterMap_cons_none hincluded, List.filterMap_nil]
    exact .of_records fun _ _ hs => hs.insert_bib v hkind

theorem leads_foldl (hgrows : ∀ (s : Scan) p d, s.Grows (deeper s p d)) {l : List Reference}
    (hdeeper : ∀ mid, s.Grows mid → ∀ r w, v.included? r = some w →
      Leads t mid (deeper mid w.source w.directory) [w] noReference) :
    Leads t s (l.foldl (follow deeper v.directory) s) (l.filterMap v.included?)
      fun w r => w = v ∧ r ∈ l := by
  induction l generalizing s with
  | nil => exact leads_done.congr fun w r => by simp [noReference]
  | cons r l ih =>
    have hstep := grows_follow hgrows v.directory s r
    have hfirst := leads_follow fun mid hmid => hdeeper mid hmid r
    have hrest := ih fun mid hmid => hdeeper mid (hstep.trans hmid)
    have hall := hfirst.append hrest
    rw [← List.filterMap_append] at hall
    exact hall.congr fun w q => by rw [← and_or_left, List.mem_cons]

end

/-- A source leads to its scan if everything that it includes does. -/
theorem leads_scanFrom_succ {n : Nat}
    (h : s.gendeps.contains v.source.components = false → (t.read? v.source).isSome →
      ∀ mid : Scan, (s.visit v.source).Grows mid → ∀ w : Reading,
        (∃ p : Path, w.source = p.normalize) →
          Leads t mid (scanFrom t n mid w.source w.directory) [w] noReference) :
    Leads t s (scanFrom t (n + 1) s v.source v.directory) [v] noReference := by
  rw [scanFrom_succ]
  cases hnew : s.gendeps.contains v.source.components with
  | true => exact leads_again hnew
  | false =>
    rw [if_neg Bool.false_ne_true]
    refine leads_read hnew ?_
    cases hread : t.read? v.source with
    | none =>
      have hnone : v.references t = [] := by rw [Reading.references, hread]
      rw [Reading.includes, hnone]
      refine leads_done.congr fun w r => ⟨False.elim, fun hr => ?_⟩
      rw [hr.1, hnone] at hr
      cases hr.2
    | some content =>
      have hsome : v.references t = references (Text.decodeLossy content) := by
        rw [Reading.references, hread]
      have hdeeper := h hnew (by rw [hread]; rfl)
      have hfold := leads_foldl (v := v) (grows_scanFrom t n) (l := v.references t)
        fun mid hmid r w hw => hdeeper mid hmid w (Reading.exists_normalize hw)
      rw [hsome] at hfold
      rw [Reading.includes, hsome]
      exact hfold.congr fun w r => and_congr_right fun hw => by rw [hw, hsome]

theorem leads_scanFrom {n : Nat} (hn : (unvisited t s).length < n)
    (hv : ∃ p : Path, v.source = p.normalize) :
    Leads t s (scanFrom t n s v.source v.directory) [v] noReference := by
  induction n generalizing s v with
  | zero => exact absurd hn (Nat.not_lt_zero _)
  | succ n ih =>
    refine leads_scanFrom_succ fun hnew hread mid hmid w hw => ih ?_ hw
    obtain ⟨p, hp⟩ := hv
    have hmem : v.source.components ∈ t.spellings := by
      rw [hp] at hread ⊢
      exact Tree.mem_spellings_of_read? hread
    -- as in `scanFrom_stable`, one file fewer is left for what is included
    have hvisit := length_unvisited_visit_lt hnew hmem
    have hmore := length_unvisited_le t hmid
    omega

end

theorem leads_scan (t : Tree) (document : Path) :
    Leads t .empty (scan t document) [.first document] noReference := by
  refine leads_scanFrom_succ (v := .first document) fun _ _ mid _ w hw => leads_scanFrom ?_ hw
  have hmid : (unvisited t mid).length ≤ t.spellings.length := List.length_filter_le _ _
  rw [t.length_spellings] at hmid
  omega

/-- A scan makes the readings of a walk and has what these give. -/
theorem describes_walk (t : Tree) (document : Path) :
    ∃ readings, Walk t [] [.first document] readings ∧
      Describes t (· ∈ readings) (scan t document) := by
  obtain ⟨readings, hwalk, hscan⟩ := leads_scan t document [] _ .empty
  have hmet : Records (scan t document) readings fun v r => v ∈ readings ∧ r ∈ v.references t :=
    hscan.congr fun v r => by simp [noReference]
  refine ⟨readings, hwalk, hmet.gendeps, fun p => ?_, fun p => ?_⟩
  · rw [hmet.implicit]
    simp only [and_assoc, exists_and_left]
  · rw [hmet.bib]
    simp only [and_assoc, exists_and_left]

/-! ## What is missed -/

theorem Scan.Lists.implicit {s : Scan} {kind : Kind} {p : Path} (h : s.Lists kind p)
    (hkind : kind ≠ .bibliography) : s.implicit.contains p.components = true := by
  cases kind with
  | source => exact h.2
  | graphics => exact h
  | bibliography => exact absurd rfl hkind

section

variable {t : Tree} {document : Path} {s : Scan} {readings : List Reading}

/-- A scan that describes some readings has what these refer to, if that was read as well. -/
theorem Describes.lists {P : Reading → Prop} (h : Describes t P s) {v : Reading} (hv : P v)
    {r : Reference} (hr : r ∈ v.references t)
    (hread : ∀ w, v.included? r = some w → ∃ u, P u ∧ u.source.Same w.source) :
    s.Lists r.kind (v.target r) := by
  have himplicit : r.kind ≠ .bibliography →
      s.implicit.contains (v.target r).components = true :=
    fun hkind => (h.implicit _).2 ⟨v, hv, r, hr, hkind, rfl⟩
  cases hkind : r.kind with
  | source =>
    obtain ⟨w, hw, hsource, -⟩ := v.exists_included? hkind
    obtain ⟨u, hu, hsame⟩ := hread w hw
    refine ⟨(h.gendeps _).2 ⟨u, hu, ?_⟩, himplicit (by rw [hkind]; decide)⟩
    rw [hsource]
    exact hsame
  | graphics => exact himplicit (by rw [hkind]; decide)
  | bibliography => exact (h.bib _).2 ⟨v, hv, r, hr, hkind, rfl⟩

theorem Walk.reached (h : Walk t [] [.first document] readings) :
    ∀ v ∈ readings, Reached t document v :=
  h.forall_mem (fun _ hv _ hw => hv.included hw) nofun (List.forall_mem_singleton.2 .first)

/-- What a reading of the walk includes was read, for some directory. -/
theorem Walk.exists_same_of_included? (h : Walk t [] [.first document] readings) {v : Reading}
    (hv : v ∈ readings) {r : Reference} (hr : r ∈ v.references t) (w : Reading)
    (hw : v.included? r = some w) : ∃ u ∈ readings, u.source.Same w.source :=
  h.exists_same_of_includes v hv List.not_mem_nil w (Reading.mem_includes.2 ⟨r, hr, hw⟩)

/-- Files that are reached are in a scan that has what every reading refers to. -/
theorem Reached.contains_source (hfirst : s.gendeps.contains document.components = true)
    (hlists : ∀ v, Reached t document v → ∀ r ∈ v.references t, s.Lists r.kind (v.target r))
    {v : Reading} (hv : Reached t document v) :
    s.gendeps.contains v.source.components = true := by
  cases hv with
  | first => exact hfirst
  | included hu hincludes =>
    obtain ⟨r, hr, hincluded⟩ := Reading.mem_includes.1 hincludes
    obtain ⟨hkind, hsource, -⟩ := Reading.included?_eq_some_iff.1 hincluded
    have hlisted := hlists _ hu r hr
    rw [hkind, hsource] at hlisted
    exact hlisted.1

/-- A scan that describes some of the readings that are reached describes all of them if it has what
each refers to. -/
theorem Describes.extend {P : Reading → Prop} (hs : Describes t P s)
    (hP : ∀ v, P v → Reached t document v)
    (hfirst : s.gendeps.contains document.components = true)
    (hlists : ∀ v, Reached t document v → ∀ r ∈ v.references t, s.Lists r.kind (v.target r)) :
    Describes t (Reached t document) s := by
  refine ⟨fun p => ⟨fun hp => ?_, ?_⟩, fun p => ⟨fun hp => ?_, ?_⟩, fun p => ⟨fun hp => ?_, ?_⟩⟩
  · exact ((hs.gendeps p).1 hp).imp fun v => And.imp_left (hP v)
  · rintro ⟨v, hv, hsame⟩
    exact hsame ▸ hv.contains_source hfirst hlists
  · exact ((hs.implicit p).1 hp).imp fun v => And.imp_left (hP v)
  · rintro ⟨v, hv, r, hr, hkind, hsame⟩
    exact hsame ▸ (hlists v hv r hr).implicit hkind
  · exact ((hs.bib p).1 hp).imp fun v => And.imp_left (hP v)
  · rintro ⟨v, hv, r, hr, hkind, hsame⟩
    have hlisted := hlists v hv r hr
    rw [hkind] at hlisted
    exact hsame ▸ hlisted

theorem describes_reached_iff (hwalk : Walk t [] [.first document] readings)
    (hs : Describes t (· ∈ readings) s) :
    Describes t (Reached t document) s ↔
      ∀ v, Reached t document v → v ∉ readings → ∀ r ∈ v.references t,
        s.Lists r.kind (v.target r) := by
  constructor
  · intro h v hv _ r hr
    exact h.lists hv hr fun w hw =>
      ⟨w, hv.included (Reading.mem_includes.2 ⟨r, hr, hw⟩), rfl⟩
  · intro h
    have hfirst := (hs.gendeps document).2 (hwalk.exists_same _ List.mem_cons_self)
    refine hs.extend hwalk.reached hfirst fun v hv r hr => ?_
    by_cases hread : v ∈ readings
    · exact hs.lists hread hr (hwalk.exists_same_of_included? hread hr)
    · exact h v hv hread r hr

/-- If no file is reached for two directories, the walk leaves out nothing. -/
theorem Walk.mem_of_reached (hwalk : Walk t [] [.first document] readings)
    (h : ∀ v w, Reached t document v → Reached t document w → v.source.Same w.source → v = w)
    {v : Reading} (hv : Reached t document v) : v ∈ readings := by
  induction hv with
  | first =>
    obtain ⟨w, hw, hsame⟩ := hwalk.exists_same _ List.mem_cons_self
    exact h w _ (hwalk.reached w hw) .first hsame ▸ hw
  | @included v w hv hincludes ih =>
    obtain ⟨u, hu, hsame⟩ := hwalk.exists_same_of_includes v ih List.not_mem_nil w hincludes
    exact h u w (hwalk.reached u hu) (hv.included hincludes) hsame ▸ hu

end

/-- The scan of a document makes the readings of its one walk, each of another file, and has exactly
what these give. It has exactly what all readings that are reached give if and only if those that
the walk leaves out, since their file was read before, refer to nothing else. So it is if no file is
reached for two directories. -/
theorem scan_complete_iff (t : Tree) (document : Path) :
    ∃ readings, (∀ l, Walk t [] [.first document] l ↔ l = readings) ∧
      (∀ v ∈ readings, Reached t document v) ∧
      (readings.Pairwise fun v w => ¬v.source.Same w.source) ∧
      Describes t (· ∈ readings) (scan t document) ∧
      (Describes t (Reached t document) (scan t document) ↔
        ∀ v, Reached t document v → v ∉ readings → ∀ r ∈ v.references t,
          (scan t document).Lists r.kind (v.target r)) ∧
      ((∀ v w, Reached t document v → Reached t document w → v.source.Same w.source → v = w) →
        Describes t (Reached t document) (scan t document)) := by
  obtain ⟨readings, hwalk, hscan⟩ := describes_walk t document
  have hunique : ∀ l, Walk t [] [.first document] l ↔ l = readings :=
    fun l => ⟨fun hl => hl.unique hwalk, fun hl => hl ▸ hwalk⟩
  have hiff := describes_reached_iff hwalk hscan
  refine ⟨readings, hunique, hwalk.reached, hwalk.pairwise .nil, hscan, hiff, fun h => ?_⟩
  exact hiff.2 fun v hv hleft => absurd (hwalk.mem_of_reached h hv) hleft

/-! ## A file that is imported after it was read -/

/-- A document that includes a file as it is, and then imports it from its directory. -/
def Tree.importing : Tree :=
  (((Tree.bare []).put ["sub"] .directory).put ["main.tex"]
    (.file "\\input\x7bsub/part\x7d\\import\x7bsub/\x7d\x7bpart\x7d".toUTF8)).put
    ["sub", "part.tex"] (.file "\\includegraphics\x7bfig\x7d".toUTF8)

/-- The figure of the import is `sub/fig.pdf`, but the scan has only `fig.pdf`. -/
theorem scan_misses_imported :
    ¬Describes Tree.importing (Reached Tree.importing ⟨"main.tex"⟩)
      (scan Tree.importing ⟨"main.tex"⟩) := by
  intro h
  have hpart : Reached Tree.importing ⟨"main.tex"⟩ ⟨⟨"sub/part.tex"⟩, ⟨"sub"⟩⟩ :=
    .included .first (by decide +kernel)
  have hfigure : plain .graphics "fig".toList ∈
      (⟨⟨"sub/part.tex"⟩, ⟨"sub"⟩⟩ : Reading).references Tree.importing := by decide +kernel
  have hlisted := (h.implicit ⟨"sub/fig.pdf"⟩).2
    ⟨_, hpart, _, hfigure, nofun, by decide +kernel⟩
  exact absurd hlisted (by decide +kernel)

end Latex
end DocGraph
