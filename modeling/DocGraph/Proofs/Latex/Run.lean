import DocGraph.Proofs.Latex.Walk

/-!
# DocGraph.Proofs.Latex.Run

The scan of a LaTeX document, request by request.

* `Request` — a question about the files: whether a path leads to one, or what is in it.
* `Run`     — `Run files s todo asked last` is the way from the scan `s` through everything that is to
  be done to `last`, with the requests that are made on it.
* `exists_run` — there is a way if finitely many paths lead to files: every file that is read is one
  fewer of those that have yet to be looked at, for what it includes and for all that comes behind it.
* `Run.unique`, `Run.reads_eq`, `Run.noted` — there is only one, it reads what is there, and no path
  is tested twice.
* `Run.exists_levels` — with enough levels the scan is where the way leads.
* `scan_ends` — so it ends, whatever files include each other, and reads none of them twice.

Files are told apart by their paths, and paths are compared component by component.
-/

namespace DocGraph
namespace Latex

/-- What the paths of files lead to. -/
abbrev Files := Path → Option ByteArray

/-- What a scan asks of the files. -/
inductive Request where
  /-- Whether there is a file. -/
  | test (path : Path)
  /-- What is in it. -/
  | read (path : Path)
deriving DecidableEq

namespace Request

def test? : Request → Option Path
  | test p => some p
  | read _ => none

def read? : Request → Option Path
  | test _ => none
  | read p => some p

end Request

/-- The paths that were tested, in order. -/
def tests (asked : List Request) : List Path := asked.filterMap Request.test?

/-- The paths that were read, in order. -/
def reads (asked : List Request) : List Path := asked.filterMap Request.read?

@[simp] theorem tests_test (p : Path) (asked : List Request) :
    tests (.test p :: asked) = p :: tests asked := rfl

@[simp] theorem tests_read (p : Path) (asked : List Request) :
    tests (.read p :: asked) = tests asked := rfl

@[simp] theorem tests_append (asked asked' : List Request) :
    tests (asked ++ asked') = tests asked ++ tests asked' := List.filterMap_append

@[simp] theorem reads_test (p : Path) (asked : List Request) :
    reads (.test p :: asked) = reads asked := rfl

@[simp] theorem reads_read (p : Path) (asked : List Request) :
    reads (.read p :: asked) = p :: reads asked := rfl

@[simp] theorem reads_append (asked asked' : List Request) :
    reads (asked ++ asked') = reads asked ++ reads asked' := List.filterMap_append

/-- What a scan has to do. -/
inductive Job where
  /-- Look at a source. -/
  | look (v : Reading)
  /-- Go where a reference of a source leads. -/
  | follow (v : Reading) (r : Reference)

/-- The scan with what a reference leads to. -/
def Scan.note (s : Scan) (v : Reading) (r : Reference) : Scan :=
  match r.kind with
  | .bibliography => { s with bib := s.bib.insert (v.target r) }
  | _ => { s with implicit := s.implicit.insert (v.target r) }

/-- The way of a scan through what it has to do, and the requests on it. What a source includes comes
before all that stands behind it. -/
inductive Run (files : Files) : Scan → List Job → List Request → Scan → Prop where
  | done {s : Scan} : Run files s [] [] s
  | again {s last : Scan} {v : Reading} {todo : List Job} {asked : List Request}
      (hseen : s.gendeps.contains v.source.components = true)
      (hrest : Run files s todo asked last) : Run files s (.look v :: todo) asked last
  | absent {s last : Scan} {v : Reading} {todo : List Job} {asked : List Request}
      (hnew : s.gendeps.contains v.source.components = false) (hnone : files v.source = none)
      (hrest : Run files (s.visit v.source) todo asked last) :
      Run files s (.look v :: todo) (.test v.source :: asked) last
  | read {s mid last : Scan} {v : Reading} {todo : List Job} {inside asked : List Request}
      {content : ByteArray} (hnew : s.gendeps.contains v.source.components = false)
      (hsome : files v.source = some content)
      (hinside : Run files (s.visit v.source)
        ((references (Text.decodeLossy content)).map (.follow v)) inside mid)
      (hrest : Run files mid todo asked last) :
      Run files s (.look v :: todo) (.test v.source :: .read v.source :: (inside ++ asked)) last
  | follow {s last : Scan} {v : Reading} {r : Reference} {todo : List Job} {asked : List Request}
      (hrest : Run files (s.note v r) ((v.included? r).toList.map .look ++ todo) asked last) :
      Run files s (.follow v r :: todo) asked last

/-- A scan of a document ends with `s`. It is known what it asks on the way; it reads what is there of
the paths it tests, none of them twice, and notes all of these. -/
structure Ends (files : Files) (document : Path) (asked : List Request) (s : Scan) : Prop where
  run : Run files .empty [.look (.first document)] asked s
  unique : ∀ asked' s', Run files .empty [.look (.first document)] asked' s' →
    asked' = asked ∧ s' = s
  reads_eq : reads asked = (tests asked).filter fun p => (files p).isSome
  once : (reads asked).Pairwise fun p q => ¬p.Same q
  tested : ∀ p ∈ tests asked, p ∈ s.gendeps

/-! ## What is asked on the way -/

namespace Run

variable {files : Files} {s last : Scan} {todo : List Job} {asked : List Request}

theorem unique (h : Run files s todo asked last) {asked' : List Request} {last' : Scan}
    (h' : Run files s todo asked' last') : asked' = asked ∧ last' = last := by
  induction h generalizing asked' last' with
  | done =>
    cases h'
    exact ⟨rfl, rfl⟩
  | again hseen _ ih =>
    cases h' with
    | again _ hrest => exact ih hrest
    | absent hnew => rw [hseen] at hnew; cases hnew
    | read hnew => rw [hseen] at hnew; cases hnew
  | absent hnew hnone _ ih =>
    cases h' with
    | again hseen => rw [hnew] at hseen; cases hseen
    | absent _ _ hrest =>
      obtain ⟨rfl, rfl⟩ := ih hrest
      exact ⟨rfl, rfl⟩
    | read _ hsome => rw [hnone] at hsome; cases hsome
  | read hnew hsome _ _ ihinside ihrest =>
    cases h' with
    | again hseen => rw [hnew] at hseen; cases hseen
    | absent _ hnone => rw [hsome] at hnone; cases hnone
    | read _ hsome' hinside hrest =>
      obtain rfl := Option.some.inj (hsome.symm.trans hsome')
      obtain ⟨rfl, rfl⟩ := ihinside hinside
      obtain ⟨rfl, rfl⟩ := ihrest hrest
      exact ⟨rfl, rfl⟩
  | follow _ ih =>
    cases h' with
    | follow hrest => exact ih hrest

/-- What is there of the paths that are tested is read. -/
theorem reads_eq (h : Run files s todo asked last) :
    reads asked = (tests asked).filter fun p => (files p).isSome := by
  induction h with
  | done => rfl
  | again _ _ ih => exact ih
  | absent _ hnone _ ih => simpa [hnone] using ih
  | read _ hsome _ _ ihinside ihrest => simp [hsome, ihinside, ihrest]
  | follow _ ih => exact ih

theorem grows_note (s : Scan) (v : Reading) (r : Reference) : s.Grows (s.note v r) := by
  unfold Scan.note
  split <;> exact .refl _

theorem grows (h : Run files s todo asked last) : s.Grows last := by
  induction h with
  | done => exact .refl _
  | again _ _ ih => exact ih
  | absent _ _ _ ih => exact (Scan.grows_visit _ _).trans ih
  | read _ _ _ _ ihinside ihrest =>
    exact (Scan.grows_visit _ _).trans (ihinside.trans ihrest)
  | follow _ ih => exact (grows_note _ _ _).trans ih

end Run

/-! ## What is tested -/

/-- Paths that are noted on the way from one scan to another, each for the first time. -/
structure Noted (s last : Scan) (l : List Path) : Prop where
  distinct : l.Pairwise fun p q => ¬p.Same q
  new : ∀ p ∈ l, s.gendeps.contains p.components = false
  noted : ∀ p ∈ l, p ∈ last.gendeps

namespace Noted

variable {s s' mid last : Scan} {l l' : List Path} {p : Path}

theorem contains_of_grows (h : s.Grows s') {cs : List Component}
    (hnew : s'.gendeps.contains cs = false) : s.gendeps.contains cs = false := by
  rw [Bool.eq_false_iff] at hnew ⊢
  intro hcontains
  obtain ⟨p, hp, hcs⟩ := SortedBy.contains_iff.1 hcontains
  exact hnew (SortedBy.contains_iff.2 ⟨p, h p hp, hcs⟩)

theorem not_same (h : Noted mid last l) (hp : p ∈ mid.gendeps) : ∀ q ∈ l, ¬p.Same q := by
  intro q hq hsame
  have hnew := h.new q hq
  rw [SortedBy.contains_iff.2 ⟨p, hp, hsame⟩] at hnew
  cases hnew

theorem of_grows (h : Noted s' last l) (hs : s.Grows s') : Noted s last l :=
  ⟨h.distinct, fun p hp => contains_of_grows hs (h.new p hp), h.noted⟩

theorem cons (hnew : s.gendeps.contains p.components = false) (hlast : (s.visit p).Grows last)
    (h : Noted (s.visit p) last l) : Noted s last (p :: l) := by
  have hp : p ∈ (s.visit p).gendeps := Scan.mem_visit hnew
  have hback := h.of_grows (s.grows_visit p)
  exact ⟨List.pairwise_cons.2 ⟨h.not_same hp, h.distinct⟩,
    List.forall_mem_cons.2 ⟨hnew, hback.new⟩, List.forall_mem_cons.2 ⟨hlast p hp, h.noted⟩⟩

theorem append (h : Noted s mid l) (h' : Noted mid last l') (hmid : s.Grows mid)
    (hlast : mid.Grows last) : Noted s last (l ++ l') := by
  refine ⟨List.pairwise_append.2 ⟨h.distinct, h'.distinct, fun p hp => ?_⟩,
    List.forall_mem_append.2 ⟨h.new, (h'.of_grows hmid).new⟩,
    List.forall_mem_append.2 ⟨fun p hp => hlast p (h.noted p hp), h'.noted⟩⟩
  exact h'.not_same (h.noted p hp)

end Noted

theorem Run.noted {files : Files} {s last : Scan} {todo : List Job} {asked : List Request}
    (h : Run files s todo asked last) : Noted s last (tests asked) := by
  induction h with
  | done => exact ⟨.nil, nofun, nofun⟩
  | again _ _ ih => exact ih
  | absent hnew _ hrest ih => exact ih.cons hnew hrest.grows
  | read hnew _ hinside hrest ihinside ihrest =>
    have hboth := ihinside.append ihrest hinside.grows hrest.grows
    rw [← tests_append] at hboth
    exact hboth.cons hnew (hinside.grows.trans hrest.grows)
  | follow _ ih => exact ih.of_grows (grows_note _ _ _)

/-! ## Levels -/

/-- What a scan does next, at most so many levels deep. -/
def perform (t : Tree) (n : Nat) (s : Scan) : Job → Scan
  | .look v => scanFrom t n s v.source v.directory
  | .follow v r => Latex.follow (scanFrom t n) v.directory s r

theorem perform_follow (t : Tree) (n : Nat) (s : Scan) (v : Reading) (r : Reference) :
    perform t n s (.follow v r) =
      ((v.included? r).toList.map Job.look).foldl (perform t n) (s.note v r) := by
  cases hkind : r.kind with
  | source =>
    obtain ⟨w, hw, hsource, hdirectory⟩ := v.exists_included? hkind
    rw [perform, follow_source hkind, hw, Scan.note, hkind]
    simp only [Option.toList_some, List.map_cons, List.map_nil, List.foldl_cons, List.foldl_nil,
      perform, ← hsource, ← hdirectory]
    rfl
  | graphics =>
    rw [perform, Latex.follow, Reading.included?_eq_none (by rw [hkind]; decide), Scan.note, hkind]
    rfl
  | bibliography =>
    rw [perform, Latex.follow, Reading.included?_eq_none (by rw [hkind]; decide), Scan.note, hkind]
    rfl

/-- With enough levels a scan is where its way leads. -/
theorem Run.exists_levels {t : Tree} {s last : Scan} {todo : List Job} {asked : List Request}
    (h : Run t.read? s todo asked last) :
    ∃ levels, ∀ n ≥ levels, todo.foldl (perform t n) s = last := by
  induction h with
  | done => exact ⟨0, fun _ _ => rfl⟩
  | again hseen _ ih =>
    obtain ⟨levels, ih⟩ := ih
    refine ⟨levels + 1, fun n hn => ?_⟩
    obtain ⟨m, rfl⟩ := Nat.exists_eq_add_of_le' (Nat.le_of_add_left_le hn)
    rw [List.foldl_cons, perform, scanFrom_succ, if_pos hseen]
    exact ih _ (by omega)
  | absent hnew hnone _ ih =>
    obtain ⟨levels, ih⟩ := ih
    refine ⟨levels + 1, fun n hn => ?_⟩
    obtain ⟨m, rfl⟩ := Nat.exists_eq_add_of_le' (Nat.le_of_add_left_le hn)
    rw [List.foldl_cons, perform, scanFrom_succ, hnew, hnone]
    exact ih _ (by omega)
  | @read s mid last v todo inside asked content hnew hsome _ _ ihinside ihrest =>
    obtain ⟨levels, ihinside⟩ := ihinside
    obtain ⟨levels', ihrest⟩ := ihrest
    refine ⟨levels + levels' + 1, fun n hn => ?_⟩
    obtain ⟨m, rfl⟩ := Nat.exists_eq_add_of_le' (Nat.le_of_add_left_le hn)
    have hmid : (references (Text.decodeLossy content)).foldl
        (Latex.follow (scanFrom t m) v.directory) (s.visit v.source) = mid := by
      rw [← ihinside m (by omega), List.foldl_map]
      rfl
    rw [List.foldl_cons, perform, scanFrom_succ, hnew, hsome]
    rw [if_neg Bool.false_ne_true]
    dsimp only
    rw [hmid]
    exact ihrest _ (by omega)
  | follow _ ih =>
    obtain ⟨levels, ih⟩ := ih
    refine ⟨levels, fun n hn => ?_⟩
    rw [List.foldl_cons, perform_follow, ← List.foldl_append]
    exact ih n hn

/-! ## The end -/

/-- Finitely many normal paths lead to files. -/
def Files.Within (files : Files) (known : List (List Component)) : Prop :=
  ∀ p : Path, (files p.normalize).isSome → p.normalize.components ∈ known

/-- The sources to look at are written as normal paths. -/
def Job.IsNormal : Job → Prop
  | .look v => ∃ p : Path, v.source = p.normalize
  | .follow _ _ => True

theorem Run.append {files : Files} {s mid last : Scan} {todo todo' : List Job}
    {asked asked' : List Request} (h : Run files s todo asked mid)
    (h' : Run files mid todo' asked' last) : Run files s (todo ++ todo') (asked ++ asked') last := by
  induction h with
  | done => exact h'
  | again hseen _ ih => exact .again hseen (ih h')
  | absent hnew hnone _ ih => exact .absent hnew hnone (ih h')
  | read hnew hsome hinside _ _ ih =>
    have hrest := Run.read hnew hsome hinside (ih h')
    rwa [← List.append_assoc] at hrest
  | follow _ ih =>
    have hrest := ih h'
    rw [List.append_assoc] at hrest
    exact .follow hrest

/-- A source can be looked at if everything can be followed that it refers to. -/
theorem exists_run_look {files : Files} {s : Scan} {v : Reading}
    (h : s.gendeps.contains v.source.components = false → ∀ content,
      files v.source = some content → ∃ inside mid, Run files (s.visit v.source)
        ((references (Text.decodeLossy content)).map (.follow v)) inside mid) :
    ∃ asked last, Run files s [.look v] asked last := by
  cases hnew : s.gendeps.contains v.source.components with
  | true => exact ⟨_, _, .again hnew .done⟩
  | false =>
    cases hsome : files v.source with
    | none => exact ⟨_, _, .absent hnew hsome .done⟩
    | some content =>
      obtain ⟨inside, mid, hinside⟩ := h hnew content hsome
      exact ⟨_, _, .read hnew hsome hinside .done⟩

section

variable {files : Files} {known : List (List Component)}

/-- A reference can be followed if the source can be looked at that it leads to. -/
theorem exists_run_follow {s : Scan} {v : Reading} {r : Reference}
    (h : ∀ w, v.included? r = some w → ∃ asked last, Run files (s.note v r) [.look w] asked last) :
    ∃ asked last, Run files s [.follow v r] asked last := by
  cases hw : v.included? r with
  | none => exact ⟨_, _, .follow (by rw [hw]; exact .done)⟩
  | some w =>
    obtain ⟨asked, last, hrun⟩ := h w hw
    exact ⟨asked, last, .follow (by rw [hw]; exact hrun)⟩

/-- Whatever there is to do comes to its end, if the sources are normal paths. -/
theorem exists_run (hfiles : files.Within known) {n : Nat} {s : Scan}
    (hn : (pending known s).length < n) {todo : List Job} (htodo : ∀ j ∈ todo, j.IsNormal) :
    ∃ asked last, Run files s todo asked last := by
  induction n generalizing s todo with
  | zero => exact absurd hn (Nat.not_lt_zero _)
  | succ n ih =>
    have hlook {s : Scan} (hs : (pending known s).length < n + 1) {v : Reading}
        (hv : (Job.look v).IsNormal) : ∃ asked last, Run files s [.look v] asked last := by
      refine exists_run_look fun hnew content hsome => ih ?_ ?_
      · -- the file itself is looked at, so one fewer is left for what it includes
        obtain ⟨p, hp⟩ := hv
        have hknown : v.source.components ∈ known := by
          rw [hp] at hsome ⊢
          exact hfiles p (by rw [hsome]; rfl)
        have hvisit := length_pending_visit_lt hnew hknown
        omega
      · intro j hj
        obtain ⟨r, -, rfl⟩ := List.mem_map.1 hj
        trivial
    induction todo generalizing s with
    | nil => exact ⟨_, _, .done⟩
    | cons j todo ihtodo =>
      rw [List.forall_mem_cons] at htodo
      have hfirst : ∃ asked mid, Run files s [j] asked mid := by
        cases j with
        | look v => exact hlook hn htodo.1
        | follow v r =>
          have hnote := length_pending_le known (Run.grows_note s v r)
          exact exists_run_follow fun w hw => hlook (by omega) (Reading.exists_normalize hw)
      obtain ⟨asked, mid, hmid⟩ := hfirst
      have hmore := length_pending_le known hmid.grows
      obtain ⟨asked', last, hrest⟩ := ihtodo (s := mid) (by omega) htodo.2
      exact ⟨_, _, hmid.append hrest⟩

/-- So does the scan of a document, whose own path need not be normal. -/
theorem exists_ends (hfiles : files.Within known) (document : Path) :
    ∃ asked s, Ends files document asked s := by
  obtain ⟨asked, s, hrun⟩ : ∃ asked s, Run files .empty [.look (.first document)] asked s := by
    refine exists_run_look fun _ content _ => exists_run hfiles (Nat.lt_succ_self _) ?_
    intro j hj
    obtain ⟨r, -, rfl⟩ := List.mem_map.1 hj
    trivial
  refine ⟨asked, s, hrun, fun _ _ h => hrun.unique h, hrun.reads_eq, ?_, hrun.noted.noted⟩
  rw [hrun.reads_eq]
  exact hrun.noted.distinct.sublist List.filter_sublist

end

theorem within_table (files : Table ByteArray) :
    Files.Within (fun p => files.get? p.text)
      (files.keys.map fun text => (Path.mk text).components) := by
  intro p hp
  exact List.mem_map.2 ⟨_, Table.mem_keys_iff.2 hp, rfl⟩

theorem eq_scan_of_ends {t : Tree} {document : Path} {asked : List Request} {s : Scan}
    (h : Ends t.read? document asked s) : s = scan t document := by
  obtain ⟨levels, hlevels⟩ := h.run.exists_levels
  rw [scan_eq (Nat.le_max_left (longestChain t) levels) document]
  exact (hlevels _ (Nat.le_max_right _ _)).symm

/-- The scan of a document ends, whatever finitely many files there are and however they include each
other, and so it does in a tree. It reads each file at most once, and notes every path whose file it
asks for. -/
theorem scan_ends (document : Path) :
    (∀ files : Table ByteArray, ∃ asked s,
      Ends (fun p => files.get? p.text) document asked s) ∧
    ∀ t : Tree, ∃ asked, Ends t.read? document asked (scan t document) := by
  refine ⟨fun files => exists_ends (within_table files) document, fun t => ?_⟩
  have hfiles : Files.Within t.read? t.spellings := fun p hp => Tree.mem_spellings_of_read? hp
  obtain ⟨asked, s, hends⟩ := exists_ends hfiles document
  exact ⟨asked, eq_scan_of_ends hends ▸ hends⟩

end Latex
end DocGraph
