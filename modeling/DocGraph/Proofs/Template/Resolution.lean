import DocGraph.Proofs.Path.Join
import DocGraph.Template

/-!
# DocGraph.Proofs.Template.Resolution

The names that paths of configuration files get.

* `Template.Expands`      — a path as it stands in a file of a directory, and its expansion.
* `Template.location`     — where an expansion leads, from the root of the file system.
* `resolvePath_eq`        — the name is the path from the project root, with the slash at its end.
* `resolvePath_denotes`   — the name leads to where the expansion leads.
* `Template.Detours`      — an expansion that goes up further than it has to.
* `resolvePath_one_name`  — of expansions that lead to one place, those without a detour get one name
  and those with one get others.
-/

namespace DocGraph
namespace Template

open Component DocGraph.Path

/-- A path of a configuration file in the directory `here` below the project root `root`, and what it
expands to. -/
structure Expands (v : Lookup) (root here : Path) (path : String) (e : Path) : Prop where
  absolute : root.isAbsolute = true
  relative : here.isAbsolute = false
  root_eq : v "root" = some root.text
  here_eq : v "here" = some here.text
  expanded : substituteKeepingWildcards path v = .ok e.text

/-- Where an expansion in the directory `here` leads, from the root of the file system. -/
def location (root here e : Path) : Path := ((root.join here).join e).normalize

/-- The path from the project root to where an expansion leads. -/
def resolved (root here e : Path) : Path :=
  if e.isAbsolute then e.relativeTo root else (here.join e).normalize

section

variable {v : Lookup} {root here e : Path} {path : String}

theorem canonical_resolved (hroot : root.isAbsolute = true) (hhere : here.isAbsolute = false) :
    (resolved root here e).Canonical := by
  rw [resolved]
  split
  · next he => exact canonical_relativeTo he hroot
  · next he =>
    rw [Bool.not_eq_true] at he
    exact canonical_normalize ((isAbsolute_join he).trans hhere)

theorem location_of_isAbsolute (he : e.isAbsolute = true) : location root here e = e.normalize := by
  rw [location, join, if_pos he]

theorem location_eq (root here e : Path) : location root here e = (root.join (here.join e)).normalize :=
  normalize_join_assoc root here e

theorem normalize_join_resolved (hroot : root.isAbsolute = true) :
    (root.join (resolved root here e)).normalize = location root here e := by
  rw [resolved]
  split
  · next he => rw [normalize_join_relativeTo he hroot, location_of_isAbsolute he]
  · rw [location_eq]
    exact normalize_join_congr rfl (reduce_components_normalize _)

/-- The path from the project root, with a slash at its end if the expansion has one. -/
def assigned (root here e : Path) : Path :=
  if e.isDirLike then ⟨(resolved root here e).text ++ "/"⟩ else resolved root here e

/-- The name that a path gets is the path from the project root, with the slash of the expansion. -/
theorem resolvePath_eq (h : Expands v root here path e) :
    resolvePath path v = .ok (assigned root here e).text := by
  have hslash := (canonical_resolved h.absolute h.relative (e := e)).isDirLike
  have hassigned {joined : Path} (hjoined : joined.normalize = resolved root here e) :
      (if Text.endsWith '/' e.text && !joined.normalize.isDirLike then joined.normalize.text ++ "/"
        else joined.normalize.text) = (assigned root here e).text := by
    change (if e.isDirLike && _ then _ else _) = _
    rw [hjoined, hslash, assigned, Bool.not_false, Bool.and_true]
    split <;> rfl
  simp only [resolvePath, h.expanded, h.root_eq, h.here_eq, bind, Except.bind, Except.map, pure,
    Except.pure]
  split
  · next he =>
    refine congrArg Except.ok (hassigned ?_)
    rw [resolved, if_pos he]
    exact (canonical_relativeTo he h.absolute).normal
  · next he =>
    refine congrArg Except.ok (hassigned ?_)
    rw [resolved, if_neg he]

theorem join_empty {p : Path} (h : p.Canonical) : p.join ⟨""⟩ = ⟨p.text ++ "/"⟩ := by
  have hempty : p.text.isEmpty = false := by
    rw [← Bool.not_eq_true, String.isEmpty_iff, ← String.toList_eq_nil_iff]
    exact ne_nil_of_nil_notMem h.nil_notMem_pieces
  rw [join, hempty, h.isDirLike]
  simp [Path.isAbsolute]

theorem isDirLike_assigned (h : Expands v root here path e) :
    (assigned root here e).isDirLike = e.isDirLike := by
  rw [assigned]
  cases he : e.isDirLike with
  | true => simp [Path.isDirLike, Text.endsWith]
  | false => exact (canonical_resolved h.absolute h.relative).isDirLike

theorem isAbsolute_assigned (h : Expands v root here path e) :
    (assigned root here e).isAbsolute = false := by
  have hcanonical := canonical_resolved h.absolute h.relative (e := e)
  rw [assigned]
  split
  · rw [← join_empty hcanonical, isAbsolute_join rfl]
    exact hcanonical.relative
  · exact hcanonical.relative

/-- The slash at its end makes no difference to where a name leads. -/
theorem normalize_join_assigned (h : Expands v root here path e) :
    (root.join (assigned root here e)).normalize = location root here e := by
  rw [← normalize_join_resolved h.absolute, assigned]
  split
  · rw [← join_empty (canonical_resolved h.absolute h.relative), ← normalize_join_assoc]
    refine normalize_congr ?_
    rw [reduce_components_join]
    exact congrArg reduce (List.append_nil _)
  · rfl

end

/-- By its name one comes from the project root to where the expansion leads, and the name ends with a
slash if the expansion does. -/
theorem resolvePath_denotes :
    (∀ p base : Path, p.isAbsolute = true → base.isAbsolute = true →
      (base.join (p.relativeTo base)).normalize = p.normalize) ∧
    ∀ (v : Lookup) (root here : Path) (path : String) (e : Path), Expands v root here path e →
      ∃ r : Path, resolvePath path v = .ok r.text ∧ r.isAbsolute = false ∧
        (e.isAbsolute = true → (root.join r).normalize = e.normalize) ∧
        (e.isAbsolute = false →
          (root.join r).normalize = ((root.join here).join e).normalize) ∧
        (r.isDirLike = true ↔ e.isDirLike = true) := by
  refine ⟨fun _ _ => normalize_join_relativeTo, fun v root here path e h =>
    ⟨assigned root here e, resolvePath_eq h, isAbsolute_assigned h, fun he => ?_, fun _ => ?_, ?_⟩⟩
  · rw [normalize_join_assigned h, location_of_isAbsolute he]
  · rw [normalize_join_assigned h, location]
  · rw [isDirLike_assigned h]

/-- A path that climbs above the root of the file system, by a variable and doubled slashes. -/
theorem resolvePath_denotes_climbing :
    let v := Variables.lookup
      (Table.ofPairs [("here", "sub/./a"), ("root", "/p//q"), ("up", "../..")])
    let root : Path := ⟨"/p//q"⟩
    let e : Path := ⟨"../../../../../${*x}//"⟩
    Expands v root ⟨"sub/./a"⟩ "$up/../../../${*x}//" e ∧
      (root.join (Path.relativeTo ⟨"/p/./q/../r"⟩ root)).normalize = ⟨"/p/r"⟩ ∧
      ∃ r : Path, resolvePath "$up/../../../${*x}//" v = .ok r.text ∧
        (root.join r).normalize = ⟨"/${*x}"⟩ ∧ r.isDirLike = true := by
  intro v root e
  have hexpands : Expands v root ⟨"sub/./a"⟩ "$up/../../../${*x}//" e := by
    constructor <;> decide +kernel
  obtain ⟨hlaw, hdenotes⟩ := resolvePath_denotes
  obtain ⟨r, hr, -, -, hplace, hslash⟩ := hdenotes v root _ _ e hexpands
  refine ⟨hexpands, ?_, r, hr, ?_, hslash.2 (by decide)⟩
  · rw [hlaw _ root (by decide) (by decide)]
    decide +kernel
  · rw [hplace (by decide)]
    decide +kernel

/-! ## One name for one place -/

/-- A name without a slash at its end. -/
def withoutSlash (name : String) : String :=
  if Text.endsWith '/' name then String.ofList name.toList.dropLast else name

/-- A relative expansion that goes up further than it has to: above the root of the file system, or
out of a directory above the project that it enters again by name. -/
def Detours (root here e : Path) : Prop := e.isAbsolute = false ∧ root.Returns (here.join e)

instance (root here e : Path) : Decidable (Detours root here e) :=
  inferInstanceAs (Decidable (_ ∧ _))

theorem withoutSlash_assigned {v : Lookup} {root here e : Path} {path : String}
    (h : Expands v root here path e) :
    withoutSlash (assigned root here e).text = (resolved root here e).text := by
  have hslash : Text.endsWith '/' (assigned root here e).text = e.isDirLike := isDirLike_assigned h
  rw [withoutSlash, hslash, assigned]
  split
  · simp
  · rfl

/-- Without a detour, the path is the one from the project root to the place. -/
theorem resolved_eq_iff {v : Lookup} {root here e : Path} {path : String}
    (h : Expands v root here path e) :
    resolved root here e = (location root here e).relativeTo root ↔ ¬Detours root here e := by
  rw [Detours, resolved]
  cases he : e.isAbsolute with
  | true =>
    rw [location_of_isAbsolute he, if_pos rfl, relativeTo_normalize]
    exact iff_of_true rfl nofun
  | false =>
    rw [location_eq, if_neg Bool.false_ne_true, relativeTo_normalize,
      normalize_eq_relativeTo_iff h.absolute ((isAbsolute_join he).trans h.relative)]
    simp

/-- Of two expansions that lead to one place, the first without a detour, the second gets the same name
exactly if it makes no detour either. -/
theorem resolvePath_one_name {v₁ v₂ : Lookup} {root here₁ here₂ e₁ e₂ : Path} {path₁ path₂ : String}
    (h₁ : Expands v₁ root here₁ path₁ e₁) (h₂ : Expands v₂ root here₂ path₂ e₂)
    (hplace : location root here₁ e₁ = location root here₂ e₂)
    (hdirect : ¬Detours root here₁ e₁) :
    ∃ r₁ r₂, resolvePath path₁ v₁ = .ok r₁ ∧ resolvePath path₂ v₂ = .ok r₂ ∧
      (withoutSlash r₁ = withoutSlash r₂ ↔ ¬Detours root here₂ e₂) := by
  refine ⟨_, _, resolvePath_eq h₁, resolvePath_eq h₂, ?_⟩
  rw [withoutSlash_assigned h₁, withoutSlash_assigned h₂, ← resolved_eq_iff h₂, ← hplace,
    ← (resolved_eq_iff h₁).2 hdirect]
  constructor
  · intro h
    exact (congrArg Path.mk h).symm
  · intro h
    rw [h]

/-- The place of a file in another project by an absolute path, and by a relative one with a slash. -/
theorem resolvePath_one_name_sibling :
    let v := Variables.lookup (Table.ofPairs [("here", "sub"), ("root", "/p/q")])
    Expands v ⟨"/p/q"⟩ ⟨"sub"⟩ "$root/../r/a" ⟨"/p/q/../r/a"⟩ ∧
      Expands v ⟨"/p/q"⟩ ⟨"sub"⟩ "./../../r//a/" ⟨"./../../r//a/"⟩ ∧
      ∃ r₁ r₂, resolvePath "$root/../r/a" v = .ok r₁ ∧ resolvePath "./../../r//a/" v = .ok r₂ ∧
        withoutSlash r₁ = withoutSlash r₂ := by
  intro v
  have h₁ : Expands v ⟨"/p/q"⟩ ⟨"sub"⟩ "$root/../r/a" ⟨"/p/q/../r/a"⟩ := by
    constructor <;> decide +kernel
  have h₂ : Expands v ⟨"/p/q"⟩ ⟨"sub"⟩ "./../../r//a/" ⟨"./../../r//a/"⟩ := by
    constructor <;> decide +kernel
  obtain ⟨r₁, r₂, hr₁, hr₂, hsame⟩ :=
    resolvePath_one_name h₁ h₂ (by decide +kernel) (by decide +kernel)
  exact ⟨h₁, h₂, r₁, r₂, hr₁, hr₂, hsame.2 (by decide +kernel)⟩

/-- A path out of the project and back into it leads to a file of the project under another name. -/
theorem resolvePath_detour :
    ¬∀ (v₁ v₂ : Lookup) (root here₁ here₂ : Path) (path₁ path₂ : String) (e₁ e₂ : Path),
      Expands v₁ root here₁ path₁ e₁ → Expands v₂ root here₂ path₂ e₂ →
      location root here₁ e₁ = location root here₂ e₂ →
      ∃ r₁ r₂, resolvePath path₁ v₁ = .ok r₁ ∧ resolvePath path₂ v₂ = .ok r₂ ∧
        withoutSlash r₁ = withoutSlash r₂ := by
  intro h
  let v := Variables.lookup (Table.ofPairs [("here", "."), ("root", "/p")])
  obtain ⟨r₁, r₂, hr₁, hr₂, hsame⟩ := h v v ⟨"/p"⟩ ⟨"."⟩ ⟨"."⟩ "../p/a" "a" ⟨"../p/a"⟩ ⟨"a"⟩
    (by constructor <;> decide +kernel) (by constructor <;> decide +kernel) (by decide +kernel)
  have h₁ : resolvePath "../p/a" v = .ok "../p/a" := by decide +kernel
  have h₂ : resolvePath "a" v = .ok "a" := by decide +kernel
  rw [h₁] at hr₁
  rw [h₂] at hr₂
  cases hr₁
  cases hr₂
  exact absurd hsame (by decide)

end Template
end DocGraph
