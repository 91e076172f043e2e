import DocGraph.Config.Scope
import DocGraph.Ordered.Lemmas
import DocGraph.Proofs.Outcome

/-!
# DocGraph.Proofs.Config.Scope

What a scope takes from where.

* `defineAll`      — definitions in a row, of which the first of a name counts.
* `get?_of_defineAll` — the value of such a definition. It is expanded with what was defined before
  it, and with what is inherited.
* `Scope.Lexical`  — where the variables and the commands of a scope come from.
* `lexical_of_enter` — the scope of a directory is lexical.
-/

namespace DocGraph
namespace Scope

/-! ## Definitions in a row -/

/-- Define variables in order. -/
def defineAll (inherited vars : Variables) (defs : List (String × String)) :
    Except ConfigError Variables :=
  defs.foldlM (fun vars e => define inherited vars e.1 e.2) vars

variable {inherited vars vars' : Variables} {name text : String} {defs : List (String × String)}

theorem define_cases (h : define inherited vars name text = .ok vars') :
    (∃ value, vars.get? name = some value) ∧ vars' = vars ∨
      vars.get? name = none ∧ ∃ value,
        Template.substitute text (Variables.layered vars inherited) = .ok value ∧
          vars' = vars.set name value := by
  have hcontains : vars.contains name = (vars.get? name).isSome := by
    rw [Table.get?, Option.isSome_map, SortedBy.contains_eq_isSome]
  rw [define, hcontains] at h
  cases hname : vars.get? name with
  | some value =>
    rw [hname] at h
    cases h
    exact .inl ⟨⟨value, rfl⟩, rfl⟩
  | none =>
    rw [hname] at h
    dsimp only [Option.isSome_none] at h
    rw [if_neg Bool.false_ne_true] at h
    split at h
    · next value hvalue =>
      cases h
      exact .inr ⟨rfl, value, hvalue, rfl⟩
    · cases h

theorem get?_of_define (h : define inherited vars name text = .ok vars') {n : String}
    (hn : n ≠ name ∨ (vars.get? n).isSome) : vars'.get? n = vars.get? n := by
  obtain ⟨-, rfl⟩ | ⟨hname, value, -, rfl⟩ := define_cases h
  · rfl
  · rw [Table.get?_set]
    refine if_neg ?_
    rintro rfl
    rw [hname] at hn
    exact hn.elim (absurd rfl) nofun

theorem get?_name_of_define (h : define inherited vars name text = .ok vars') :
    (vars'.get? name).isSome := by
  obtain ⟨⟨value, hvalue⟩, rfl⟩ | ⟨-, value, -, rfl⟩ := define_cases h
  · rw [hvalue]
    rfl
  · rw [Table.get?_set, if_pos rfl]
    rfl

theorem get?_of_defineAll_of_isSome (h : defineAll inherited vars defs = .ok vars') {n : String}
    (hn : (vars.get? n).isSome) : vars'.get? n = vars.get? n := by
  induction defs generalizing vars with
  | nil =>
    cases h
    rfl
  | cons e defs ih =>
    obtain ⟨mid, hmid, hrest⟩ := foldlM_cons_ok.1 h
    have hkept : mid.get? n = vars.get? n := get?_of_define hmid (.inr hn)
    rw [← hkept] at hn ⊢
    exact ih hrest hn

theorem get?_of_defineAll_of_notMem (h : defineAll inherited vars defs = .ok vars') {n : String}
    (hn : n ∉ defs.map Prod.fst) : vars'.get? n = vars.get? n := by
  induction defs generalizing vars with
  | nil =>
    cases h
    rfl
  | cons e defs ih =>
    rw [List.map_cons, List.mem_cons, not_or] at hn
    obtain ⟨mid, hmid, hrest⟩ := foldlM_cons_ok.1 h
    rw [ih hrest hn.2, get?_of_define hmid (.inl hn.1)]

theorem isSome_get?_of_defineAll_of_mem (h : defineAll inherited vars defs = .ok vars') {n : String}
    (hn : n ∈ defs.map Prod.fst) : (vars'.get? n).isSome := by
  induction defs generalizing vars with
  | nil => cases hn
  | cons e defs ih =>
    obtain ⟨mid, hmid, hrest⟩ := foldlM_cons_ok.1 h
    obtain rfl | hn := List.mem_cons.1 hn
    · have hmid' : (mid.get? e.1).isSome := get?_name_of_define hmid
      rw [get?_of_defineAll_of_isSome hrest hmid']
      exact hmid'
    · exact ih hrest hn

theorem isSome_get?_of_defineAll (h : defineAll inherited vars defs = .ok vars') {n : String} :
    (vars'.get? n).isSome ↔ n ∈ vars.keys ++ defs.map Prod.fst := by
  rw [List.mem_append, Table.mem_keys_iff]
  by_cases hn : n ∈ defs.map Prod.fst
  · exact iff_of_true (isSome_get?_of_defineAll_of_mem h hn) (.inr hn)
  · rw [get?_of_defineAll_of_notMem h hn, or_iff_left hn]

/-- Names that are defined mean what they mean in the end, and others what they mean in `outer`. -/
def soFar (vars outer : Variables) (defined : List String) : Lookup := fun n =>
  if n ∈ defined then vars.get? n else outer.get? n

theorem soFar_congr {outer : Variables} {defined defined' : List String}
    (h : ∀ n, n ∈ defined ↔ n ∈ defined') (hvars : ∀ n ∈ defined, vars.get? n = vars'.get? n) :
    soFar vars outer defined = soFar vars' outer defined' := by
  funext n
  rw [soFar, soFar]
  by_cases hn : n ∈ defined
  · rw [if_pos hn, if_pos ((h n).1 hn), hvars n hn]
  · rw [if_neg hn, if_neg fun hn' => hn ((h n).2 hn')]

theorem layered_of_defineAll (h : defineAll inherited vars defs = .ok vars') :
    Variables.layered vars' inherited =
      soFar vars' inherited (vars.keys ++ defs.map Prod.fst) := by
  funext n
  rw [Variables.layered, soFar]
  by_cases hn : n ∈ vars.keys ++ defs.map Prod.fst
  · rw [if_pos hn, Option.or_of_isSome ((isSome_get?_of_defineAll h).2 hn)]
  · have hnone : vars'.get? n = none := by
      rw [← Option.not_isSome_iff_eq_none, isSome_get?_of_defineAll h]
      exact hn
    rw [if_neg hn, hnone, Option.none_or]

theorem get?_of_defineAll {before after : List (String × String)}
    (h : defineAll inherited vars (before ++ (name, text) :: after) = .ok vars')
    (hvars : vars.get? name = none) (hbefore : name ∉ before.map Prod.fst) :
    ∃ value, vars'.get? name = some value ∧
      Template.substitute text (soFar vars' inherited (vars.keys ++ before.map Prod.fst)) =
        .ok value := by
  obtain ⟨mid, hmid, hrest⟩ := foldlM_append_ok.1 h
  obtain ⟨next, hnext, hafter⟩ := foldlM_cons_ok.1 hrest
  have hname : mid.get? name = none := by rw [get?_of_defineAll_of_notMem hmid hbefore, hvars]
  obtain ⟨⟨value, hvalue⟩, -⟩ | ⟨-, value, hvalue, rfl⟩ := define_cases hnext
  · rw [hname] at hvalue
    cases hvalue
  have hset : (mid.set name value).get? name = some value := by rw [Table.get?_set, if_pos rfl]
  -- what has a value when the definition is come to keeps it
  have hkept : ∀ n ∈ vars.keys ++ before.map Prod.fst, mid.get? n = vars'.get? n := by
    intro n hn
    have hsome : (mid.get? n).isSome := (isSome_get?_of_defineAll hmid).2 hn
    have hsame : (mid.set name value).get? n = mid.get? n := get?_of_define hnext (.inr hsome)
    rw [get?_of_defineAll_of_isSome hafter (by rw [hsame]; exact hsome), hsame]
  refine ⟨value, ?_, ?_⟩
  · rw [get?_of_defineAll_of_isSome hafter (by rw [hset]; rfl), hset]
  · rw [← soFar_congr (fun _ => Iff.rfl) hkept, ← layered_of_defineAll hmid, hvalue]

end Scope

/-! ## The scope of a directory -/

/-- The variables that nothing else defines. -/
def Scope.fixed : List String := ["here", "root"]

/-- The definitions of the environment, by name. -/
def Project.definitions (p : Project) : List (String × String) :=
  p.environment.toList.filter fun e => Text.isIdentifier e.1

/-- A name with its value, if both are texts. -/
def ConfigFile.definition? (e : Yaml.Value × Yaml.Value) : Option (String × String) := do
  return (← e.1.text?, ← e.2.text?)

/-- The definitions of a file, in the order of the file. -/
def ConfigFile.definitions (f : ConfigFile) : List (String × String) :=
  f.vars.filterMap definition?

/-- The commands that a file imports, in the order of the file. -/
def ConfigFile.commands (f : ConfigFile) (registry : Registry) : List Command :=
  f.imports.flatMap fun name => (registry.get? name).getD []

/-- Where the variables and the commands of a directory come from: from the program, the
environment, the file of the directory, and the directory above. -/
structure Scope.Lexical (p : Project) (above : Scope) (here : Path) (f : ConfigFile) (s : Scope) :
    Prop where
  here_eq : s.here = here
  here_var : s.vars.get? "here" = some here.text
  root_var : s.vars.get? "root" = some p.root
  environment : ∀ before name text after, p.definitions = before ++ (name, text) :: after →
    name ∉ fixed → ∃ value, s.vars.get? name = some value ∧
      Template.substitute text (soFar s.vars above.vars (fixed ++ before.map Prod.fst)) = .ok value
  declared : ∀ before name text after, f.definitions = before ++ (name, text) :: after →
    name ∉ fixed → name ∉ p.definitions.map Prod.fst → name ∉ before.map Prod.fst →
    ∃ value, s.vars.get? name = some value ∧
      Template.substitute text (soFar s.vars above.vars
        (fixed ++ (p.definitions ++ before).map Prod.fst)) = .ok value
  inherited : ∀ name, name ∉ fixed → name ∉ p.definitions.map Prod.fst →
    name ∉ f.definitions.map Prod.fst → s.vars.get? name = above.vars.get? name
  imported : ∀ name ∈ f.imports, (p.registry.get? name).isSome
  commands : ∀ name, s.commands.get? name =
    ((f.commands p.registry).reverse.find? fun c => c.name == name).or (above.commands.get? name)

namespace Scope

variable {p : Project} {above s : Scope} {here : Path} {f : ConfigFile}
  {inherited vars vars' : Variables}

theorem defineAll_of_environment
    (h : p.environment.toList.foldlM (defineFromEnvironment inherited) vars = .ok vars') :
    defineAll inherited vars p.definitions = .ok vars' := by
  rw [defineAll, Project.definitions, List.foldlM_filter]
  exact h

theorem defineAll_of_declare (h : f.vars.foldlM (declare inherited) vars = .ok vars') :
    defineAll inherited vars f.definitions = .ok vars' := by
  rw [ConfigFile.definitions]
  generalize f.vars = declared at h
  induction declared generalizing vars with
  | nil => exact h
  | cons e declared ih =>
    obtain ⟨mid, hmid, hrest⟩ := foldlM_cons_ok.1 h
    unfold declare at hmid
    split at hmid
    · cases hmid
    · next name hname =>
      split at hmid
      · cases hmid
      · split at hmid
        · cases hmid
        · next value hvalue =>
          have hdefinition : ConfigFile.definition? e = some (name, value) := by
            rw [ConfigFile.definition?, hname, hvalue]
            rfl
          rw [List.filterMap_cons_some hdefinition]
          exact foldlM_cons_ok.2 ⟨mid, hmid, ih hrest⟩

theorem variables_of_enter (h : enter p above here f = .ok s) : ∃ vars,
    defineAll above.vars (.ofPairs [("here", here.text), ("root", p.root)])
      (p.definitions ++ f.definitions) = .ok vars ∧ s.vars = vars.union above.vars := by
  obtain ⟨vars, hvars, h⟩ := bind_eq_ok.1 h
  obtain ⟨commands, -, h⟩ := bind_eq_ok.1 h
  cases h
  obtain ⟨mid, hmid, hvars⟩ := bind_eq_ok.1 hvars
  obtain ⟨own, hown, hvars⟩ := bind_eq_ok.1 hvars
  cases hvars
  refine ⟨own, foldlM_append_ok.2 ⟨mid, defineAll_of_environment hmid, ?_⟩, rfl⟩
  exact defineAll_of_declare hown

theorem mem_keys_fixed {values : Variables} {n : String}
    (h : values = .ofPairs [("here", here.text), ("root", p.root)]) :
    n ∈ values.keys ↔ n ∈ fixed := by
  rw [h, Table.mem_keys_ofPairs]
  rfl

theorem value_of_definition {own : Variables} {before after : List (String × String)}
    {name text : String}
    (h : defineAll above.vars (.ofPairs [("here", here.text), ("root", p.root)])
      (before ++ (name, text) :: after) = .ok own)
    (hvars : s.vars = own.union above.vars) (hname : name ∉ fixed)
    (hbefore : name ∉ before.map Prod.fst) :
    ∃ value, s.vars.get? name = some value ∧
      Template.substitute text (soFar s.vars above.vars (fixed ++ before.map Prod.fst)) =
        .ok value := by
  have hget : ∀ n, s.vars.get? n = (own.get? n).or (above.vars.get? n) := by
    rw [hvars]
    exact own.get?_union above.vars
  generalize hstart : (.ofPairs [("here", here.text), ("root", p.root)] : Variables) = start at h
  have hnone : start.get? name = none := by
    rw [← Option.not_isSome_iff_eq_none, ← Table.mem_keys_iff, mem_keys_fixed hstart.symm]
    exact hname
  obtain ⟨value, hvalue, hexpand⟩ := get?_of_defineAll h hnone hbefore
  refine ⟨value, by rw [hget, hvalue, Option.some_or], ?_⟩
  have hmeans : soFar own above.vars (start.keys ++ before.map Prod.fst) =
      soFar s.vars above.vars (fixed ++ before.map Prod.fst) := by
    refine soFar_congr (fun n => ?_) fun n hn => ?_
    · rw [List.mem_append, List.mem_append, mem_keys_fixed hstart.symm]
    · have hsome : (own.get? n).isSome := by
        rw [isSome_get?_of_defineAll h, List.map_append, ← List.append_assoc]
        exact List.mem_append_left _ hn
      rw [hget, Option.or_of_isSome hsome]
  rw [← hmeans, hexpand]

theorem nodup_definitions (p : Project) : (p.definitions.map Prod.fst).Nodup :=
  (p.environment.nodup_keys).sublist (List.filter_sublist.map Prod.fst)

theorem get?_overlay (commands : Table Command) (set : List Command) (name : String) :
    (overlay commands set).get? name =
      (set.reverse.find? fun c => c.name == name).or (commands.get? name) := by
  have hkey : ∀ k : String, (compare k name == .eq) = (k == name) := by
    intro k
    rw [Bool.eq_iff_iff, beq_iff_eq, beq_iff_eq, Std.compare_eq_iff_eq]
  rw [overlay, Table.get?, SortedBy.find?_putMany, ← List.map_reverse, List.find?_map]
  simp only [Function.comp_def, hkey, Option.map_or, Option.map_map, Option.map_id']
  rfl

theorem get?_of_importCommands {registry : Registry} {outer commands : Table Command}
    {imports : List String} (h : importCommands registry outer imports = .ok commands) :
    (∀ i ∈ imports, (registry.get? i).isSome) ∧ ∀ name, commands.get? name =
      ((imports.flatMap fun i => (registry.get? i).getD []).reverse.find? fun c => c.name == name).or
        (outer.get? name) := by
  induction imports generalizing outer with
  | nil =>
    cases h
    exact ⟨nofun, fun name => Option.none_or.symm⟩
  | cons i imports ih =>
    obtain ⟨mid, hmid, hrest⟩ := foldlM_cons_ok.1 h
    cases hset : registry.get? i with
    | none =>
      rw [hset] at hmid
      cases hmid
    | some set =>
      rw [hset] at hmid
      cases hmid
      obtain ⟨himports, hget⟩ := ih hrest
      refine ⟨List.forall_mem_cons.2 ⟨by rw [hset]; rfl, himports⟩, fun name => ?_⟩
      rw [hget, get?_overlay, List.flatMap_cons, hset, Option.getD_some, List.reverse_append,
        List.find?_append, Option.or_assoc]

theorem lexical_of_enter (h : enter p above here f = .ok s) : Lexical p above here f s := by
  obtain ⟨own, hown, hvars⟩ := variables_of_enter h
  obtain ⟨vars, -, hrest⟩ := bind_eq_ok.1 h
  obtain ⟨commands, himports, hs⟩ := bind_eq_ok.1 hrest
  obtain ⟨himported, hcommands⟩ := get?_of_importCommands himports
  have hget : ∀ n, s.vars.get? n = (own.get? n).or (above.vars.get? n) := by
    rw [hvars]
    exact own.get?_union above.vars
  have hfixed : ∀ n value, (n, value) ∈ [("here", here.text), ("root", p.root)] →
      s.vars.get? n = some value := by
    intro n value hn
    have hstart := (Table.get?_ofPairs (by simp)).2 hn
    rw [hget, get?_of_defineAll_of_isSome hown (by rw [hstart]; rfl), hstart, Option.some_or]
  have hhere : s.here = here := by
    cases hs
    rfl
  have hcommands' : s.commands = commands := by
    cases hs
    rfl
  rw [← hcommands'] at hcommands
  refine ⟨hhere, hfixed _ _ (by simp), hfixed _ _ (by simp), ?_, ?_, ?_, himported, hcommands⟩
  · intro before name text after hdefinitions hname
    have hnodup := nodup_definitions p
    rw [hdefinitions, List.append_assoc, List.cons_append] at hown
    rw [hdefinitions, List.map_append] at hnodup
    refine value_of_definition hown hvars hname fun hbefore => ?_
    exact (List.nodup_append.1 hnodup).2.2 _ hbefore _ List.mem_cons_self rfl
  · intro before name text after hdefinitions hname henvironment hbefore
    rw [hdefinitions, ← List.append_assoc] at hown
    refine value_of_definition hown hvars hname ?_
    rw [List.map_append, List.mem_append, not_or]
    exact ⟨henvironment, hbefore⟩
  · intro name hname henvironment hdeclared
    have hnone : own.get? name = none := by
      rw [get?_of_defineAll_of_notMem hown]
      · rw [← Option.not_isSome_iff_eq_none, ← Table.mem_keys_iff, mem_keys_fixed rfl]
        exact hname
      · rw [List.map_append, List.mem_append, not_or]
        exact ⟨henvironment, hdeclared⟩
    rw [hget, hnone, Option.none_or]

end Scope
end DocGraph
