import DocGraph.Builtin.Set
import DocGraph.Proofs.Latex.Scan
import DocGraph.Proofs.Outcome

/-!
# DocGraph.Proofs.Builtin.Consulted

The commands of the built-in set name every file that they read.

* `Action.NamesReads` — what an action does is the same wherever the files that it names are.
* `namesReads_of_mem` — so it is for every command of the set that asks no interpreter.
* `consulted_complete` — the consequence for two trees.
-/

namespace DocGraph

/-- What the action does with success it does in all surroundings with the same files under the
paths that it names. -/
def Action.NamesReads (action : Action) : Prop :=
  ∀ (around around' : Surroundings) (inputs outputs : List Path) (g : Generated),
    action around inputs outputs = .ok g →
    (∀ p ∈ g.gendeps, around.tree.read? p = around'.tree.read? p) →
    action around' inputs outputs = .ok g

theorem Action.namesReads_of_blind {action : Action}
    (h : ∀ around around', action around = action around') : action.NamesReads := by
  intro around around' inputs outputs g hg _
  rw [h around' around, hg]

/-- A check in front that looks at inputs and outputs only changes nothing. -/
theorem Action.NamesReads.after {α : Type} {check : List Path → List Path → Except CommandError α}
    {rest : α → Action} (h : ∀ a, (rest a).NamesReads) :
    Action.NamesReads fun around inputs outputs =>
      check inputs outputs >>= fun a => rest a around inputs outputs := by
  intro around around' inputs outputs g hg hagree
  obtain ⟨a, hcheck, hrest⟩ := bind_eq_ok.1 hg
  exact bind_eq_ok.2 ⟨a, hcheck, h a around around' inputs outputs g hrest hagree⟩

namespace Builtin

theorem eq_of_prepare_plainCommand {name : String} {rules : List (String × Rule)}
    {action action' : Action} {arg : Option Yaml.Value}
    (h : (plainCommand name rules action).prepare arg = .ok action') : action' = action := by
  rw [Command.prepare, plainCommand] at h
  dsimp only at h
  split at h
  · next hc =>
    split at hc
    · cases hc
      cases h
      rfl
    · cases hc
  · cases h

theorem namesReads_of_plainCommand {name : String} {rules : List (String × Rule)}
    {action action' : Action} {arg : Option Yaml.Value} (hreads : action.NamesReads)
    (h : (plainCommand name rules action).prepare arg = .ok action') : action'.NamesReads :=
  eq_of_prepare_plainCommand h ▸ hreads

theorem namesReads_blind {name : String} {rules : List (String × Rule)}
    {make : (inputs outputs : List Path) → Except CommandError Generated} {action : Action}
    {arg : Option Yaml.Value}
    (h : (plainCommand name rules fun _ => make).prepare arg = .ok action) : action.NamesReads :=
  namesReads_of_plainCommand (Action.namesReads_of_blind fun _ _ => rfl) h

theorem namesReads_scan (source : Path) (entries : Latex.Scan → List Entry) :
    Action.NamesReads fun around _ _ =>
      .ok ⟨entries (Latex.scan around.tree source),
        (Latex.scan around.tree source).gendeps.toList⟩ := by
  intro around around' _ _ g hg hagree
  cases hg
  have hscan : Latex.scan around.tree source = Latex.scan around'.tree source :=
    Latex.scan_congr hagree
  rw [hscan]

theorem namesReads_latex {arg : Option Yaml.Value} {action : Action}
    (h : latex.prepare arg = .ok action) : action.NamesReads := by
  refine namesReads_of_plainCommand ?_ h
  refine .after fun source => .after fun name => .after fun _ => ?_
  exact namesReads_scan source fun scan => [.build (latexStatement source name scan)]

theorem namesReads_latexFlat {arg : Option Yaml.Value} {action : Action}
    (h : latexFlat.prepare arg = .ok action) : action.NamesReads := by
  refine namesReads_of_plainCommand ?_ h
  refine .after fun source => .after fun _ => .after fun flat => .after fun _ => ?_
  exact namesReads_scan source fun scan => [.build {
    rule := "latex_flat"
    inputs := [source]
    outputs := [flat]
    implicit := scan.implicit.toList }]

theorem namesReads_shellScript {arg : Option Yaml.Value} {action : Action}
    (h : shellScript.prepare arg = .ok action) : action.NamesReads := by
  refine namesReads_of_plainCommand ?_ h
  refine .after fun script => .after fun _ => .after fun _ => ?_
  intro around around' _ _ g hg hagree
  obtain ⟨directives, hread, hg⟩ := bind_eq_ok.1 hg
  cases hg
  refine bind_eq_ok.2 ⟨directives, ?_, rfl⟩
  have hscript : around.tree.read? script = around'.tree.read? script :=
    hagree script List.mem_cons_self
  rw [← hread, Directives.read, Directives.read, hscript]

theorem namesReads_pdfNup {arg : Option Yaml.Value} {action : Action}
    (h : pdfNup.prepare arg = .ok action) : action.NamesReads := by
  rw [Command.prepare, pdfNup] at h
  dsimp only at h
  cases hsheet : Sheet.read? (arg.getD .null) with
  | none =>
    rw [hsheet] at h
    cases h
  | some sheet =>
    rw [hsheet] at h
    cases h
    exact Action.namesReads_of_blind fun _ _ => rfl

theorem namesReads_of_mem {c : Command} (hc : c ∈ commands) (hname : c.name ≠ "python_script")
    {arg : Option Yaml.Value} {action : Action} (h : c.prepare arg = .ok action) :
    action.NamesReads := by
  rw [commands, List.mem_append, List.mem_append] at hc
  simp only [List.mem_cons, List.not_mem_nil, or_false] at hc
  obtain (hfirst | htransform) | hlast := hc
  · obtain rfl | rfl | rfl | rfl | rfl | rfl | rfl | rfl := hfirst
    · exact namesReads_blind h
    · exact namesReads_latex h
    · exact namesReads_latexFlat h
    · exact namesReads_blind h
    · exact namesReads_blind h
    · exact namesReads_blind h
    · exact namesReads_pdfNup h
    · exact absurd rfl hname
  · obtain ⟨t, -, rfl⟩ := List.mem_map.1 htransform
    exact namesReads_blind h
  · obtain rfl | rfl | rfl | rfl | rfl := hlast
    · exact namesReads_blind h
    · exact namesReads_shellScript h
    · exact namesReads_blind h
    · exact namesReads_blind h
    · exact namesReads_blind h

/-- What a command of the set makes of inputs and outputs stays the same if nothing changes under
the paths that it named as consulted, `python_script` apart. -/
theorem consulted_complete {c : Command} (hc : c ∈ commands) (hname : c.name ≠ "python_script")
    {arg : Option Yaml.Value} {action : Action} (h : c.prepare arg = .ok action)
    {around around' : Surroundings} {inputs outputs : List Path} {g : Generated}
    (hg : action around inputs outputs = .ok g)
    (hagree : ∀ p ∈ g.gendeps, around.tree.read? p = around'.tree.read? p) :
    action around' inputs outputs = .ok g :=
  namesReads_of_mem hc hname h around around' inputs outputs g hg hagree

/-- A document that includes a part with a figure, among other files. -/
def book (others : List String) : Tree :=
  others.foldl (fun t name => t.put [name] (.file ByteArray.empty))
    (((Tree.bare []).put ["main.tex"] (.file "\\input\x7bpart\x7d".toUTF8)).put ["part.tex"]
      (.file "\\includegraphics\x7bplot\x7d".toUTF8))

theorem consulted_complete_including : ∃ action g,
    latex.prepare none = .ok action ∧
    action ⟨book ["notes.txt"], none⟩ [⟨"main.tex"⟩] [] = .ok g ∧
    g.gendeps = [⟨"main.tex"⟩, ⟨"part.tex"⟩] ∧
    action ⟨book ["other.tex", "plot.pdf"], none⟩ [⟨"main.tex"⟩] [] = .ok g := by
  obtain ⟨action, hprepare, hdeps⟩ : ∃ action, latex.prepare none = .ok action ∧
      (action ⟨book ["notes.txt"], none⟩ [⟨"main.tex"⟩] []).map Generated.gendeps =
        .ok [⟨"main.tex"⟩, ⟨"part.tex"⟩] := ⟨_, rfl, by decide +kernel⟩
  obtain ⟨g, hg, hdeps⟩ := map_eq_ok.1 hdeps
  refine ⟨action, g, hprepare, hg, hdeps, ?_⟩
  refine consulted_complete (by simp [commands]) (by decide) hprepare hg ?_
  rw [hdeps]
  decide +kernel

end Builtin
end DocGraph
