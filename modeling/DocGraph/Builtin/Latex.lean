import DocGraph.Builtin.Shape
import DocGraph.Latex.Scan

/-!
# DocGraph.Builtin.Latex

Commands on LaTeX sources: compiling a document, with BibTeX if it has a bibliography, making a
single source of it, and marking up the differences between two documents.
-/

namespace DocGraph
namespace Builtin

def latexRules : List (String × Rule) := [
  ("latex_bibtex", { Rule.ofCommand ("rr-latex ${in} ${latex} --bibtex=${bibtex} " ++
    "--bibsane='${bibsane}' --bibsane-config='${bibsane_config}'") with
    description := some "LATEX ${out}" }),
  ("latex", { Rule.ofCommand "rr-latex ${in} ${latex}" with description := some "LATEX ${out}" }),
  ("latex_diff", .ofCommand
    "${latexdiff} --append-context2cmd=${latexdiff_context2cmd} ${in} > ${out}"),
  ("latex_flat", .ofCommand "rr-latex-flat ${in} ${out}")]

/-- The statement that compiles a document, given what it depends on. -/
def latexStatement (source : Path) (name : String) (scan : Latex.Scan) : Statement :=
  let made := [".log", ".aux", ".out", ".fls"].map fun ext => Path.mk (name ++ ext)
  let base : Statement := {
    rule := "latex"
    inputs := [source]
    outputs := [⟨name ++ ".pdf"⟩]
    implicit := scan.implicit.toList
    implicitOutputs := made
    vars := Table.ofPairs [("latex", "pdflatex")] }
  if scan.bib.isEmpty then base
  else { base with
    rule := "latex_bibtex"
    implicit := scan.implicit.toList ++ scan.bib.toList
    implicitOutputs := made ++ [⟨name ++ ".blg"⟩, ⟨name ++ ".bbl"⟩]
    vars := base.vars.putMany [("bibtex", "bibtex"), ("bibsane", "bibsane"),
      ("bibsane_config", "${root}/bibsane.yaml")] }

/-- Compile a document as often as needed. -/
def latex : Command :=
  plainCommand "latex" latexRules fun around inputs outputs => do
    let source ← single inputs "input file, the main tex file"
    let name ← stem source ".tex" "input of the latex command"
    noOutputs outputs
    let scan := Latex.scan around.tree source
    return ⟨[.build (latexStatement source name scan)], scan.gendeps.toList⟩

/-- Make a single source of a document and everything it includes. -/
def latexFlat : Command :=
  plainCommand "latex_flat" latexRules fun around inputs outputs => do
    let source ← single inputs "input file"
    discard (stem source ".tex" "input of latex_flat")
    let flat ← single outputs "output, the flattened LaTeX file"
    discard (stem flat ".tex" "output of latex_flat")
    let scan := Latex.scan around.tree source
    let statement : Statement := {
      rule := "latex_flat"
      inputs := [source]
      outputs := [flat]
      implicit := scan.implicit.toList }
    return ⟨[.build statement], scan.gendeps.toList⟩

/-- The environments inside which differences are marked up. -/
def markedContexts : String :=
  "abstract,supplementary,dataavailability,funding,authorcontributions,conflictsofinterest," ++
    "abbreviations"

/-- Mark up the differences between two documents, in the sources and in the bibliographies. -/
def latexDiff : Command :=
  plainCommand "latex_diff" latexRules fun _ inputs outputs => do
    match inputs with
    | [new, old] =>
      let newName ← stem new ".tex" "inputs of latex_diff"
      let oldName ← stem old ".tex" "inputs of latex_diff"
      let result ← single outputs "output"
      let name ← stem result ".tex" "output of latex_diff"
      let diff (ext : String) : Entry := .build {
        rule := "latex_diff"
        inputs := [⟨oldName ++ ext⟩, ⟨newName ++ ext⟩]
        outputs := [⟨name ++ ext⟩]
        vars := Table.ofPairs
          [("latexdiff", "latexdiff"), ("latexdiff_context2cmd", markedContexts)] }
      return ⟨[diff ".bbl", diff ".tex"], []⟩
    | _ => throw .needsTwoSources

end Builtin
end DocGraph
