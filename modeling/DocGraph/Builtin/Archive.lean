import DocGraph.Builtin.Shape

/-!
# DocGraph.Builtin.Archive

Commands that pack files into reproducible archives: the inputs themselves, the sources that a
LaTeX run recorded, or the files of a manifest with checksums.
-/

namespace DocGraph
namespace Builtin

/-- The output of a command that must be an archive. -/
def archive (outputs : List Path) (command : String) : Except CommandError Path := do
  let zip ← single outputs "output, the zip file"
  discard (stem zip ".zip" s!"output of {command}")
  return zip

def zipPlain : Command :=
  plainCommand "zip_plain" [("zip_plain", .ofCommand "rr-zip-plain ${in} ${out}")]
    fun _ inputs outputs => do
      if inputs.isEmpty then throw .nothingToArchive
      let zip ← archive outputs "zip_plain"
      return .ofStatement {
        rule := "zip_plain"
        inputs := inputs
        outputs := [zip]
        pool := some Pool.console }

/-- Pack all sources in the record of a LaTeX run. Every run writes the record again, so the
archive waits for the document. -/
def zipLatex : Command :=
  plainCommand "zip_latex" [("zip_latex", .ofCommand "rr-latex-zip ${in} ${out}")]
    fun _ inputs outputs => do
      let recorded ← single inputs "input, the LaTeX fls file"
      let name ← stem recorded ".fls" "input of zip_latex"
      let zip ← archive outputs "zip_latex"
      return .ofStatement {
        rule := "zip_latex"
        inputs := [recorded]
        outputs := [zip]
        orderOnly := [⟨name ++ ".pdf"⟩]
        pool := some Pool.console }

/-- Pack the files in a manifest, whose checksums are verified on the way. -/
def zipManifest : Command :=
  plainCommand "zip_manifest" [("zip_manifest", .ofCommand "rr-zip-manifest ${in} ${out}")]
    fun _ inputs outputs => do
      let manifest ← single inputs "input, the sha256 manifest"
      discard (stem manifest ".sha256" "input of zip_manifest")
      let zip ← archive outputs "zip_manifest"
      return .ofStatement {
        rule := "zip_manifest"
        inputs := [manifest]
        outputs := [zip]
        pool := some Pool.console }

end Builtin
end DocGraph
