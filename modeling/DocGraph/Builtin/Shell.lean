import DocGraph.Builtin.Shape
import DocGraph.Path.Normal
import DocGraph.Text.Lowercase
import DocGraph.Text.Utf8

/-!
# DocGraph.Builtin.Shell

Shell scripts that run in their own directory and log to a hidden file.

Lines of a script that start with `#PAPERWEAVE inputs` or `#PAPERWEAVE outputs` name further
inputs and outputs, as seen from the directory of the script.
-/

namespace DocGraph
namespace Builtin

/-- What the lines of a script declare. -/
structure Directives where
  inputs : List Path := []
  outputs : List Path := []
deriving DecidableEq

def Directives.addLine (dir : Path) (d : Directives) (line : String) :
    Except CommandError Directives :=
  match Text.stripPrefix? CommandError.directive line with
  | none => .ok d
  | some rest =>
    match Text.words rest with
    | [] => .error .missingKeyword
    | keyword :: words =>
      let paths := words.map fun w => (dir.join ⟨w⟩).normalize
      match Text.lowercase keyword with
      | "inputs" => .ok { d with inputs := d.inputs ++ paths }
      | "outputs" => .ok { d with outputs := d.outputs ++ paths }
      | other => .error (.unknownKeyword other)

def Directives.parse (text : String) (dir : Path) : Except CommandError Directives :=
  (Text.lines text).foldlM (addLine dir) {}

/-- What the script at a path declares. A script that has yet to be built declares nothing. -/
def Directives.read (t : Tree) (script dir : Path) : Except CommandError Directives :=
  match t.read? script with
  | none => .ok {}
  | some content =>
    match Text.decode? content with
    | none => .error (.unreadable script)
    | some text => (parse text dir).mapError (.inFile script)

def shellScript : Command :=
  plainCommand "shell_script" [("shell_script", .ofCommand "rr-shell-script ${in} > ${out}")]
    fun around inputs outputs => do
      let script ← single inputs "input file, the shell script"
      discard (stem script ".sh" "shell script")
      noOutputs outputs
      let dir := script.parentDir
      let name := script.fileStem?.getD ""
      let directives ← Directives.read around.tree script dir
      let statement : Statement := {
        rule := "shell_script"
        inputs := [script]
        outputs := [(dir.join ⟨"." ++ name ++ ".log"⟩).normalize]
        implicit := directives.inputs
        implicitOutputs := directives.outputs }
      return ⟨[.build statement], [script]⟩

end Builtin
end DocGraph
