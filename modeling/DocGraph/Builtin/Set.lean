import DocGraph.Builtin.Archive
import DocGraph.Builtin.Document
import DocGraph.Builtin.Latex
import DocGraph.Builtin.Python
import DocGraph.Builtin.Shell
import DocGraph.Builtin.Transform

/-!
# DocGraph.Builtin.Set

The set of commands that every project can import. Names of tools are variables of statements, so
a configuration variable of the same name replaces them.
-/

namespace DocGraph
namespace Builtin

/-- The name under which configuration files import the set. -/
def setName : String := "builtin"

def commands : List Command :=
  [checkHrefs, latex, latexFlat, latexDiff, pdfAddNotes, pdfMerge, pdfNup, pythonScript] ++
    Transform.all.map Transform.toCommand ++
    [render, shellScript, zipLatex, zipManifest, zipPlain]

/-- The registry with this set alone. -/
def registry : Registry := Table.ofPairs [(setName, commands)]

end Builtin
end DocGraph
