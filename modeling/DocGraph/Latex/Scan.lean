import DocGraph.Latex.References
import DocGraph.Path.Normal
import DocGraph.Text.Utf8
import DocGraph.Tree.Basic

/-!
# DocGraph.Latex.Scan

The files that a LaTeX document depends on.

* `Scan`  — files to include, files that were looked at, and bibliographies.
* `clean` — a path as it is written in a source, without braces and with its extension.
* `scan`  — follows the references of a source and of everything that it includes.

References are relative to the directory of the document, except inside a file that is imported:
there they are relative to the directory of the import. A file is read at most once.
-/

namespace DocGraph
namespace Latex

/-- Files that a LaTeX document depends on. -/
structure Scan where
  implicit : PathSet
  /-- The sources that were scanned, or would have been if they were there. -/
  gendeps : PathSet
  bib : PathSet
deriving DecidableEq

def Scan.empty : Scan := ⟨∅, ∅, ∅⟩

/-- A path without braces and without blanks around it. A name without any dot gets the extension of
its kind. -/
def clean (path : String) (kind : Kind) : Path :=
  let text := Text.trim (String.ofList (path.toList.filter fun c => c != '\x7b' && c != '\x7d'))
  let name := ((text.toList.splitOn '/').getLast?).getD []
  (Path.mk (if name.contains '.' then text else text ++ kind.extension)).normalize

/-- The directory that holds inside a reference. -/
def Reference.directoryFrom (r : Reference) (dir : Path) : Path :=
  (dir.join ⟨r.directory⟩).normalize

def Reference.target (r : Reference) (dir : Path) : Path :=
  ((r.directoryFrom dir).join (clean r.path r.kind)).normalize

/-- Scan a source, with references taken from `dir`, and what it includes, at most so many levels
deep. -/
def scanFrom (t : Tree) : Nat → Scan → Path → Path → Scan
  | 0, scan, _, _ => scan
  | n + 1, scan, path, dir =>
    if scan.gendeps.contains path.components then scan
    else
      let scan := { scan with gendeps := scan.gendeps.insert path }
      match t.read? path with
      | none => scan
      | some content =>
        (references (Text.decodeLossy content)).foldl (fun scan r =>
          let target := r.target dir
          match r.kind with
          | .bibliography => { scan with bib := scan.bib.insert target }
          | .graphics => { scan with implicit := scan.implicit.insert target }
          | .source =>
            let scan := { scan with implicit := scan.implicit.insert target }
            scanFrom t n scan target (r.directoryFrom dir)) scan

/-- No chain of includes through different files is longer: a normal path to a file is absolute, or
climbs as far as its length allows before it goes down, and the document itself may be written
otherwise. -/
def longestChain (t : Tree) : Nat := t.nodes.size * (t.longest + 2) + 2

/-- The files that a document depends on. -/
def scan (t : Tree) (document : Path) : Scan :=
  scanFrom t (longestChain t) .empty document document.parentDir

end Latex
end DocGraph
