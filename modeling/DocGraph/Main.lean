import DocGraph.Builtin.Set
import DocGraph.CommandLine
import DocGraph.Config.Loader
import DocGraph.Ninja.Run

/-!
# DocGraph.Main

The program: reads what lies below a directory, and writes the build file and the kept files.

Only this module reads and writes. It starts no other programs: scripts cannot be inspected, and
Ninja counts as missing.
-/

namespace DocGraph

/-- Add what lies below a directory to a tree, where names lead to the directory. -/
partial def readBelow (directory : String) (names : Location) (tree : Tree) : IO Tree := do
  let mut tree := tree
  for entry in ← (← IO.FS.realPath directory).readDir do
    let location := names ++ [entry.fileName]
    if ← entry.path.isDir then
      tree ← readBelow entry.path.toString location (tree.put location .directory)
    else
      tree := tree.put location (.file (← IO.FS.readBinFile entry.path))
  return tree

/-- The settings of the environment, as far as the system shows them. -/
def readEnvironment : IO Variables := do
  let .ok bytes ← (IO.FS.readBinFile "/proc/self/environ").toBaseIO | return ∅
  let lines := Text.pieces '\x00' (Text.decodeLossy bytes)
  return Table.ofPairs (lines.filterMap Invocation.setting?)

/-- Bring a file below a directory to its new content. -/
def writeFile (directory : String) (tree : Tree) (path : Path) : IO Unit := do
  let some content := tree.read? path | return
  let name (p : Path) : String := directory ++ "/" ++ p.text
  IO.FS.createDirAll (name path.parentDir)
  IO.FS.writeBinFile (name (Tree.temporary path)) content
  IO.FS.rename (name (Tree.temporary path)) (name path)

/-- Write the build file of the project in a directory. -/
def generateAt (directory : String) : IO (Except ProjectError BuildFile) := do
  let root ← IO.FS.realPath directory
  let workdir := (Text.pieces '/' root.toString).filter (!·.isEmpty)
  let tree ← readBelow directory workdir (Tree.bare workdir)
  let project : Project := ⟨root.toString, Builtin.registry, ← readEnvironment⟩
  let (written, result) := project.generate ⟨tree, none⟩
  written.replaced.forM (writeFile directory written.tree)
  return result

def fail (message : String) : IO UInt32 := do
  (← IO.getStderr).putStrLn message
  return 1

end DocGraph

open DocGraph in
def main (arguments : List String) : IO UInt32 := do
  match Invocation.parse? arguments with
  | none => fail Invocation.usage
  | some invocation =>
    match ← generateAt invocation.root, invocation.mode with
    | .error e, _ => fail e.message
    | .ok _, .generate => return 0
    | .ok _, .build arguments =>
      match Ninja.run none arguments with
      | some status => return (Ninja.exitCode status).toUInt32
      | none => fail ProjectError.noNinja.message
