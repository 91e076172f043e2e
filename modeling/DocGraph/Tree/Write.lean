import DocGraph.Path.Normal
import DocGraph.Tree.Basic

/-!
# DocGraph.Tree.Write

Changing a file tree.

* `Tree.makeDirectories` — creates the directories on a path that are not there.
* `Tree.writeIfChanged`  — gives a file new content unless it holds that already. The content goes
  to a temporary sibling first, which then takes the place of the file, so the file holds either
  its old content or all of the new one.
* `Tree.plant`           — puts a node where a path leads, with the directories on the way.

An operation that fails gives the tree that it leaves behind.
-/

namespace DocGraph
namespace Tree

/-- Go on by one piece of a path, and create a directory that is not there. -/
def makeStep (state : Tree × Option Location) (piece : List Char) : Tree × Option Location :=
  match state with
  | (t, none) => (t, none)
  | (t, some loc) =>
    if !t.isDirectoryAt loc then (t, none)
    else match Component.ofPiece? piece with
      | some (.name s) =>
        if (t.node? (loc ++ [s])).isSome then (t, some (loc ++ [s]))
        else (t.put (loc ++ [s]) .directory, some (loc ++ [s]))
      | some .up => (t, some loc.dropLast)
      | _ => (t, some loc)

/-- Create the directories on a path that are not there; says whether all of it are directories. -/
def makeDirectories (t : Tree) (p : Path) : Tree × Bool :=
  if !t.admits p then (t, false)
  else match p.pieces.foldl makeStep (t, some (t.start p)) with
    | (t, some loc) => (t, t.isDirectoryAt loc)
    | (t, none) => (t, false)

/-- Where a path puts a file. The directory must be there and the last piece must be a name. -/
def target? (t : Tree) (p : Path) : Option Location :=
  if !t.admits p then none
  else do
    let dir ← p.pieces.dropLast.foldlM t.enter? (t.start p)
    match ← p.pieces.getLast?.bind Component.ofPiece? with
    | .name s => if t.isDirectoryAt dir then some (dir ++ [s]) else none
    | _ => none

/-- Put a file where a path leads, unless a directory is there. -/
def putFile? (t : Tree) (p : Path) (content : ByteArray) : Option Tree := do
  let loc ← t.target? p
  if t.isDirectoryAt loc then none else some (t.put loc (.file content))

/-- Let the file at `source` take the place of what stands at `target`, unless that is a
directory. -/
def rename? (t : Tree) (source target : Path) : Option Tree := do
  let content ← t.read? source
  let loc ← t.target? source
  (t.remove loc).putFile? target content

/-- What became of a file that was to be written. -/
inductive WriteStatus where
  | unchanged
  | replaced
  | failed
deriving DecidableEq

/-- The sibling that holds new content until it is complete. -/
def temporary (p : Path) : Path := p.withFileName ("." ++ p.fileName?.getD "out" ++ ".tmp")

/-- The tree with the directory of a file, if that can be created. -/
def makeParent (t : Tree) (p : Path) : Tree × Bool :=
  match p.parent? with
  | some dir => if dir.text.isEmpty then (t, true) else t.makeDirectories dir
  | none => (t, true)

/-- Give a file new content unless it holds that already. -/
def writeIfChanged (t : Tree) (p : Path) (content : ByteArray) : Tree × WriteStatus :=
  if t.read? p = some content then (t, .unchanged)
  else match t.makeParent p with
    | (t, false) => (t, .failed)
    | (t, true) =>
      match t.putFile? (temporary p) content with
      | none => (t, .failed)
      | some t =>
        match t.rename? (temporary p) p with
        | none => (t, .failed)
        | some t => (t, .replaced)

/-- The location of a path, whatever stands on the way. -/
def lexical (t : Tree) (p : Path) : Location :=
  p.components.foldl (fun loc c => match c with
    | .name s => loc ++ [s]
    | .up => loc.dropLast
    | .root => []
    | .here => loc) t.workdir

/-- Put a node where a path leads, with the directories on the way. -/
def plant (t : Tree) (p : Path) (n : Node) : Tree :=
  let loc := t.lexical p
  let t := (List.range loc.length).foldl (fun t i =>
    if (t.node? (loc.take i)).isSome then t else t.put (loc.take i) .directory) t
  t.put loc n

end Tree
end DocGraph
