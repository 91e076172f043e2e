import DocGraph.Glob.Component
import DocGraph.Pattern.Glob
import DocGraph.Tree.Basic

/-!
# DocGraph.Tree.Listing

The paths of a file tree that a glob names.

* `Tree.walk`    — follows the components of a glob from a directory. A name is only looked up, so
  it may be hidden; a component with wildcards lists the directory without its hidden entries.
* `Tree.list?`   — the paths that a glob names. A slash at its end restricts them to directories.
* `Tree.listing` — the candidates for a pattern.
-/

namespace DocGraph

/-- Whether the component matches a name that was listed. -/
def GlobComponent.accepts : GlobComponent → String → Bool
  | name s, n => s == n
  | items l, n => GlobItem.accept l true n.toList
  | recursive, _ => false

/-- Components in which `**` does not repeat. -/
def GlobComponent.collapse : List GlobComponent → List GlobComponent
  | recursive :: recursive :: cs => collapse (recursive :: cs)
  | c :: cs => c :: collapse cs
  | [] => []

/-- A glob, cut at its slashes. -/
structure Glob where
  absolute : Bool
  components : List GlobComponent
  /-- Only directories count. -/
  directories : Bool
deriving DecidableEq

/-- The pieces between slashes, without an empty one at the end. -/
def Glob.pieces (cs : List Char) : List (List Char) :=
  let ps := cs.splitOn '/'
  if ps.getLast? = some [] then ps.dropLast else ps

/-- The glob of a text. -/
def Glob.read? (text : String) : Option Glob := do
  let cs := text.toList
  let absolute := cs.head? == some '/'
  let rest := if absolute then cs.drop 1 else cs
  let ps := if rest.isEmpty then [[]] else pieces rest
  let components ← ps.mapM fun p => GlobComponent.read? (GlobComponent.simplify p)
  return ⟨absolute, GlobComponent.collapse components, cs.getLast? == some '/'⟩

namespace Tree

/-- An entry of a directory. Entries of the current directory go by their bare names. -/
def entry (dir : Path) (name : String) : Path :=
  if dir.Same ⟨"."⟩ then ⟨name⟩ else dir.join ⟨name⟩

/-- The entries of a directory that are not hidden, with their names. -/
def entries (t : Tree) (dir : Path) : List (Path × String) :=
  ((t.names dir).filter fun n => n.toList.head? != some '.').map fun n => (entry dir n, n)

/-- All entries below a directory, at most so many levels deep. -/
def below (t : Tree) : Nat → Path → List (Path × String)
  | 0, _ => []
  | n + 1, dir =>
    (t.entries dir).flatMap fun e => e :: (if t.isDirectory e.1 then below t n e.1 else [])

/-- No path without `..` leads further down than this. -/
def depth (t : Tree) : Nat := t.nodes.size + t.workdir.length + 1

/-- The entries `.` and `..`, which only a component that starts with a dot can match. -/
def specialEntries (l : List GlobItem) (dir : Path) : List Path :=
  match l with
  | .char '.' :: _ =>
    ([".", ".."].filter fun n => GlobItem.accept l true n.toList).map fun n => dir.join ⟨n⟩
  | _ => []

/-- The path to a name without wildcards, if it is there. -/
def step? (t : Tree) (s : String) (dir : Path) : Option Path :=
  let next := entry dir s
  let there := if s == "." || s == ".." then t.isDirectory dir else t.exists? next
  if there then some next else none

/-- The paths that components name from a directory. -/
def walk (t : Tree) (directories : Bool) : List GlobComponent → Path → List Path
  | [], p => if directories && !t.isDirectory p then [] else [p]
  | .name s :: rest, dir =>
    match t.step? s dir with
    | some next => walk t directories rest next
    | none => []
  | .items l :: rest, dir =>
    if t.isDirectory dir then
      (t.entries dir).flatMap (fun e =>
        if GlobItem.accept l true e.2.toList then walk t directories rest e.1 else []) ++
      (specialEntries l dir).flatMap fun e => walk t directories rest e
    else []
  | [.recursive], dir => ((t.below t.depth dir).filter fun e => t.isDirectory e.1).map Prod.fst
  | .recursive :: c :: rest, dir =>
    (t.below t.depth dir).flatMap fun e =>
      if c.accepts e.2 then walk t directories rest e.1 else []

/-- The paths that a glob names, unless it cannot be read. -/
def list? (t : Tree) (glob : String) : Option TextSet :=
  (Glob.read? glob).map fun g =>
    .ofList ((t.walk g.directories g.components ⟨if g.absolute then "/" else "."⟩).map Path.text)

/-- The paths that a pattern may match. Its named wildcards have yet to be compared. -/
def listing (t : Tree) (p : Pattern) : Except PatternError TextSet :=
  match t.list? p.glob with
  | some paths => .ok paths
  | none => .error .badGlob

end Tree
end DocGraph
