import DocGraph.Path.Basic

/-!
# DocGraph.Path.Normal

The lexical normal form of paths, without a look at any file.

* `Component.reduce`  — drops `.`, and lets `..` cancel the name in front of it. At the root `..`
  has nothing to cancel and goes too.
* `Path.normalize`    — the path with reduced components. The empty path becomes `.`.
* `Path.relativeTo`   — a path as seen from another one.
* `Path.parentDir`    — the normal form of what stands in front of the last slash.
* `Path.hide`         — the sibling of a file whose name starts with a dot.
-/

namespace DocGraph

namespace Component

/-- One more component behind reduced ones, which are held last first. -/
def push : List Component → Component → List Component
  | _, root => [root]
  | done, here => done
  | name _ :: done, up => done
  | root :: done, up => root :: done
  | done, up => up :: done
  | done, name s => name s :: done

/-- Components without `.`, where `..` has cancelled the names in front of it. -/
def reduce (cs : List Component) : List Component := (cs.foldl push []).reverse

/-- The text of components with a slash between each two. -/
def joined (cs : List Component) : String := "/".intercalate (cs.map text)

end Component

namespace Path

/-- The path with the given components; without any it is the current directory. -/
def ofComponents : List Component → Path
  | [] => ⟨"."⟩
  | .root :: cs => ⟨"/" ++ Component.joined cs⟩
  | cs => ⟨Component.joined cs⟩

/-- The lexical normal form of a path. -/
def normalize (p : Path) : Path := ofComponents (Component.reduce p.components)

/-- The normal form with the slash at the end of `p`, which marks a directory. -/
def normalizeKeepingSlash (p : Path) : Path :=
  let n := p.normalize
  if p.isDirLike && !n.isDirLike then ⟨n.text ++ "/"⟩ else n

/-- Two lists without the part at which both start. -/
def dropCommon : List Component → List Component → List Component × List Component
  | a :: as, b :: bs => if a = b then dropCommon as bs else (a :: as, b :: bs)
  | as, bs => (as, bs)

/-- `p` as seen from `base`. Both are absolute, or relative to the same directory. -/
def relativeTo (p base : Path) : Path :=
  let (rest, climb) := dropCommon p.normalize.components base.normalize.components
  let ups := (climb.filter (· ≠ .here)).map fun _ => Component.up
  ofComponents (Component.reduce (ups ++ rest))

/-- What stands in front of the last slash, in normal form. A bare name lives in `.`. -/
def parentDir (p : Path) : Path :=
  match p.pieces.dropLast with
  | [] => ⟨"."⟩
  | [[]] => ⟨"/"⟩
  | ps => (ofPieces ps).normalize

/-- The hidden sibling of a file: `dir/name` becomes `dir/.name`. -/
def hide (p : Path) : Path :=
  match p.fileName? with
  | some name => if name.startsWith "." then p else p.withFileName ("." ++ name)
  | none => p

end Path
end DocGraph
