import DocGraph.Ordered.Lemmas
import DocGraph.Path.Basic

/-!
# DocGraph.Tree.Basic

File trees with a working directory.

* `Tree`          — files and directories by their location, which is the list of names on the way
  from the root. Everything stands in a directory.
* `Tree.locate?`  — the location that a path leads to. Every piece of a path must be passed in a
  directory, so `a.txt/` leads nowhere if `a.txt` is a file. Above the root is the root again.
  A path that takes too many bytes leads nowhere.
* `Tree.isFile`, `Tree.isDirectory`, `Tree.exists`, `Tree.read?` — questions about a path.
* `Tree.names`    — the names in a directory.
* `Tree.put`, `Tree.remove` — changes of a single node.
-/

namespace DocGraph

/-- Bytes are equal if their arrays are. -/
instance decidableEqBytes : DecidableEq ByteArray := fun a b =>
  decidable_of_iff (a.data = b.data) ⟨ByteArray.ext, congrArg _⟩

inductive Node where
  | file (content : ByteArray)
  | directory
deriving DecidableEq

/-- The names on the way from the root. -/
abbrev Location := List String

/-- Files and directories. The working directory and everything above it are directories. -/
structure Tree where
  workdir : Location
  nodes : SortedBy (Prod.fst : Location × Node → Location)
  /-- A path that takes more bytes leads nowhere. -/
  longest : Nat := 4096
  /-- Every system admits paths of so many bytes. -/
  long_enough : 256 ≤ longest := by decide
  /-- Everything stands in a directory. -/
  closed : ∀ e ∈ nodes, e.1.dropLast <+: workdir ∨ (e.1.dropLast, .directory) ∈ nodes
deriving DecidableEq

namespace Tree

def node? (t : Tree) (loc : Location) : Option Node :=
  if loc.isPrefixOf t.workdir then some .directory else (t.nodes.find? loc).map Prod.snd

def isDirectoryAt (t : Tree) (loc : Location) : Bool := t.node? loc == some .directory

/-- Go on from a directory by one piece of a path. -/
def enter? (t : Tree) (loc : Location) (piece : List Char) : Option Location :=
  if !t.isDirectoryAt loc then none
  else match Component.ofPiece? piece with
    | some (.name s) => if (t.node? (loc ++ [s])).isSome then some (loc ++ [s]) else none
    | some .up => some loc.dropLast
    | _ => some loc

/-- Where a path starts. -/
def start (t : Tree) (p : Path) : Location := if p.isAbsolute then [] else t.workdir

/-- Whether a path is short enough to lead anywhere. -/
def admits (t : Tree) (p : Path) : Bool := p.size ≤ t.longest

/-- The location that a path leads to. -/
def locate? (t : Tree) (p : Path) : Option Location :=
  if p.text.isEmpty || !t.admits p then none else p.pieces.foldlM t.enter? (t.start p)

/-- What a path leads to. -/
def at? (t : Tree) (p : Path) : Option Node := (t.locate? p).bind t.node?

/-- Whether a path leads to a file or a directory. -/
def exists? (t : Tree) (p : Path) : Bool := (t.locate? p).isSome

def isFile (t : Tree) (p : Path) : Bool :=
  match t.at? p with
  | some (.file _) => true
  | _ => false

def isDirectory (t : Tree) (p : Path) : Bool := t.at? p == some .directory

def read? (t : Tree) (p : Path) : Option ByteArray :=
  match t.at? p with
  | some (.file content) => some content
  | _ => none

/-- The name of a location right below `dir`. -/
def childName? (dir loc : Location) : Option String :=
  match dir.isPrefixOf? loc with
  | some [name] => some name
  | _ => none

/-- The names in the directory at a location. -/
def namesAt (t : Tree) (dir : Location) : TextSet :=
  .ofList ((t.nodes.toList.map Prod.fst ++ [t.workdir.take (dir.length + 1)]).filterMap
    (childName? dir))

/-- The names in the directory that a path leads to. -/
def names (t : Tree) (p : Path) : List String :=
  match t.locate? p with
  | some loc => if t.isDirectoryAt loc then (t.namesAt loc).toList else []
  | none => []

/-! ## Changes -/

theorem isDirectoryAt_iff {t : Tree} {loc : Location} :
    t.isDirectoryAt loc = true ↔ loc <+: t.workdir ∨ (loc, .directory) ∈ t.nodes := by
  rw [isDirectoryAt, beq_iff_eq, node?]
  split
  · next habove => exact iff_of_true rfl (.inl (List.isPrefixOf_iff_prefix.1 habove))
  · next hbelow =>
    rw [Option.map_eq_some_iff, or_iff_right (mt List.isPrefixOf_iff_prefix.2 hbelow)]
    constructor
    · rintro ⟨⟨loc', n⟩, hfind, hnode⟩
      obtain ⟨hmem, hloc⟩ := SortedBy.find?_eq_some_iff.1 hfind
      cases hloc
      cases hnode
      exact hmem
    · intro hmem
      exact ⟨_, SortedBy.find?_eq_some_iff.2 ⟨hmem, rfl⟩, rfl⟩

/-- Everything still stands in a directory behind a node that is put in one, unless a file takes the
place of a directory. -/
theorem closed_put (t : Tree) {loc : Location} {n : Node}
    (hdir : t.isDirectoryAt loc.dropLast = true)
    (hloc : n = .directory ∨ t.isDirectoryAt loc = false) :
    ∀ e ∈ t.nodes.put (loc, n),
      e.1.dropLast <+: t.workdir ∨ (e.1.dropLast, .directory) ∈ t.nodes.put (loc, n) := by
  have hkeeps (dir : Location) (h : dir <+: t.workdir ∨ (dir, .directory) ∈ t.nodes) :
      dir <+: t.workdir ∨ (dir, .directory) ∈ t.nodes.put (loc, n) := by
    refine h.imp_right fun hmem => SortedBy.mem_put.2 ?_
    by_cases heq : dir = loc
    · subst heq
      rcases hloc with rfl | hnot
      · exact .inl rfl
      · rw [isDirectoryAt_iff.2 (.inr hmem)] at hnot
        cases hnot
    · exact .inr ⟨hmem, heq⟩
  intro e he
  rcases SortedBy.mem_put.1 he with rfl | ⟨hmem, -⟩
  · exact hkeeps _ (isDirectoryAt_iff.1 hdir)
  · exact hkeeps _ (t.closed e hmem)

/-- Put a node in a directory. A file takes no place of a directory. -/
def put (t : Tree) (loc : Location) (n : Node) : Tree :=
  if h : t.isDirectoryAt loc.dropLast = true ∧ (n = .directory ∨ t.isDirectoryAt loc = false) then
    { t with nodes := t.nodes.put (loc, n), closed := t.closed_put h.1 h.2 }
  else t

@[simp] theorem workdir_put (t : Tree) (loc : Location) (n : Node) :
    (t.put loc n).workdir = t.workdir := by
  unfold put
  split <;> rfl

@[simp] theorem longest_put (t : Tree) (loc : Location) (n : Node) :
    (t.put loc n).longest = t.longest := by
  unfold put
  split <;> rfl

theorem nodes_put {t : Tree} {loc : Location} {n : Node}
    (hdir : t.isDirectoryAt loc.dropLast = true)
    (hloc : n = .directory ∨ t.isDirectoryAt loc = false) :
    (t.put loc n).nodes = t.nodes.put (loc, n) := by
  rw [put, dif_pos ⟨hdir, hloc⟩]

theorem closed_remove (t : Tree) (loc : Location) :
    ∀ e ∈ t.nodes.filter (fun e => !loc.isPrefixOf e.1), e.1.dropLast <+: t.workdir ∨
      (e.1.dropLast, .directory) ∈ t.nodes.filter (fun e => !loc.isPrefixOf e.1) := by
  intro e he
  obtain ⟨hmem, hkeep⟩ := SortedBy.mem_filter.1 he
  refine (t.closed e hmem).imp_right fun hdir => SortedBy.mem_filter.2 ⟨hdir, ?_⟩
  rw [Bool.not_eq_true', ← Bool.not_eq_true, List.isPrefixOf_iff_prefix] at hkeep ⊢
  exact mt (·.trans (List.dropLast_prefix _)) hkeep

/-- Take away what stands at a location and below. -/
def remove (t : Tree) (loc : Location) : Tree :=
  { t with
    nodes := t.nodes.filter fun e => !loc.isPrefixOf e.1
    closed := t.closed_remove loc }

/-- The tree without files, with the given working directory. -/
def bare (workdir : Location) : Tree where
  workdir := workdir
  nodes := ∅
  closed := nofun

end Tree
end DocGraph
