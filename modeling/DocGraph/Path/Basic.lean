import DocGraph.Ordered
import DocGraph.Text.Basic

/-!
# DocGraph.Path.Basic

Paths are texts that stand for a list of components.

* `Path.components` — what a path names, step by step. Empty pieces and `.` count only at the
  start, where they mark an absolute path and the current directory.
* `Path.size`       — how many bytes this takes.
* `Path.Same`       — paths with equal components. Sets and orders of paths go by components, and
  a path keeps the text it was written with.
* `Path.join`, `Path.parent?`, `Path.fileName?`, `Path.extension?` — the usual access functions.
* `PathSet`         — a set of paths in the order of their components.
-/

namespace DocGraph

/-- One step of a path. -/
inductive Component where
  | root
  | here
  | up
  | name (text : String)
deriving DecidableEq

namespace Component

/-- Position of the kind of a component in the order of components. -/
def rank : Component → Nat
  | root => 0
  | here => 1
  | up => 2
  | name _ => 3

def text : Component → String
  | root => "/"
  | here => "."
  | up => ".."
  | name s => s

/-- The bytes of a component in a path, with the mark that ends it. The root is nothing but its
mark. -/
def bytes : Component → List UInt8
  | root => String.utf8EncodeChar '/'
  | c => (c.text.toList ++ ['/']).flatMap String.utf8EncodeChar

instance : Ord Component := ⟨compareLex (compareOn rank) (compareOn text)⟩

instance : Std.TransOrd Component :=
  inferInstanceAs (Std.TransCmp (compareLex (compareOn rank) (compareOn text)))

instance : Std.LawfulEqOrd Component where
  eq_of_compare {a b} h := by
    have h' : (compare a.rank b.rank).then (compare a.text b.text) = .eq := h
    obtain ⟨h₁, h₂⟩ := Ordering.then_eq_eq.1 h'
    have hr := Std.compare_eq_iff_eq.1 h₁
    have ht := Std.compare_eq_iff_eq.1 h₂
    cases a <;> cases b <;> simp_all [rank, text]

/-- The component of a piece between slashes after the first. -/
def ofPiece? : List Char → Option Component
  | [] => none
  | ['.'] => none
  | ['.', '.'] => some up
  | cs => some (name (String.ofList cs))

end Component

/-- A path as it is written. -/
structure Path where
  text : String
deriving DecidableEq

namespace Path

instance : Inhabited Path := ⟨⟨""⟩⟩

instance : Coe String Path := ⟨Path.mk⟩

def pieces (p : Path) : List (List Char) := p.text.toList.splitOn '/'

def ofPieces (ps : List (List Char)) : Path := ⟨String.ofList (['/'].intercalate ps)⟩

@[simp] theorem ofPieces_pieces (p : Path) : ofPieces p.pieces = p := by
  cases p; simp [ofPieces, pieces, List.intercalate_splitOn]

def isAbsolute (p : Path) : Bool := p.text.toList.head? == some '/'

/-- Whether a path is written with a slash at its end, as directories are. -/
def isDirLike (p : Path) : Bool := Text.endsWith '/' p.text

def componentsOf : List (List Char) → List Component
  | [] :: r :: rest => .root :: (r :: rest).filterMap Component.ofPiece?
  | ['.'] :: rest => .here :: rest.filterMap Component.ofPiece?
  | ps => ps.filterMap Component.ofPiece?

/-- What a path names, step by step. -/
def components (p : Path) : List Component := componentsOf p.pieces

/-- How many bytes a path takes, if it is written as its components. -/
def size (p : Path) : Nat := (p.components.flatMap Component.bytes).length

/-- Paths that name the same by their components. -/
def Same (p q : Path) : Prop := p.components = q.components

instance (p q : Path) : Decidable (Same p q) := inferInstanceAs (Decidable (_ = _))

/-- `q` as seen from `p`; an absolute `q` stays as it is. -/
def join (p q : Path) : Path :=
  if q.isAbsolute then q
  else if p.text.isEmpty || p.isDirLike then ⟨p.text ++ q.text⟩
  else ⟨p.text ++ "/" ++ q.text⟩

/-- A piece after the first that adds no component. -/
def isFiller (piece : List Char) : Bool := piece == [] || piece == ['.']

/-- The first piece, the pieces up to the last component, and the piece of that component. The
last component is the first piece itself when nothing that counts follows it. -/
def lastPiece (ps : List (List Char)) : List (List Char) × List Char :=
  match ps with
  | [] => ([], [])
  | first :: rest =>
    let kept := Text.dropTrailing isFiller rest
    match kept.getLast? with
    | some l => (first :: kept.dropLast, l)
    | none => ([], first)

/-- The name of the last component. -/
def fileName? (p : Path) : Option String :=
  match p.components.getLast? with
  | some (.name s) => some s
  | _ => none

/-- The path without its last component, which must not be the root. -/
def parent? (p : Path) : Option Path :=
  match lastPiece p.pieces with
  | ([], []) => none
  | ([], _) => some ⟨""⟩
  | (first :: before, _) =>
    match first :: Text.dropTrailing isFiller before with
    | [[]] => some ⟨"/"⟩
    | ps => some (ofPieces ps)

/-- The path, its parent, the parent of that and so on. A parent is shorter than its path, so
the length of the text bounds their number. -/
def ancestors (p : Path) : List Path := go p.text.length p
where
  go : Nat → Path → List Path
    | 0, p => [p]
    | n + 1, p => p :: (match p.parent? with
      | some q => go n q
      | none => [])

/-- The path with another name in place of the last one. -/
def withFileName (p : Path) (name : String) : Path :=
  match p.fileName?, p.parent? with
  | some _, some q => q.join ⟨name⟩
  | _, _ => p.join ⟨name⟩

/-- A file name cut at its last dot, which must not be the first character. -/
def cutName (name : String) : String × Option String :=
  let cs := name.toList
  let after := (cs.reverse.takeWhile (· != '.')).reverse
  let stem := cs.take (cs.length - after.length - 1)
  if stem.isEmpty then (name, none) else (String.ofList stem, some (String.ofList after))

/-- What follows the last dot of the file name. -/
def extension? (p : Path) : Option String := p.fileName?.bind fun name => (cutName name).2

/-- The file name without its extension. -/
def fileStem? (p : Path) : Option String := p.fileName?.map fun name => (cutName name).1

/-- The path with the extension `ext` in place of its own. What follows the file name goes. -/
def withExtension (p : Path) (ext : String) : Path :=
  match p.fileStem? with
  | none => p
  | some stem =>
    ofPieces ((lastPiece p.pieces).1 ++ [stem.toList ++ '.' :: ext.toList])

/-- Whether the components of `base` start those of `p`. -/
def startsWith (p base : Path) : Bool := base.components.isPrefixOf p.components

/-- Paths with a space between each two. -/
def spaced (l : List Path) : String := Text.spaced (l.map text)

end Path

/-- A set of paths in the order of their components. Of paths with the same components, the
set holds the text that came first. -/
abbrev PathSet := SortedBy Path.components

/-- Paths in the order of their components, the first of each. -/
def Path.sorted (l : List Path) : List Path := (SortedBy.ofList l : PathSet).toList

end DocGraph
