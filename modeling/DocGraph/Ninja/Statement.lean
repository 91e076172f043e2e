import DocGraph.Path.Basic

/-!
# DocGraph.Ninja.Statement

What a Ninja file declares.

* `Rule`, `Pool`  — declarations that build statements refer to by name.
* `Statement`     — one `build` statement.
* `Entry`         — a comment or a statement in the body of the file.
* `Rule.withMkdir` — the variant of a rule that creates directories first.
-/

namespace DocGraph

structure Rule where
  command : String
  description : Option String := none
  depfile : Option String := none
  deps : Option String := none
  pool : Option String := none
  generator : Bool := false
  restat : Bool := false
deriving DecidableEq

/-- A pool of jobs that run at the same time. -/
structure Pool where
  depth : Nat
deriving DecidableEq

namespace Rule

/-- A rule that has nothing but a shell command. -/
def ofCommand (command : String) : Rule := { command }

/-- The rule of aliases, which Ninja itself provides. -/
def phony : String := "phony"

/-- The rule of statements whose inputs are missing. Building them always fails. -/
def errorMissing : String := "error_missing"

/-- What follows the name of a rule in the name of its variant that creates directories. -/
def mkdirSuffix : String := "_mkdir"

/-- The variant that first creates the directories in the variable `dstdirs`. -/
def withMkdir (r : Rule) : Rule := { r with command := "mkdir -p ${dstdirs} && " ++ r.command }

end Rule

/-- The pool that Ninja itself provides. -/
def Pool.console : String := "console"

structure Statement where
  rule : String
  outputs : List Path := []
  implicitOutputs : List Path := []
  inputs : List Path := []
  implicit : List Path := []
  orderOnly : List Path := []
  vars : Table String := ∅
  pool : Option String := none
  depfile : Option String := none
deriving DecidableEq

namespace Statement

def allOutputs (s : Statement) : List Path := s.outputs ++ s.implicitOutputs

def allInputs (s : Statement) : List Path := s.inputs ++ s.implicit ++ s.orderOnly

/-- The statement with every path replaced, the first failure winning. -/
def mapPaths {ε : Type} (f : Path → Except ε Path) (s : Statement) : Except ε Statement := do
  return { s with
    outputs := ← s.outputs.mapM f
    implicitOutputs := ← s.implicitOutputs.mapM f
    inputs := ← s.inputs.mapM f
    implicit := ← s.implicit.mapM f
    orderOnly := ← s.orderOnly.mapM f }

/-- The statement with the lists sorted whose order carries no meaning. -/
def tidy (s : Statement) : Statement :=
  { s with
    implicit := Path.sorted s.implicit
    implicitOutputs := Path.sorted s.implicitOutputs
    orderOnly := Path.sorted s.orderOnly }

end Statement

inductive Entry where
  | comment (text : String)
  | build (statement : Statement)
deriving DecidableEq

def Entry.statement? : Entry → Option Statement
  | comment _ => none
  | build s => some s

end DocGraph
