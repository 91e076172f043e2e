import DocGraph.Text.Basic

/-!
# DocGraph.CommandLine

What the program is asked to do.

* `Mode`        — only write the build file, or run Ninja afterwards.
* `Invocation`  — the directory of the project and the mode.
* `Invocation.parse?` — reads arguments. Those behind the mode are for Ninja, and without a mode all
  of them are.
-/

namespace DocGraph

inductive Mode where
  | generate
  | build (arguments : List String)
deriving DecidableEq

/-- What the program is asked to do. -/
structure Invocation where
  root : String := "."
  mode : Mode
deriving DecidableEq

namespace Invocation

def usage : String := "usage: docgraph [-C DIRECTORY] [generate | build [NINJA ARGUMENTS]]"

/-- The mode behind the options. -/
def mode? : List String → Option Mode
  | ["generate"] => some .generate
  | "generate" :: _ => none
  | "build" :: arguments => some (.build arguments)
  | arguments => some (.build arguments)

/-- Read arguments. The directory is named first, if at all. -/
def parse? (arguments : List String) : Option Invocation :=
  match arguments with
  | ["-C"] | ["--root"] => none
  | "-C" :: root :: rest | "--root" :: root :: rest => (mode? rest).map fun mode => ⟨root, mode⟩
  | arguments => (mode? arguments).map fun mode => ⟨".", mode⟩

/-- Variables of the environment whose names start with this are variables of the project. -/
def environmentPrefix : String := "PAPERWEAVE_VARIABLE_"

/-- The variable of the project that a line of the environment sets. -/
def setting? (line : String) : Option (String × String) := do
  let rest ← Text.stripPrefix? environmentPrefix line
  let name := rest.toList.takeWhile (· != '=')
  if name.length < rest.length then
    return (String.ofList name, String.ofList (rest.toList.drop (name.length + 1)))
  else none

end Invocation
end DocGraph
