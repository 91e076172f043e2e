import DocGraph.Command.Basic

/-!
# DocGraph.Builtin.Shape

Requirements that several commands share: how many inputs and outputs there are, and how their
names end.
-/

namespace DocGraph
namespace Builtin

/-- The only path of a list. -/
def single (paths : List Path) (what : String) : Except CommandError Path :=
  match paths with
  | [p] => .ok p
  | _ => .error (.notSingle what paths)

def noOutputs (outputs : List Path) : Except CommandError Unit :=
  if outputs.isEmpty then .ok () else .error (.unexpectedOutputs outputs)

/-- The text of a path in front of an ending that it must have. -/
def stem (p : Path) (ending what : String) : Except CommandError String :=
  match Text.stripSuffix? ending p.text with
  | some s => .ok s
  | none => .error (.wrongEnding what ending p)

/-- Refuse paths without a given ending. -/
def allWithEnding (paths : List Path) (ending what : String) : Except CommandError Unit :=
  paths.forM fun p => discard (stem p ending what)

/-- A command that takes no argument. -/
def plainCommand (name : String) (rules : List (String × Rule)) (action : Action) : Command where
  name := name
  rules := Table.ofPairs rules
  action? arg := if arg.bare.isNull then some action else none

end Builtin
end DocGraph
