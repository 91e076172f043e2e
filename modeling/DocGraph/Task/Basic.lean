import DocGraph.Config.Error

/-!
# DocGraph.Task.Basic

Tasks: one command with patterns for its inputs.

* `Task`               — a declared unit of work.
* `Task.declare`       — a task without output or variables; its argument is read right away.
* `Task.withConstants` — the task with the configuration variables that hold for it.
* `Task.describe`      — the task as it is named in comments and errors.
-/

namespace DocGraph

structure Task where
  command : Command
  /-- What the command does with its argument. -/
  action : Action
  inputs : List Pattern
  /-- A template of the output, which named wildcards complete. -/
  output : Option String := none
  argument : Option String := none
  /-- Whether the results are built when no targets are named. -/
  isDefault : Bool := true
  /-- Whether there need not be any match. -/
  isOptional : Bool := false
  /-- Whether only results of earlier tasks match, and no files. -/
  builtInputsOnly : Bool := false
  /-- The barriers that every result waits for. -/
  after : List String := []
  constants : Variables := ∅
  /-- Inputs that match may be missing. -/
  ignoreMissing : List Pattern := []

namespace Task

/-- The variable with patterns of inputs that may be missing. -/
def ignoreMissingName : String := "ignore_missing"

/-- The text of an argument, which null has not. -/
def argumentText (command : Command) (arg : Option Yaml.Value) :
    Except ConfigError (Option String) :=
  match arg with
  | none | some .null => .ok none
  | some v =>
    match v.toJson? with
    | some j => .ok (some j.compact)
    | none => .error (.argument command.name none)

/-- A task without output or variables, which is built by default. -/
def declare (command : Command) (inputs : List Pattern) (arg : Option Yaml.Value) :
    Except ConfigError Task := do
  if inputs.isEmpty then throw (.noInputs command.name)
  let argument ← argumentText command arg
  let action ← (command.prepare arg).mapError fun e => .argument command.name (some e)
  return { command, action, inputs, argument }

/-- The patterns of inputs that may be missing. -/
def ignoredPatterns (constants : Variables) : Except PatternError (List Pattern) :=
  match constants.get? ignoreMissingName with
  | some text => (Text.words text).mapM Pattern.compile
  | none => .ok []

/-- The task with configuration variables. They fill placeholders of statements in, and take the
place of variables of statements. -/
def withConstants (t : Task) (constants : Variables) : Except ConfigError Task := do
  let ignored ← (ignoredPatterns constants).mapError .pattern
  return { t with constants := constants, ignoreMissing := ignored }

/-- A command with inputs, outputs and an argument, as it is named in errors. -/
def describeWith (t : Task) (inputs : String) (output : Option String) : String :=
  let out := match output with
    | some s => ", out: " ++ s
    | none => ""
  let arg := match t.argument with
    | some s => ", arg: " ++ s
    | none => ""
  t.command.name ++ " (inp: " ++ inputs ++ out ++ arg ++ ")"

def describe (t : Task) : String :=
  t.describeWith (Text.spaced (t.inputs.map Pattern.source)) t.output

/-- Outputs as they are named, if there are any. -/
def listed (outputs : List Path) : Option String :=
  if outputs.isEmpty then none else some (Path.spaced outputs)

/-- The task with matched inputs, as it is named in errors. -/
def describeMatch (t : Task) (inputs outputs : List Path) : String :=
  t.describeWith (Path.spaced inputs) (listed outputs)

end Task
end DocGraph
