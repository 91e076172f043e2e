import DocGraph.Command.Basic
import DocGraph.Pattern.Basic
import DocGraph.Template

/-!
# DocGraph.Config.Error

Why a configuration is refused.
-/

namespace DocGraph

/-- Why a configuration is refused. -/
inductive ConfigError where
  | unreadable
  | malformed
  /-- Directories contain each other, so that there is no end to them. -/
  | tooDeep
  | unknownImport (name : String)
  | unknownCommand (name : String)
  /-- A name of the given kind is no identifier. -/
  | invalidName (kind name : String)
  | notText (variableName : String)
  /-- A row of a loop has not as many values as there are keys. -/
  | loopRow (row keys : List String)
  | noInputs (command : String)
  | manyOutputs (command : String) (outputs : List String)
  /-- An argument that has no text, or that its command refuses. -/
  | argument (command : String) (cause : Option CommandError)
  | template (error : Template.Error)
  | pattern (error : PatternError)
  /-- An error inside a configuration file. -/
  | inFile (path : Path) (error : ConfigError)
deriving DecidableEq

def ConfigError.message : ConfigError → String
  | unreadable => "Couldn't read the configuration."
  | malformed => "Couldn't parse the configuration."
  | tooDeep => "The directories are nested too deeply."
  | unknownImport name => s!"Unknown import '{name}'"
  | unknownCommand name => s!"Unknown command '{name}'"
  | invalidName kind name => s!"Invalid {kind} name '{name}'"
  | notText name => s!"Variable '{name}' must be a string"
  | loopRow row keys =>
    "Invalid loop: row '" ++ Text.spaced row ++ "' does not match keys '" ++ Text.spaced keys ++ "'"
  | noInputs command => s!"Command '{command}' needs at least one input pattern"
  | manyOutputs command outputs =>
    s!"Command '{command}' accepts at most one output pattern, got: " ++ Text.spaced outputs
  | argument command cause =>
    "\n".intercalate (s!"Invalid argument for command '{command}'." ::
      (cause.bind (·.causes.head?)).toList)
  | template error => error.message
  | pattern error => error.message
  | inFile path error => path.text ++ ":\n" ++ error.message

end DocGraph
