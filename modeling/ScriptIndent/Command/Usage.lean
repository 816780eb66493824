import ScriptIndent.Text.Quoted

/-!
# ScriptIndent.Command.Usage

What can be wrong with the arguments of a command.
-/

namespace ScriptIndent

/-- Why arguments are not understood. -/
inductive UsageError where
  /-- An option that takes a value has none. -/
  | expectedValue (option : String)
  /-- An option that takes no value has one. -/
  | unexpectedValue (option value : String)
  /-- The start of the names of several options. -/
  | ambiguous (given : String) (candidates : List String)
  | invalidNumber (option text : String)
  | invalidChoice (argument text : String) (choices : List String)
  /-- Arguments that have to be there are not. -/
  | missing (names : List String)
  /-- There are arguments that nothing takes. -/
  | unrecognized (texts : List String)
  deriving DecidableEq, Repr

namespace UsageError

/-- Texts with commas between them. -/
def listed (texts : List String) : String := ", ".intercalate texts

/-- The message for arguments that are not understood. -/
def message : UsageError → String
  | .expectedValue option => s!"argument {option}: expected one argument"
  | .unexpectedValue option value =>
    s!"argument {option}: ignored explicit argument {Text.quoted value}"
  | .ambiguous given candidates =>
    s!"ambiguous option: {given} could match {listed candidates}"
  | .invalidNumber option text => s!"argument {option}: invalid int value: {Text.quoted text}"
  | .invalidChoice argument text choices =>
    let quoted := listed (choices.map Text.quoted)
    s!"argument {argument}: invalid choice: {Text.quoted text} (choose from {quoted})"
  | .missing names => s!"the following arguments are required: {listed names}"
  | .unrecognized texts => "unrecognized arguments: " ++ " ".intercalate texts

end UsageError

/-- Why the reading of arguments ends early. -/
inductive Stop where
  /-- Help is asked for. -/
  | help
  /-- The version is asked for. -/
  | version
  | error (cause : UsageError)
  deriving DecidableEq, Repr

end ScriptIndent
