import ScriptIndent.Command.Grammar
import ScriptIndent.Config.Preferences

/-!
# ScriptIndent.Command.Invocation

The commands of the program, and the arguments that spell them.
-/

namespace ScriptIndent

/-- What the option for a number gives. -/
inductive NumberChoice where
  | number (i : Int)
  /-- A double dash stands in place of the number. -/
  | missing
  deriving DecidableEq, Repr

/-- Options that go before the preferences for a style. -/
structure StyleFlags where
  size : Option NumberChoice := none
  tabs : Bool := false
  caseLevels : Option NumberChoice := none
  /-- Script is not indented past its tag. -/
  flushScript : Bool := false
  deriving DecidableEq, Repr

structure CheckArguments where
  flags : StyleFlags := {}
  format : Option ReportFormat := none
  paths : List String := []
  deriving DecidableEq, Repr

structure LevelsArguments where
  flags : StyleFlags := {}
  file : String := ""
  deriving DecidableEq, Repr

structure ConfigArguments where
  key : Option String := none
  value : Option String := none
  /-- A change is written to the file of the user. -/
  user : Bool := false
  deriving DecidableEq, Repr

/-- A command with its arguments. -/
inductive Command where
  /-- Check files and directories. -/
  | check (arguments : CheckArguments)
  /-- List a file with the expected levels of its lines. -/
  | levels (arguments : LevelsArguments)
  /-- Show or change settings. -/
  | config (arguments : ConfigArguments)
  deriving DecidableEq, Repr

/-- How the directory of the project is given. -/
inductive ProjectChoice where
  /-- The surroundings say where it is. -/
  | usual
  | path (text : String)
  /-- A double dash stands in place of the path. -/
  | missing
  deriving DecidableEq, Repr

/-- What the arguments of the program say. -/
structure Invocation where
  project : ProjectChoice := .usual
  /-- All notices are logged. -/
  verbose : Bool := false
  command : Option Command := none
  deriving DecidableEq, Repr

namespace Invocation

open Command (Grammar OptionRule PositionalRule)

/-! ## options -/

variable {σ : Type}

def helpOption : OptionRule σ where
  names := ["-h", "--help"]
  action := .flag fun _ => .error .help

/-- An option that takes a whole number. -/
def numberOption (name : String) (put : NumberChoice → σ → σ) : OptionRule σ where
  names := [name]
  action := .valued fun value s =>
    match value with
    | none => .ok (put .missing s)
    | some text =>
      match Text.integer? text with
      | some i => .ok (put (.number i) s)
      | none => .error (.error (.invalidNumber name text))

/-- An option that raises a flag. -/
def flagOption (names : List String) (raise : σ → σ) : OptionRule σ where
  names
  action := .flag fun s => .ok (raise s)

/-- The options for a style. -/
def styleOptions (edit : (StyleFlags → StyleFlags) → σ → σ) : List (OptionRule σ) := [
  numberOption "--indent-size" fun n => edit fun flags => { flags with size := some n },
  flagOption ["--tabs"] (edit fun flags => { flags with tabs := true }),
  numberOption "--switch-case" fun n => edit fun flags => { flags with caseLevels := some n },
  flagOption ["--no-indent-script"] (edit fun flags => { flags with flushScript := true })]

/-- The option for the format of a report.  Without a value it takes back an
earlier one. -/
def formatOption : OptionRule CheckArguments where
  names := ["--format"]
  action := .valued fun value s =>
    match value with
    | none => .ok { s with format := none }
    | some text =>
      match ReportFormat.ofName? text with
      | some format => .ok { s with format := some format }
      | none => .error (.error (.invalidChoice "--format" text ["text", "json"]))

/-! ## commands -/

def checkGrammar : Grammar CheckArguments where
  options := helpOption :: styleOptions (fun f s => { s with flags := f s.flags })
    ++ [formatOption]
  positionals := [⟨"paths", .many, true, fun paths s => .ok { s with paths }⟩]

def levelsGrammar : Grammar LevelsArguments where
  options := helpOption :: styleOptions fun f s => { s with flags := f s.flags }
  positionals := [⟨"file", .one, true, fun texts s => .ok { s with file := texts.headD "" }⟩]

def configGrammar : Grammar ConfigArguments where
  options := [helpOption, flagOption ["--user"] fun s => { s with user := true }]
  positionals := [
    ⟨"key", .optional, false, fun texts s => .ok { s with key := texts.head? }⟩,
    ⟨"value", .optional, false, fun texts s => .ok { s with value := texts.head? }⟩]

def commandNames : List String := ["check", "levels", "config"]

/-- Read the arguments of a command, by its name. -/
def readCommand (name : String) (args : List String) : Except Stop (Command × List String) :=
  if name = "check" then
    (checkGrammar.read {} args).map fun (a, leftOver) => (.check a, leftOver)
  else if name = "levels" then
    (levelsGrammar.read {} args).map fun (a, leftOver) => (.levels a, leftOver)
  else if name = "config" then
    (configGrammar.read {} args).map fun (a, leftOver) => (.config a, leftOver)
  else .error (.error (.invalidChoice "command" name commandNames))

/-- An invocation, and what its command leaves over. -/
abbrev Draft := Invocation × List String

/-- Read a command from its name and its arguments. -/
def takeCommand (texts : List String) (d : Draft) : Except Stop Draft := do
  let (command, leftOver) ← readCommand (texts.headD "") texts.tail
  return ({ d.1 with command := some command }, leftOver)

/-- The option for the directory of the project. -/
def projectOption : OptionRule Draft where
  names := ["--project", "-p"]
  action := .valued fun value d =>
    .ok ({ d.1 with project := value.elim .missing .path }, d.2)

/-- The grammar of the program. -/
def grammar : Grammar Draft where
  options := [
    helpOption,
    projectOption,
    flagOption ["--verbose", "-v"] fun d => ({ d.1 with verbose := true }, d.2),
    ⟨["--version", "-V"], .flag fun _ => .error .version⟩]
  positionals := [⟨"command", .rest, false, takeCommand⟩]

/-- Read the arguments of the program. -/
def ofArguments (args : List String) : Except Stop Invocation := do
  let ((invocation, inCommand), leftOver) ← grammar.read ({}, []) args
  match leftOver ++ inCommand with
  | [] => return invocation
  | texts => throw (.error (.unrecognized texts))

end Invocation

end ScriptIndent
