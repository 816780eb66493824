import ScriptIndent.Command.Files
import ScriptIndent.Command.Invocation
import ScriptIndent.Config.Session
import ScriptIndent.Output.Encoding
import ScriptIndent.Report.Text

/-!
# ScriptIndent.Command.Run

Running the program.

A run reads its arguments, loads the preferences, lays the options over them,
and carries out its command.  It ends with exit code 0 if all is well, with 1 if
a check has found violations, and with 2 after an error.
-/

namespace ScriptIndent

/-- All that a run depends on, its arguments apart. -/
structure Surroundings where
  workspace : Workspace
  environment : Environment
  /-- The home directory of the user. -/
  home : Path
  /-- The encoding of both streams. -/
  encoding : Encoding
  /-- The value that the bytes of a configuration file spell. -/
  reader : Bytes → Option Value
  /-- The bytes of a configuration file that holds preferences. -/
  writer : Preferences → Bytes := Document.bytesOf
  parsers : Parsers

/-- What a run has led to. -/
structure Outcome where
  exit : Nat
  /-- What was printed. -/
  out : String := ""
  /-- What was printed about errors. -/
  err : String := ""
  notices : List Notice := []
  /-- All notices are logged, not only warnings. -/
  verbose : Bool := false
  workspace : Workspace

/-- Why a run broke off. -/
inductive Crash where
  | source (fault : SourceFault)
  | config (fault : ConfigFault)
  /-- A message has characters that its stream cannot take. -/
  | unprintable
  /-- The project is given as a double dash. -/
  | noProject

/-- The message of a crash. -/
def Crash.message : Crash → String
  | .source (.damaged _) => "A syntax tree is damaged."
  | .config (.load (.invalid cause)) => cause.message
  | .source (.file error) | .config (.load (.file error)) | .config (.file error) =>
    error.message
  | .config (.load _) => "A section of the configuration is not a mapping."
  | .unprintable => "A message cannot be printed."
  | .noProject => "The project is not a path."

namespace Outcome

/-- The lines of the log.  A grammar is loaded once in a run. -/
def log (o : Outcome) : List String :=
  ((Notice.loadedOnce [] o.notices).filter fun n => o.verbose || n.weight = .warning).map
    Notice.logLine

/-- The exit code for results of a check. -/
def exitCode (results : List CheckResult) : Nat :=
  if results.any (·.error.isSome) then 2
  else if results.any (!·.violations.isEmpty) then 1
  else 0

end Outcome

/-! ## texts -/

/-- The version of the program. -/
def versionText : String := "esindent 0.1.0\n"

/-- How to use the program. -/
def helpText : String := "\n".intercalate [
  "usage: esindent [--project DIR] [--verbose] COMMAND ...",
  "",
  "commands:",
  "  check PATH...        report lines whose indentation is not as expected",
  "  levels FILE          list a file with the expected level of each line",
  "  config [KEY [VALUE]] show the settings, show one, or change one",
  "",
  "options of check and levels:",
  "  --indent-size N      spaces for one level",
  "  --tabs               indent with tabs",
  "  --switch-case N      levels of the clauses in a switch statement",
  "  --no-indent-script   do not indent script past its tag",
  "",
  "options of check:",
  "  --format FORMAT      text or json",
  "",
  "options of config:",
  "  --user               write to the file of the user",
  ""]

/-! ## preferences -/

/-- The value that an option gives to a setting.  One without a number gives an
empty list. -/
def NumberChoice.value : NumberChoice → Value
  | .number i => .int i
  | .missing => .list []

/-- The settings that flags give, with their values. -/
def StyleFlags.given (f : StyleFlags) : List (Setting × Value) :=
  f.size.toList.map (fun n => (.indentSize, n.value))
    ++ (if f.tabs then [(.indentType, .string IndentUnit.tab.name)] else [])
    ++ f.caseLevels.toList.map (fun n => (.switchCase, n.value))
    ++ (if f.flushScript then [(.indentScript, .bool false)] else [])

/-- The flags of a command. -/
def Command.flags : Command → StyleFlags
  | .check a => a.flags
  | .levels a => a.flags
  | .config _ => {}

/-- The format that a command asks for. -/
def Command.format? : Command → Option ReportFormat
  | .check a => a.format
  | _ => none

/-- The settings that the options of a command give, with their values. -/
def Command.given (c : Command) : List (Setting × Value) :=
  c.flags.given ++ c.format?.toList.map (fun format => (.format, .string format.name))

/-- Preferences with the options of a command laid over them.  They have to be
valid. -/
def Preferences.override (p : Preferences) (command : Command) :
    Except InvalidSetting Preferences :=
  (command.given.foldl (fun s (setting, value) => s.put setting value) p.settings).validate

namespace Surroundings

/-- The directory of the project: the one given, that of the environment, or
the one where the program runs. -/
def projectPath? (s : Surroundings) : ProjectChoice → Option Path
  | .usual => some (Path.ofString ((s.environment.get? "ESINDENT_PROJECT_PATH").getD "."))
  | .path text => some (Path.ofString text)
  | .missing => none

/-- The session for a project. -/
def session (s : Surroundings) (project : Path) : ConfigSession where
  sources := {
    project
    user := s.home.child ConfigSources.directoryName
    environment := s.environment
    reader := s.reader
    writer := s.writer }
  workspace := s.workspace

/-- The rich symbols are likely to show. -/
def showsSymbols (s : Surroundings) : Bool :=
  Symbols.supported s.environment (some s.encoding.name)

/-- The symbols for preferences. -/
def symbols (s : Surroundings) (p : Preferences) : Symbols := .choose p.symbols s.showsSymbols

/-! ## commands -/

/-- Print a line and end. -/
def printed (s : Surroundings) (exit : Nat) (text : String) : Outcome :=
  { exit, out := printedLine s.encoding text, workspace := s.workspace }

/-- Print a line about an error and end. -/
def complaint (s : Surroundings) (text : String) : Outcome :=
  { exit := 2, err := printedLine s.encoding text, workspace := s.workspace }

/-- Check files and directories. -/
def check (s : Surroundings) (p : Preferences) (a : CheckArguments) : Except Crash Outcome :=
  let candidates := a.paths.flatMap fun path =>
    Candidate.ofPath .builtin s.workspace (Path.ofString path)
  let checked := FilesCheck.ofCandidates
    (FileCheck.ofPath .builtin s.parsers p.style s.workspace) candidates
  match checked.results with
  | .error fault => .error (.source fault)
  | .ok results =>
    .ok { s.printed (Outcome.exitCode results) (report p.format (s.symbols p) results) with
      notices := checked.notices }

/-- List a file with the expected levels of its lines. -/
def levels (s : Surroundings) (p : Preferences) (a : LevelsArguments) : Except Crash Outcome :=
  let path := Path.ofString a.file
  let failed (reason : String) := s.complaint s!"{(s.symbols p).fail} {path}: {reason}"
  match s.workspace.read path with
  | .error e => if e.trouble.isSystems then .ok (failed e.message) else .error (.source (.file e))
  | .ok bytes =>
    let judged := Judged.of .builtin s.parsers p.style bytes (some path.toString)
      (listing (s.symbols p))
    match judged.result with
    | .ok text => .ok { s.printed 0 text with notices := judged.notices }
    | .error (.problem problem) => .ok { failed problem.message with notices := judged.notices }
    | .error (.damaged d) => .error (.source (.damaged d))

/-- Change a setting. -/
def change (s : Surroundings) (p : Preferences) (x : ConfigSession) (key value : String)
    (scope : Scope) : Except Crash Outcome :=
  let symbols := s.symbols p
  match x.set key value scope with
  | (.error fault, _) => .error (.config fault)
  | (.ok (some refusal), x) =>
    .ok { s.complaint s!"{symbols.fail} {refusal.message}" with notices := x.notices }
  | (.ok none, x) =>
    .ok { s.printed 0 s!"{symbols.pass} {key} = {value}" with
      notices := x.notices, workspace := x.workspace }

/-- Show a setting. -/
def showSetting (s : Surroundings) (p : Preferences) (x : ConfigSession) (key : String) :
    Except Crash Outcome :=
  match x.get key with
  | (.error fault, _) => .error (.config (.load fault))
  | (.ok (some text), x) => .ok { s.printed 0 text with notices := x.notices }
  | (.ok none, x) =>
    .ok { s.complaint s!"{(s.symbols p).fail} Unknown setting: {key}" with notices := x.notices }

/-- Show all settings. -/
def showSettings (s : Surroundings) (x : ConfigSession) : Except Crash Outcome :=
  match x.display (.choose .auto s.showsSymbols) with
  | (.error fault, _) => .error (.config (.load fault))
  | (.ok text, x) => .ok { s.printed 0 text with notices := x.notices }

/-- Show or change settings. -/
def config (s : Surroundings) (p : Preferences) (project : Path) (a : ConfigArguments) :
    Except Crash Outcome :=
  let x := s.session project
  match a.key, a.value with
  | some key, some value => s.change p x key value (if a.user then .user else .project)
  | some key, none => s.showSetting p x key
  | none, _ => s.showSettings x

/-- Carry out a command with preferences that are valid for it. -/
def perform (s : Surroundings) (p : Preferences) (project : Path) :
    Command → Except Crash Outcome
  | .check a => s.check p a
  | .levels a => s.levels p a
  | .config a => s.config p project a

/-! ## runs -/

/-- Load the preferences and carry out a command. -/
def runCommand (s : Surroundings) (project : Path) (command : Command) : Except Crash Outcome :=
  let loading := (s.session project).sources.load s.workspace
  let invalid (cause : InvalidSetting) : Except Crash Outcome :=
    .ok { s.complaint s!"Error: {cause.message}" with notices := loading.notices }
  match loading.result with
  | .error (.invalid cause) => invalid cause
  | .error fault => .error (.config (.load fault))
  | .ok p =>
    match p.override command with
    | .error cause => invalid cause
    | .ok p =>
      (s.perform p project command).map fun o => { o with notices := loading.notices ++ o.notices }

/-- End early. -/
def stop (s : Surroundings) : Stop → Except Crash Outcome
  | .help => .ok { exit := 0, out := helpText, workspace := s.workspace }
  | .version => .ok { exit := 0, out := versionText, workspace := s.workspace }
  | .error cause =>
    let text := s!"error: {cause.message}\n"
    if s.encoding.takesAll text.toList then
      .ok { exit := 2, err := text, workspace := s.workspace }
    else .error .unprintable

/-- Run the program. -/
def run (s : Surroundings) (args : List String) : Except Crash Outcome :=
  match Invocation.ofArguments args with
  | .error early => s.stop early
  | .ok i =>
    match i.command with
    | none => s.stop .help
    | some command =>
      match s.projectPath? i.project with
      | none => .error .noProject
      | some project =>
        (s.runCommand project command).map fun o => { o with verbose := i.verbose }

end Surroundings

end ScriptIndent
