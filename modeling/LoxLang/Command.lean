import LoxLang.Lexical.Listing
import LoxLang.Session.Dialogue
import LoxLang.Text.Escaped

/-!
# Commands

The command line names a file to run or to list the tokens of, or starts a dialogue. What a
command does is computed from the contents of files and of the standard input: it is the exit
code and what is written to the two outputs.
-/

namespace LoxLang

/-- What the command line asks for. -/
inductive Command
  | dialogue
  | run (file : String)
  | listTokens (file : String) (json : Bool)
deriving Repr, DecidableEq

namespace Command

/-- The options and other arguments of a command. -/
structure Arguments where
  files : List String
  log : Bool
  json : Bool
deriving Repr, DecidableEq

/-- Sort arguments into options and files. An option is given once at most; `--json` counts
only where `json` allows it; all that follows `--` are files. A file has a name. -/
def sortArguments (json : Bool) : List String → Arguments → Option Arguments
  | [], found => some found
  | argument :: rest, found =>
    if argument = "--" then
      if rest.all fun file => !file.isEmpty then
        some { found with files := found.files ++ rest }
      else none
    else if argument = "--log" then
      if found.log then none else sortArguments json rest { found with log := true }
    else if argument = "--json" ∧ json then
      if found.json then none else sortArguments json rest { found with json := true }
    else if argument.isEmpty then none
    else if argument.startsWith "-" ∧ argument ≠ "-" then none
    else sortArguments json rest { found with files := found.files ++ [argument] }

/-- Sort arguments none of which has been looked at. -/
def arguments? (json : Bool) (arguments : List String) : Option Arguments :=
  sortArguments json arguments ⟨[], false, false⟩

/-- The command that a command line gives, if it is well formed. The words `run`, `tokenize`
and `repl` name commands only in the first place. -/
def parse? : List String → Option Command
  | "run" :: rest =>
    match arguments? false rest with
    | some ⟨[file], _, _⟩ => some (.run file)
    | _ => none
  | "tokenize" :: rest =>
    match arguments? true rest with
    | some ⟨[file], _, json⟩ => some (.listTokens file json)
    | _ => none
  | "repl" :: rest =>
    match arguments? false rest with
    | some ⟨[], _, _⟩ => some .dialogue
    | _ => none
  | rest =>
    match arguments? false rest with
    | some ⟨[], _, _⟩ => some .dialogue
    | some ⟨[file], _, _⟩ => some (.run file)
    | _ => none

/-- The exit code of a command, and what it writes to the standard output and the standard
error. -/
structure Effect where
  code : Nat
  out : String
  err : String
deriving Repr, DecidableEq

/-- What is written about reports, each with a newline. -/
def reportLines (reports : List Report) : String :=
  String.join (reports.map fun r => r.text ++ "\n")

/-- A file that cannot be used. -/
def noInput (message : String) : Effect :=
  ⟨ExitCode.noInput.code, "", message ++ "\n"⟩

/-- Why the contents of a file cannot be used: it cannot be opened, or it cannot be read once
it is open. The system gives the reason in words and as a number. -/
inductive FileFault
  | cannotOpen (reason : String) (number : Nat)
  | cannotRead (reason : String) (number : Nat)
deriving Repr, DecidableEq

/-- There is no file of that name. -/
def FileFault.missing : FileFault :=
  .cannotOpen "No such file or directory" 2

/-- A part of the name that would have to be a directory is not one. -/
def FileFault.notADirectory : FileFault :=
  .cannotOpen "Not a directory" 20

/-- The name, or a part of it, is longer than names can be. -/
def FileFault.nameTooLong : FileFault :=
  .cannotOpen "File name too long" 36

/-- The name is that of a directory. -/
def FileFault.directory : FileFault :=
  .cannotRead "No such device" 19

/-- What is said of a file that cannot be used. -/
def FileFault.message (file : String) : FileFault → String
  | cannotOpen reason number =>
    "Failed to open file " ++ Escaped.encode file ++ systemReason reason number
  | cannotRead reason number =>
    "Failed to map file " ++ Escaped.encode file ++ systemReason reason number
where
  systemReason (reason : String) (number : Nat) : String :=
    ": " ++ reason ++ " (os error " ++ Nat.repr number ++ ")"

/-- Use the contents of a file, which must not be empty. -/
def withFile (file : String) (contents : Except FileFault (List UInt8))
    (use : List UInt8 → Effect) : Effect :=
  match contents with
  | .error fault => noInput (fault.message file)
  | .ok [] => noInput ("File " ++ Escaped.encode file ++ " is empty")
  | .ok source => use source

/-- Run a source. -/
def runSource (host : Host) (budget : Nat) (source : List UInt8) : Effect :=
  let outcome := (Session.start host (.working "")).run budget source
  let reports := match outcome.result with
    | .ok () => []
    | .error diagnostics => diagnostics.map Diagnostic.report
  ⟨(ExitCode.ofReports reports).code, outcome.session.machine.sink.written, reportLines reports⟩

/-- List the tokens of a source. -/
def listSource (json : Bool) (source : List UInt8) : Effect :=
  let tokens := tokensOf source
  let reports := (Session.lexicalDiagnostics source).map Diagnostic.report
  let listing :=
    if json then Token.jsonArray tokens ++ "\n"
    else String.join (tokens.map fun t => t.listing ++ "\n")
  ⟨(ExitCode.ofReports reports).code, listing, reportLines reports⟩

/-- The exit code of a dialogue that could not go on. -/
def dialogueFailed : Nat := 1

/-- What is written about a dialogue that could not go on. -/
def failureText (cause : String) : String :=
  "Error: REPL input failed\n\nCaused by:\n    " ++ cause ++ "\n"

/-- The exit code and the last words of a dialogue. One that has not come to its end has neither;
it is taken for one that could not go on. -/
def endingEffect : Ending → Nat × String
  | .endOfInput => (ExitCode.success.code, "")
  | .notText => (dialogueFailed, failureText "stream did not contain valid UTF-8")
  | .closed message => (dialogueFailed, failureText message)
  | .unfinished => (dialogueFailed, failureText Stop.exhausted.report.text)

/-- Hold a dialogue over the standard input. -/
def runDialogue (host : Host) (budget : Nat) (input : List UInt8) : Effect :=
  let dialogue := Dialogue.run budget (Session.start host (.working "")) input
  let (code, lastWords) := endingEffect dialogue.ending
  ⟨code, dialogue.screen, reportLines dialogue.reports ++ lastWords⟩

/-- The file that a command reads. -/
def file? : Command → Option String
  | dialogue => none
  | run file => some file
  | listTokens file _ => some file

/-- Carry out a command, given the contents of its file and of the standard input. -/
def perform (host : Host) (budget : Nat) (contents : Except FileFault (List UInt8))
    (input : List UInt8) : Command → Effect
  | dialogue => runDialogue host budget input
  | run file => withFile file contents (runSource host budget)
  | listTokens file json => withFile file contents (listSource json)

/-- What is said of a command line that gives no command. -/
def usage : String :=
  "Usage: [--log] [FILE] | run FILE | tokenize [--json] FILE | repl\n"

/-- The effect of a command line that gives no command. -/
def usageEffect : Effect :=
  ⟨ExitCode.usage.code, "", usage⟩

end Command

end LoxLang
