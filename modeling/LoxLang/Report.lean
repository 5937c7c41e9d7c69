/-!
# Reports

A report is what a user is told about one problem. Problems found before a program runs
(`Phase`) name a line and a place on it; a failure of a running program names the line after
its message; trouble with a file or a stream is just its message. The exit code of a list of
reports is decided by `ExitCode.ofReports`.
-/

namespace LoxLang

/-- The phases that look at a program before it runs. -/
inductive Phase
  | lexical
  | grammar
  | scoping
deriving Repr, DecidableEq

/-- Where on a line a problem lies. -/
inductive Place
  | unnamed
  | atEnd
  | atLexeme (lexeme : String)
deriving Repr, DecidableEq

namespace Place

def text : Place → String
  | unnamed => ""
  | atEnd => " at end"
  | atLexeme lexeme => " at '" ++ lexeme ++ "'"

end Place

/-- What a user is told about one problem. -/
inductive Report
  | static (phase : Phase) (line : Nat) (place : Place) (message : String)
  | failure (line : Nat) (message : String)
  | io (message : String)
deriving Repr, DecidableEq

/-- The exit codes of the program. -/
inductive ExitCode
  | success
  | usage
  | badSource
  | noInput
  | failed
deriving Repr, DecidableEq

namespace ExitCode

/-- The number that the operating system sees. -/
def code : ExitCode → Nat
  | success => 0
  | usage => 64
  | badSource => 65
  | noInput => 66
  | failed => 70

end ExitCode

namespace Report

/-- The wording of a report. -/
def text : Report → String
  | static _ line place message =>
    "[line " ++ Nat.repr line ++ "] Error" ++ place.text ++ ": " ++ message
  | failure line message => message ++ "\n[line " ++ Nat.repr line ++ "]"
  | io message => message

/-- Whether the problem was found before the program ran. -/
def isStatic : Report → Bool
  | static .. => true
  | failure .. => false
  | io _ => false

/-- The exit code of a single problem. -/
def exitCode : Report → ExitCode
  | static .. => .badSource
  | failure .. => .failed
  | io _ => .noInput

end Report

/-- The exit code of all problems of a run: a static one outranks the others, and otherwise
the first one counts. -/
def ExitCode.ofReports (reports : List Report) : ExitCode :=
  if reports.any Report.isStatic then .badSource
  else
    match reports with
    | [] => .success
    | first :: _ => first.exitCode

end LoxLang
