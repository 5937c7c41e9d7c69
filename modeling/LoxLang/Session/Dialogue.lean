import LoxLang.Session.Basic

/-!
# Dialogues

A dialogue runs the lines of an input one by one in a session. Before each line it prompts;
the value of a line that is an expression is printed. Problems with a line are reported and
the dialogue goes on; it ends with the input, at a line that is no text, or when a value
cannot be printed. It does not get beyond a line whose run or whose value comes to no end.
-/

namespace LoxLang

/-- Why a dialogue ended, or that it has not come to its end. -/
inductive Ending
  | endOfInput
  | notText
  | closed (message : String)
  | unfinished
deriving Repr, DecidableEq

/-- What came of one line: what was printed, and what was reported. -/
structure Exchange where
  printed : String
  reports : List Report
deriving Repr

/-- A whole dialogue and the session behind it. -/
structure Dialogue where
  exchanges : List Exchange
  ending : Ending
  session : Session

namespace Dialogue

/-- The lines of an input: they end with a newline, before which a carriage return does not
count, and the last one need not end. -/
def splitLines (current : List UInt8) : List UInt8 → List (List UInt8)
  | [] => if current.isEmpty then [] else [current.reverse]
  | b :: rest =>
    if b = byte '\n' then
      let line := match current with
        | last :: before => if last = byte '\r' then before else current
        | [] => []
      line.reverse :: splitLines [] rest
    else splitLines (b :: current) rest

/-- Print the value of a line that has one. -/
def printResult (s : Session) (value : Option Value) : Outcome Unit :=
  match value with
  | none => ⟨.ok (), s⟩
  | some value => s.perform Bindings.none (Run.print value)

/-- What a problem with a line means for the dialogue: only a run that has not come to its end
keeps it from going on. -/
def endingOfRun : Diagnostic → Option Ending
  | .stopped .exhausted => some .unfinished
  | _ => none

/-- What a problem with the value of a line means for the dialogue: it ends with the message of the
output, unless the value has not been printed to its end. -/
def endingOfPrint : Diagnostic → Ending
  | .stopped .exhausted => .unfinished
  | other => .closed other.report.text

/-- One line: run it and print its value. If the dialogue does not go on behind the line, the
ending says why. -/
def exchange (budget : Nat) (s : Session) (line : String) :
    Exchange × Option Ending × Session :=
  let outcome := s.runLine budget line
  match outcome.result with
  | .error diagnostics =>
    let (printed, s) := outcome.session.takeOutput
    (⟨printed, diagnostics.map Diagnostic.report⟩, diagnostics.findSome? endingOfRun, s)
  | .ok value =>
    let shown := printResult outcome.session value
    let (printed, s) := shown.session.takeOutput
    match shown.result with
    | .ok () => (⟨printed, []⟩, none, s)
    | .error diagnostics => (⟨printed, []⟩, diagnostics.head?.map endingOfPrint, s)

/-- Run lines in order. -/
def ofLines (budget : Nat) : List (List UInt8) → Session → Dialogue
  | [], s => ⟨[], .endOfInput, s⟩
  | line :: rest, s =>
    match Utf8.decode? line with
    | none => ⟨[], .notText, s⟩
    | some text =>
      match exchange budget s text with
      | (first, some ending, s) => ⟨[first], ending, s⟩
      | (first, none, s) =>
        let later := ofLines budget rest s
        ⟨first :: later.exchanges, later.ending, later.session⟩

/-- Run the lines of an input. -/
def run (budget : Nat) (s : Session) (input : List UInt8) : Dialogue :=
  ofLines budget (splitLines [] input) s

/-- What stands before each line of input. -/
def prompt : String := "> "

/-- What is written where a dialogue ends: the prompt for a line that was not taken and, at the
end of the input, a newline. -/
def farewell : Ending → String
  | .endOfInput => prompt ++ "\n"
  | .notText => prompt
  | .closed _ => ""
  | .unfinished => ""

/-- All prompts, one after the other. -/
def prompts (d : Dialogue) : String :=
  String.join (d.exchanges.map fun _ => prompt) ++ farewell d.ending

/-- All that was printed. -/
def printed (d : Dialogue) : String :=
  String.join (d.exchanges.map Exchange.printed)

/-- Prompts and what was printed, as they follow each other. -/
def screen (d : Dialogue) : String :=
  String.join (d.exchanges.map fun e => prompt ++ e.printed) ++ farewell d.ending

/-- All reports. -/
def reports (d : Dialogue) : List Report :=
  d.exchanges.flatMap Exchange.reports

end Dialogue

end LoxLang
