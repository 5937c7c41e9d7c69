import LoxLang.Evaluation.Step
import LoxLang.Grammar.Program
import LoxLang.Lexical.Item
import LoxLang.Scoping.Resolution
import LoxLang.Text.Blank

/-!
# Sessions

A session runs one source after the other on the same machine. A source is scanned, read as a
program or an expression, and resolved; only one without any problem is run. Problems of
scanning and reading are reported together.

The references of all trees of a session are counted through, so that the bindings of an
earlier tree keep their meaning for the functions it left behind. The resolver is used again
for each source.
-/

namespace LoxLang

/-- One problem with a source or with its run. -/
inductive Diagnostic
  | lexical (line : Nat) (fault : LexicalFault)
  | grammar (problem : Grammar.Problem)
  | scoping (problem : Scoping.Problem)
  | stopped (stop : Stop)
deriving Repr

/-- What a user is told about a problem. -/
def Diagnostic.report : Diagnostic → Report
  | lexical line fault => .static .lexical line .unnamed fault.message
  | grammar problem => problem.report
  | scoping problem => problem.report
  | stopped stop => stop.report

/-- A machine, the next free reference, and the resolver as it was left. -/
structure Session where
  machine : Machine
  nextId : RefId
  resolver : Scoping.Analysis

/-- What became of a source, and the session behind it. -/
structure Outcome (α : Type) where
  result : Except (List Diagnostic) α
  session : Session

namespace Session

/-- The session before any source. -/
def start (host : Host) (sink : Sink) : Session :=
  ⟨Machine.start host sink, 0, Scoping.Analysis.start⟩

/-- The problems of scanning. -/
def lexicalDiagnostics (source : List UInt8) : List Diagnostic :=
  (faultsOf source).map fun fault => .lexical fault.1 fault.2

/-- The tree of a source that scans and reads without a problem. -/
def gate {α : Type} (source : List UInt8) (reading : Reading α) : Except (List Diagnostic) α :=
  match reading.result, lexicalDiagnostics source with
  | .ok tree, [] => .ok tree
  | .ok _, faults => .error faults
  | .error problems, faults => .error (faults ++ problems.map .grammar)

/-- Run a resolved tree on the machine of a session. -/
def perform {α : Type} (s : Session) (bindings : Bindings) (run : Run α) : Outcome α :=
  let ⟨machine, nextId, resolver⟩ := s
  match run { machine with bindings := machine.bindings.merge bindings } with
  | .ok a machine => ⟨.ok a, ⟨machine, nextId, resolver⟩⟩
  | .error stop machine => ⟨.error [.stopped stop], ⟨machine, nextId, resolver⟩⟩

/-- Resolve a tree that has passed the gate, and run it. `program` is the tree as a list of
statements. -/
def proceed {α β : Type} (s : Session) (tree : Except (List Diagnostic) α)
    (program : α → List Stmt) (run : α → Run β) : Outcome β :=
  match tree with
  | .error diagnostics => ⟨.error diagnostics, s⟩
  | .ok tree =>
    match Scoping.resolveWith s.resolver (program tree) with
    | (.error problems, resolver) =>
      ⟨.error (problems.map .scoping), { s with resolver := resolver }⟩
    | (.ok bindings, resolver) => perform { s with resolver := resolver } bindings (run tree)

/-- Run a source as a program. -/
def run (budget : Nat) (s : Session) (source : List UInt8) : Outcome Unit :=
  let reading := readProgram (tokensOf source) s.nextId
  proceed { s with nextId := reading.nextId } (gate source reading) id (interpret budget)

/-- Evaluate a source as an expression. -/
def evaluate (budget : Nat) (s : Session) (source : List UInt8) : Outcome Value :=
  let reading := readExpression (tokensOf source) s.nextId
  proceed { s with nextId := reading.nextId } (gate source reading) (fun e => [.expression e])
    (LoxLang.evaluate budget)

/-- Run a line of input: as a program if it ends with a semicolon, and otherwise as an
expression, whose value is the result. Blanks at the end of the line do not count, and there
is nothing to run on an empty line. -/
def runLine (budget : Nat) (s : Session) (line : String) : Outcome (Option Value) :=
  let line := Blank.trimEnd line
  if line.isEmpty then ⟨.ok none, s⟩
  else if line.endsWith ";" then
    let outcome := s.run budget (Utf8.encode line)
    ⟨outcome.result.map fun _ => none, outcome.session⟩
  else
    let outcome := s.evaluate budget (Utf8.encode line)
    ⟨outcome.result.map some, outcome.session⟩

/-- What has been printed, and the session with an output that is empty again. -/
def takeOutput (s : Session) : String × Session :=
  let sink := s.machine.sink
  (sink.written, { s with machine := { s.machine with sink := { sink with written := "" } } })

end Session

end LoxLang
