import LoxLang.Session.Basic

/-!
# Histories of sessions

A session takes inputs one after the other, sources and lines, and between them its output may
be changed from outside, as when a dialogue prints the value of a line. An input is a job for
the session (`Input.job`): to run a program, to evaluate an expression, or nothing to do.
-/

namespace LoxLang

/-! ## Inputs -/

/-- What a session is given to run. -/
inductive Input
  | source (bytes : List UInt8)
  | line (text : String)

/-- What a session has to do. -/
inductive Job
  | nothing
  | program (source : List UInt8)
  | expression (source : List UInt8)

/-- A source is a program. A line is one if it ends with a semicolon. -/
def Input.job : Input → Job
  | source bytes => .program bytes
  | line text =>
    if (Blank.trimEnd text).isEmpty then .nothing
    else if (Blank.trimEnd text).endsWith ";" then .program (Utf8.encode (Blank.trimEnd text))
    else .expression (Utf8.encode (Blank.trimEnd text))

/-- Another form of the result. -/
def Outcome.map {α β : Type} (f : α → β) (o : Outcome α) : Outcome β :=
  ⟨o.result.map f, o.session⟩

/-- What happens to a session: an input that is run with a budget, or a change of its output. -/
inductive Event
  | input (budget : Nat) (input : Input)
  | output (sink : Sink)

namespace Session

/-- What becomes of an input. -/
def take (budget : Nat) (s : Session) : Input → Outcome (Option Value)
  | .source bytes => (s.run budget bytes).map fun _ => none
  | .line text => s.runLine budget text

/-- What becomes of an input is what becomes of its job. -/
theorem take_eq (budget : Nat) (s : Session) (input : Input) :
    s.take budget input =
      match input.job with
      | .nothing => ⟨.ok none, s⟩
      | .program source => (s.run budget source).map fun _ => none
      | .expression source => (s.evaluate budget source).map some := by
  cases input with
  | source bytes => rfl
  | line text =>
    unfold take runLine Input.job
    simp only
    split
    · rfl
    · split <;> rfl

/-! ## Events -/

/-- The session behind an event. -/
def after (s : Session) : Event → Session
  | .input budget input => (s.take budget input).session
  | .output sink => { s with machine.sink := sink }

/-- The session behind events, one after the other. -/
def through (s : Session) : List Event → Session
  | [] => s
  | event :: rest => (s.after event).through rest

end Session

end LoxLang
