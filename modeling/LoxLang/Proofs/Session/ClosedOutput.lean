import LoxLang.Proofs.Evaluation.Output
import LoxLang.Proofs.Session.Ledger

/-!
# Inputs with a closed output

An input is taken twice, by sessions that differ in their outputs only: one that works and one that
takes nothing more. Without any print both come to the same. Otherwise the second one ends with the
error of its output alone, and with the machine that the first one has just before it prints
(`closed_output_stops_at_first_print`).
-/

namespace LoxLang

variable {α β : Type}

/-- Nothing is printed, and both sessions come to the same. -/
structure Outcome.Unprinted (before : String) (closed : Sink) (entries : List Entry)
    (o o' : Outcome α) : Prop where
  acts : firstPrint? entries = none
  written : o.session.machine.sink.written = before
  result : o'.result = o.result
  session : o'.session = { o.session with machine.sink := closed }

/-- Something is printed, and the other session has the machine that there is before the first
print, in the frame in which it started. -/
structure Outcome.Stopped (before : String) (closed : Sink) (message : String)
    (frame : Option FrameId) (entries : List Entry) (o o' : Outcome α) : Prop where
  written : o.session.machine.sink.written ≠ before
  result : o'.result = .error [.stopped (.closed message)]
  session : ∃ value m, firstPrint? entries = some ⟨.print value, m⟩ ∧
    o'.session = { o.session with machine := { m with sink := closed, current := frame } }

/-- What becomes of an input with an output that works, and of the same with a closed one. -/
def Outcome.Parts (before : String) (closed : Sink) (message : String) (frame : Option FrameId)
    (entries : List Entry) (o o' : Outcome α) : Prop :=
  o.session.machine.sink = .working (before ++ transcript entries) ∧
    (o.Unprinted before closed entries o' ∨ o.Stopped before closed message frame entries o')

theorem isPrint_of_firstPrint? {entries : List Entry} {e : Entry}
    (h : firstPrint? entries = some e) : ∃ value m, e = ⟨.print value, m⟩ := by
  have hprint : e.isPrint = true := List.find?_some h
  obtain ⟨act, m⟩ := e
  cases act with
  | print value => exact ⟨value, m, rfl⟩
  | _ => cases hprint

namespace Session

section

variable {s : Session} {before written message : String}

/-- An input that is not run prints nothing. -/
theorem parts_of_idle {result : Except (List Diagnostic) α} (s : Session)
    (frame : Option FrameId) :
    Outcome.Parts before (.closed written message) message frame []
      ⟨result, { s with machine.sink := .working before }⟩
      ⟨result, { s with machine.sink := .closed written message }⟩ :=
  ⟨by simp [transcript], .inl ⟨rfl, rfl, rfl, rfl⟩⟩

theorem parts_perform {audit : Audit α} {run : Run α} (h : Audits audit run) (s : Session)
    (added : Bindings) :
    let working : Session := { s with machine.sink := .working before }
    let closed : Session := { s with machine.sink := .closed written message }
    Outcome.Parts before (.closed written message) message s.machine.current
      (Audit.closing (audit ⟨working.machine.binding added, []⟩)).entries
      (working.perform added run) (closed.perform added run) := by
  intro working closed
  obtain ⟨entries, hentries, hsink, -, hunheard⟩ :=
    h.heard (l := ⟨working.machine.binding added, []⟩) rfl
  have houtcome : _ = run (working.machine.binding added) :=
    h.outcome ⟨working.machine.binding added, []⟩
  rw [List.append_nil] at hentries
  have hclosed : run (closed.machine.binding added) = unheard (.closed written message) message
      s.machine.current entries (run (working.machine.binding added)) :=
    hunheard written message
  have hsession : (working.perform added run).session.machine.sink =
      .working (before ++ transcript entries) := by
    refine Eq.trans ?_ hsink
    rw [perform_eq, ← houtcome]
    cases audit ⟨working.machine.binding added, []⟩ <;> rfl
  rw [hentries]
  refine ⟨hsession, ?_⟩
  rw [perform_eq closed, hclosed]
  unfold unheard
  -- The output that is closed makes a difference from the first entry on that prints something.
  cases hfirst : firstPrint? entries with
  | none =>
    have hsilent : transcript entries = "" := (transcript_eq_empty_iff entries).mpr hfirst
    rw [hsilent, String.append_empty] at hsession
    refine .inl ⟨hfirst, congrArg Sink.written hsession, ?_, ?_⟩
    · rw [perform_eq working]
      cases run (working.machine.binding added) <;> rfl
    · rw [perform_eq working]
      cases run (working.machine.binding added) <;> rfl
  | some e =>
    obtain ⟨value, m, rfl⟩ := isPrint_of_firstPrint? hfirst
    have hprinted : transcript entries ≠ "" := by
      rw [ne_eq, transcript_eq_empty_iff, hfirst]
      exact nofun
    refine .inr ⟨?_, rfl, value, m, hfirst, ?_⟩
    · rw [hsession]
      simpa [Sink.working] using hprinted
    · rw [perform_eq working]
      cases run (working.machine.binding added) <;> rfl

theorem parts_proceed (s : Session) (tree : Except (List Diagnostic) α)
    (program : α → List Stmt) {audit : α → Audit β} {run : α → Run β}
    (h : ∀ tree, Audits (audit tree) (run tree)) :
    let working : Session := { s with machine.sink := .working before }
    let closed : Session := { s with machine.sink := .closed written message }
    Outcome.Parts before (.closed written message) message s.machine.current
      (working.actsOf [] tree program audit)
      (working.proceed tree program run) (closed.proceed tree program run) := by
  intro working closed
  unfold proceed actsOf
  cases tree with
  | error diagnostics => exact parts_of_idle s _
  | ok tree =>
    obtain ⟨resolver, hresolver⟩ := exists_resolveWith s.resolver (program tree)
    simp only [working, closed, hresolver]
    cases Scoping.resolve (program tree) with
    | error problems => exact parts_of_idle { s with resolver := resolver } _
    | ok added => exact parts_perform (h tree) { s with resolver := resolver } added

end

end Session

theorem Outcome.Parts.map {f : α → β} {before message : String} {closed : Sink}
    {frame : Option FrameId} {entries : List Entry} {o o' : Outcome α}
    (h : o.Parts before closed message frame entries o') :
    (o.map f).Parts before closed message frame entries (o'.map f) := by
  obtain ⟨hsink, hunprinted | hstopped⟩ := h
  · refine ⟨hsink, .inl ⟨hunprinted.acts, hunprinted.written, ?_, hunprinted.session⟩⟩
    exact congrArg (Except.map f) hunprinted.result
  · refine ⟨hsink, .inr ⟨hstopped.written, ?_, hstopped.session⟩⟩
    exact congrArg (Except.map f) hstopped.result

/-- A session takes an input with an output that works, and the same session takes it with a
closed one. The first leaves its output with what its acts print; they are entered in a ledger that
does not change what is run. If that is nothing, the second ends with the same result and the same
session. Otherwise the second ends with the error of its output and no other, for which there is an
exit code of its own: it has printed nothing, and its machine is the one just before the first
value is printed. -/
theorem closed_output_stops_at_first_print :
    (∀ budget program l, Audit.outcome (Audit.interpret budget program l) =
      interpret budget program l.machine) ∧
    (∀ budget e l, Audit.outcome (Audit.evaluate budget e l) = evaluate budget e l.machine) ∧
    ∀ (s : Session) (before written message : String) (budget : Nat) (input : Input),
      let working : Session := { s with machine.sink := .working before }
      let closed : Session := { s with machine.sink := .closed written message }
      Outcome.Parts before (.closed written message) message s.machine.current
          (working.acts budget [] input) (working.take budget input) (closed.take budget input) ∧
        (Diagnostic.stopped (.closed message)).report = .io message ∧
        (ExitCode.ofReports [.io message]).code = 66 := by
  refine ⟨fun budget program => (audits_interpret budget program).outcome,
    fun budget e => ((auditsAt budget).evaluate e).outcome, ?_⟩
  intro s before written message budget input working closed
  refine ⟨?_, rfl, rfl⟩
  rw [Session.take_eq, Session.take_eq]
  unfold Session.acts
  cases input.job with
  | nothing => exact Session.parts_of_idle s _
  | program source =>
    let nextId := (readProgram (tokensOf source) s.nextId).nextId
    exact (Session.parts_proceed { s with nextId := nextId } _ id (audits_interpret budget)).map
  | expression source =>
    let nextId := (readExpression (tokensOf source) s.nextId).nextId
    exact (Session.parts_proceed { s with nextId := nextId } _ _ (auditsAt budget).evaluate).map

end LoxLang
