import LoxLang.Proofs.Evaluation.Ledger
import LoxLang.Proofs.Evaluation.Tidy
import LoxLang.Proofs.Value.Nesting

/-!
# Runs and their output

What has been written before a run makes no difference to it (`Audits.behind`). An output that
takes nothing more stops a run at the first value that it prints, and makes no difference before
(`Audits.heard`). So what a run comes to with a closed output can be told from the ledger of the
same run with an output that works: it is the same without any print (`unheard`), and otherwise
the machine before the first one.
-/

namespace LoxLang

variable {α β : Type}

/-! ## What was written before -/

/-- An output to which a text was written before all else. -/
def Sink.behind (s : Sink) (text : String) : Sink :=
  { s with written := text ++ s.written }

/-- An output makes the same of a line, whatever was written to it before. -/
theorem Sink.receive_behind (s : Sink) (text : String) (line : Nat → Rendering) :
    (s.behind text).receive line = ((s.receive line).1.behind text, (s.receive line).2) := by
  unfold receive fault? take behind
  cases s.coming.headD s.later with
  | some fault => simp [String.append_assoc]
  | none => simp [String.append_assoc]

/-- A machine that has written a text before what it has written. -/
def Machine.behind (m : Machine) (text : String) : Machine :=
  { m with sink := m.sink.behind text }

/-- The end of a run that has begun behind a text. -/
def Run.behind (text : String) : EStateM.Result Stop Machine α → EStateM.Result Stop Machine α
  | .ok a m => .ok a (m.behind text)
  | .error stop m => .error stop (m.behind text)

theorem Blind.behind {run : Run α} (h : Blind run) (m : Machine) (text : String) :
    run (m.behind text) = Run.behind text (run m) := by
  have hsink := h.sink m
  have hrun : run (m.behind text) = Run.withSink (m.behind text).sink (run m) := h m _
  rw [hrun]
  cases hresult : run m with
  | ok a m' =>
    rw [hresult] at hsink
    show EStateM.Result.ok a { m' with sink := m.sink.behind text } =
      .ok a { m' with sink := m'.sink.behind text }
    rw [show m'.sink = m.sink from hsink]
  | error stop m' =>
    rw [hresult] at hsink
    show EStateM.Result.error stop { m' with sink := m.sink.behind text } =
      .error stop { m' with sink := m'.sink.behind text }
    rw [show m'.sink = m.sink from hsink]

theorem blind_make (arguments : List Value) (line : Nat) : Blind (Act.make arguments line).run :=
  (apart_checkArity _ _ _).blind.bind fun _ => blind_callArray arguments line

theorem blind_use (array : ArrayId) (method : ArrayMethod) (arguments : List Value) (line : Nat) :
    Blind (Act.use array method arguments line).run :=
  (apart_checkArity _ _ _).blind.bind fun _ => blind_callArrayMethod array method arguments line

theorem behind_print (value : Value) (m : Machine) (text : String) :
    (Act.print value).run (m.behind text) = Run.behind text ((Act.print value).run m) := by
  rw [run_print, run_print]
  have hreceive := m.sink.receive_behind text (value.line m.arrays)
  unfold Machine.behind
  rw [hreceive]
  obtain ⟨sink, _ | stop⟩ := m.sink.receive (value.line m.arrays) <;> rfl

/-- What has been written before a run stays in front of what it writes. -/
theorem Audits.behind {audit : Audit α} {run : Run α} (h : Audits audit run) (m : Machine)
    (text : String) : run (m.behind text) = Run.behind text (run m) := by
  induction h generalizing m with
  | quiet apart => exact apart.blind.behind m text
  | act act =>
    cases act with
    | make arguments line => exact (blind_make arguments line).behind m text
    | use array method arguments line => exact (blind_use array method arguments line).behind m text
    | print value => exact behind_print value m text
  | @bind α β audit run next next' _ _ ih ih' =>
    show EStateM.bind run next' _ = Run.behind text (EStateM.bind run next' m)
    unfold EStateM.bind
    rw [ih]
    cases run m with
    | ok a m' => exact ih' a m'
    | error stop m' => rfl
  | @within α audit run frame _ ih =>
    show Run.putBack m.current (run (({ m with current := some frame } : Machine).behind text)) = _
    rw [ih]
    unfold Run.within
    cases run { m with current := some frame } <;> rfl

/-! ## An output that works -/

/-- A machine whose output has taken one text more. -/
def Machine.writing (m : Machine) (text : String) : Machine :=
  { m with sink := m.sink.take text }

section

variable {m : Machine} {v : Value}

/-- An output that works takes a text and a newline. -/
theorem print_of_text {text : String} (works : m.sink.Works)
    (h : v.text? m.arrays = some text) : Run.print v m = .ok () (m.writing (text ++ "\n")) := by
  have hline : v.line m.arrays 0 = .all (text ++ "\n") := by
    rw [Value.line, Value.text?_eq_some.mp h]
    rfl
  show Run.write (v.line m.arrays) m = _
  unfold Run.write
  rw [works.receive_eq, hline]
  rfl

/-- Nothing comes behind a text without an end. -/
theorem print_of_no_text (works : m.sink.Works) (h : v.text? m.arrays = none) :
    Run.print v m = .error .exhausted (m.writing (v.line m.arrays 0).text) := by
  have hwhole : (v.line m.arrays 0).whole = false := by
    rw [Value.line, Rendering.whole_append, Value.text?_eq_none.mp h]
    rfl
  show Run.write (v.line m.arrays) m = _
  unfold Run.write
  rw [works.receive_eq, hwhole]
  rfl

end

/-! ## What is printed -/

/-- Whether an act prints. -/
def Entry.isPrint (e : Entry) : Bool :=
  match e.act with
  | .print _ => true
  | _ => false

/-- What an act prints: a line, or as much of one without an end as an output that works takes. -/
def Entry.text (e : Entry) : String :=
  match e.act with
  | .print value => (value.line e.before.arrays 0).text
  | _ => ""

/-- The first of the acts that prints. -/
def firstPrint? (entries : List Entry) : Option Entry :=
  entries.reverse.find? Entry.isPrint

/-- All that acts print, one after the other. -/
def transcript (entries : List Entry) : String :=
  String.join (entries.reverse.map Entry.text)

theorem firstPrint?_append (later earlier : List Entry) :
    firstPrint? (later ++ earlier) = (firstPrint? earlier).or (firstPrint? later) := by
  unfold firstPrint?
  rw [List.reverse_append, List.find?_append]

theorem transcript_append (later earlier : List Entry) :
    transcript (later ++ earlier) = transcript earlier ++ transcript later := by
  unfold transcript
  rw [List.reverse_append, List.map_append, String.join_append]

/-- What is printed is a line at least. -/
theorem Entry.text_eq_empty_iff (e : Entry) : e.text = "" ↔ e.isPrint = false := by
  unfold text isPrint
  cases e.act with
  | print value => simp [Value.line_ne_empty]
  | _ => simp

/-- Nothing is printed when no act prints, and only then. -/
theorem transcript_eq_empty_iff (entries : List Entry) :
    transcript entries = "" ↔ firstPrint? entries = none := by
  induction entries with
  | nil => exact iff_of_true rfl rfl
  | cons e earlier ih =>
    have hone : transcript [e] = e.text := by simp [transcript]
    rw [← List.singleton_append, transcript_append, firstPrint?_append, String.append_eq_empty_iff,
      Option.or_eq_none_iff, ih, hone, e.text_eq_empty_iff]
    simp [firstPrint?]

/-! ## The end of a run -/

/-- An output that works takes all that is shown of a line, and does not come behind one without an
end. -/
theorem Sink.receive_working (written : String) (line : Nat → Rendering) :
    (working written).receive line =
      (working (written ++ (line 0).text), if (line 0).whole then none else some .exhausted) :=
  rfl

/-- A closed output takes nothing. -/
theorem Sink.receive_closed (written message : String) (line : Nat → Rendering) :
    (closed written message).receive line =
      (closed written message, some (.closed message)) := by
  simp [receive, fault?, closed, take]

/-- What a run with these acts comes to with a closed output, if it comes to this with an output
that works. -/
def unheard (closed : Sink) (message : String) (frame : Option FrameId) (entries : List Entry)
    (result : EStateM.Result Stop Machine α) : EStateM.Result Stop Machine α :=
  match firstPrint? entries with
  | none => Run.withSink closed result
  | some e => .error (.closed message) { e.before with sink := closed, current := frame }

/-- An audited run with an output that works: which acts it adds, that the output is left with
what they print, and what becomes of the run with a closed output. -/
structure Heard (audit : Audit α) (run : Run α) (l : Ledger) (added : List Entry) : Prop where
  entries : (Audit.closing (audit l)).entries = added ++ l.entries
  sink : (Audit.closing (audit l)).machine.sink =
    .working (l.machine.sink.written ++ transcript added)
  current : (Audit.closing (audit l)).machine.current = l.machine.current
  unheard : ∀ written message, run { l.machine with sink := .closed written message } =
    unheard (.closed written message) message l.machine.current added (run l.machine)

section

variable {run : Run α} {l : Ledger}

/-- What does the same with any output. -/
theorem heard_of_blind {audit : Audit α} {added : List Entry} (blind : Blind run)
    (current : (Run.left (run l.machine)).current = l.machine.current)
    (works : l.machine.sink = .working l.machine.sink.written)
    (haudit : audit l = Audit.settle (added ++ l.entries) (run l.machine))
    (silent : firstPrint? added = none) : Heard audit run l added := by
  have hclosing : Audit.closing (audit l) = ⟨Run.left (run l.machine), added ++ l.entries⟩ := by
    rw [haudit, Audit.closing_settle]
  have hprinted : transcript added = "" := (transcript_eq_empty_iff added).mpr silent
  refine ⟨by rw [hclosing], ?_, ?_, ?_⟩
  · rw [hclosing, hprinted, String.append_empty]
    exact (blind.sink l.machine).trans works
  · rw [hclosing]
    exact current
  · intro written message
    unfold LoxLang.unheard
    rw [silent]
    exact blind l.machine _

theorem heard_quietly (h : Apart run) (works : l.machine.sink = .working l.machine.sink.written) :
    Heard (Audit.quietly run) run l [] :=
  heard_of_blind h.blind (h.spares l.machine).left.current works rfl rfl

/-- A print adds a line to an output that works, and stops at a closed one. -/
theorem heard_print (value : Value) (works : l.machine.sink = .working l.machine.sink.written) :
    Heard (Audit.perform (.print value)) (Act.print value).run l
      [⟨.print value, l.machine⟩] := by
  refine ⟨?_, ?_, ?_, ?_⟩
  · rw [Audit.closing_perform]
    rfl
  · rw [Audit.closing_perform, left_print, works, Sink.receive_working]
    simp [transcript, Entry.text, Sink.working]
  · rw [Audit.closing_perform, left_print]
  · intro written message
    rw [run_print]
    dsimp only
    rw [Sink.receive_closed]
    rfl

theorem heard_act (act : Act) (works : l.machine.sink = .working l.machine.sink.written) :
    Heard (Audit.perform act) act.run l [⟨act, l.machine⟩] := by
  cases act with
  | make arguments line =>
    have htidy : Tidy (Act.make arguments line).run :=
      (tidy_checkArity _ _ _).bind fun _ => tidy_callNative .array arguments line
    exact heard_of_blind (blind_make arguments line) (htidy l.machine).left.current works rfl rfl
  | use array method arguments line =>
    have htidy : Tidy (Act.use array method arguments line).run :=
      (tidy_checkArity _ _ _).bind fun _ => tidy_callArrayMethod array method arguments line
    exact heard_of_blind (blind_use array method arguments line) (htidy l.machine).left.current
      works rfl rfl
  | print value => exact heard_print value works

/-- The second of two runs is heard if the first one prints nothing and comes to a result. -/
theorem Heard.bind {audit : Audit α} {next : α → Audit β} {next' : α → Run β}
    {added : List Entry} (h : Heard audit run l added)
    (outcome : Audit.outcome (audit l) = run l.machine)
    (second : ∀ a l', audit l = .ok a l' → ∃ more, Heard (next a) (next' a) l' more) :
    ∃ all, Heard (audit >>= next) (run >>= next') l all := by
  obtain ⟨hentries, hsink, hcurrent, hunheard⟩ := h
  show ∃ all, Heard (EStateM.bind audit next) (EStateM.bind run next') l all
  cases haudit : audit l with
  | error stop l' =>
    rw [haudit] at hentries hsink hcurrent outcome
    have hfirst : EStateM.bind audit next l = .error stop l' := by
      unfold EStateM.bind
      rw [haudit]
    refine ⟨added, by rw [hfirst]; exact hentries, by rw [hfirst]; exact hsink,
      by rw [hfirst]; exact hcurrent, ?_⟩
    intro written message
    unfold EStateM.bind
    rw [hunheard written message, ← outcome]
    unfold LoxLang.unheard
    cases firstPrint? added <;> rfl
  | ok a l' =>
    obtain ⟨more, hentries', hsink', hcurrent', hunheard'⟩ := second a l' haudit
    rw [haudit] at hentries hsink hcurrent outcome
    dsimp only [Audit.closing] at hentries hsink hcurrent
    have hboth : EStateM.bind audit next l = next a l' := by
      unfold EStateM.bind
      rw [haudit]
    refine ⟨more ++ added, ?_, ?_, ?_, ?_⟩
    · rw [hboth, hentries', hentries, List.append_assoc]
    · rw [hboth, hsink', hsink, transcript_append]
      exact congrArg Sink.working (String.append_assoc ..)
    · rw [hboth, hcurrent', hcurrent]
    · intro written message
      unfold EStateM.bind
      rw [hunheard written message, ← outcome]
      unfold LoxLang.unheard
      -- If the first part prints, the run with closed output has ended there; if not, it goes on
      -- alike.
      rw [firstPrint?_append]
      cases firstPrint? added with
      | none =>
        show next' a { l'.machine with sink := .closed written message } = _
        rw [hunheard' written message, hcurrent]
        rfl
      | some e => rfl

theorem Heard.within {audit : Audit α} {added : List Entry} {frame : FrameId}
    (h : Heard audit run { l with machine.current := some frame } added) :
    Heard (Audit.within frame audit) (Run.within frame run) l added := by
  obtain ⟨hentries, hsink, -, hunheard⟩ := h
  have hclosing : Audit.closing (Audit.within frame audit l) =
      { Audit.closing (audit { l with machine.current := some frame }) with
        machine.current := l.machine.current } := by
    unfold Audit.within
    cases audit { l with machine.current := some frame } <;> rfl
  refine ⟨by rw [hclosing]; exact hentries, by rw [hclosing]; exact hsink, by rw [hclosing], ?_⟩
  intro written message
  show Run.putBack l.machine.current
    (run { l.machine with current := some frame, sink := .closed written message }) = _
  rw [hunheard written message]
  unfold LoxLang.unheard Run.within
  cases firstPrint? added with
  | none => cases run { l.machine with current := some frame } <;> rfl
  | some e => rfl

end

/-- With an output that works every run is heard. -/
theorem Audits.heard {audit : Audit α} {run : Run α} (h : Audits audit run) {l : Ledger}
    (works : l.machine.sink = .working l.machine.sink.written) : ∃ added, Heard audit run l added := by
  induction h generalizing l with
  | quiet apart => exact ⟨[], heard_quietly apart works⟩
  | act act => exact ⟨_, heard_act act works⟩
  | bind first _ ih ih' =>
    obtain ⟨added, hfirst⟩ := ih works
    refine hfirst.bind (first.outcome l) fun a l' haudit => ih' a ?_
    have hsink := hfirst.sink
    rw [haudit] at hsink
    rw [show l'.machine.sink = _ from hsink]
    rfl
  | within frame _ ih =>
    obtain ⟨added, hinner⟩ := ih (l := { l with machine.current := some frame }) works
    exact ⟨added, hinner.within⟩

end LoxLang
