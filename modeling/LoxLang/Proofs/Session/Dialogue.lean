import LoxLang.Proofs.Evaluation.Output
import LoxLang.Proofs.Session.GlobalScope
import LoxLang.Proofs.Session.Ledger
import LoxLang.Session.Dialogue

/-!
# Dialogues as folds

A dialogue runs the lines of its input one after the other, each in the session that the one before
has left, whatever became of that (`Folds`). Besides, it prints values and reports diagnostics, and
neither matters to the lines that follow. It ends with the input or at the first line that is no
text, and has prompted for each line until then (`dialogue_folds_lines`). It goes on for good if a
line does: in its run, or in the text of a value that contains itself (`Value.text?_eq_none_iff`).
-/

namespace LoxLang

variable {α β : Type}

/-! ## Lines of an input -/

/-- A line without the carriage return at its end. -/
def Dialogue.chomp (line : List UInt8) : List UInt8 :=
  if line.getLast? = some (byte '\r') then line.dropLast else line

/-- The lines of an input: what lies between newlines, without a carriage return before them, and
what follows the last newline, if anything does. -/
inductive InputLines : List UInt8 → List (List UInt8) → Prop
  | done : InputLines [] []
  | last {line : List UInt8} (nonempty : line ≠ []) (single : byte '\n' ∉ line) :
    InputLines line [line]
  | next {line rest : List UInt8} {lines : List (List UInt8)} (single : byte '\n' ∉ line)
    (later : InputLines rest lines) :
    InputLines (line ++ byte '\n' :: rest) (Dialogue.chomp line :: lines)

/-- What a line is without the carriage return that has been read last. -/
theorem Dialogue.chomp_reverse_cons (last : UInt8) (before : List UInt8) :
    chomp (last :: before).reverse =
      (if last = byte '\r' then before else last :: before).reverse := by
  unfold chomp
  rw [List.reverse_cons, List.getLast?_concat, List.dropLast_concat]
  simp only [Option.some.injEq]
  split <;> simp

/-- The bytes of a line that have been read so far stand in the order opposite to that of the
input. -/
theorem inputLines_splitLines (current input : List UInt8) (single : byte '\n' ∉ current) :
    InputLines (current.reverse ++ input) (Dialogue.splitLines current input) := by
  have hsingle : byte '\n' ∉ current.reverse := fun h => single (List.mem_reverse.mp h)
  -- `current` is the line so far, its last byte first. It has no newline, since that would have
  -- ended the line.
  induction input generalizing current with
  | nil =>
    rw [List.append_nil]
    unfold Dialogue.splitLines
    cases current with
    | nil => exact .done
    | cons b before => exact .last (by simp) hsingle
  | cons b rest ih =>
    unfold Dialogue.splitLines
    split
    · next hb =>
      subst hb
      have hlater := ih [] List.not_mem_nil List.not_mem_nil
      cases current with
      | nil => exact .next List.not_mem_nil hlater
      | cons last before =>
        have hnext := InputLines.next hsingle hlater
        rw [Dialogue.chomp_reverse_cons] at hnext
        exact hnext
    · next hb =>
      have hbyte : byte '\n' ∉ b :: current := by
        rw [List.mem_cons, not_or]
        exact ⟨fun h => hb h.symm, single⟩
      have happend : current.reverse ++ b :: rest = (b :: current).reverse ++ rest := by simp
      rw [happend]
      exact ih (b :: current) hbyte fun h => hbyte (List.mem_reverse.mp h)

/-! ## Folds -/

/-- A problem that a run or a source has come to; a run that has not come to its end has none. -/
def Diagnostic.finished : Diagnostic → Bool
  | .stopped .exhausted => false
  | _ => true

/-- What is printed for the value of a line, unless there is no end to the line's run or to the text
of its value. -/
def Outcome.valueLine? (o : Outcome (Option Value)) : Option String :=
  match o.result with
  | .ok none => some ""
  | .ok (some value) => (value.text? o.session.machine.arrays).map (· ++ "\n")
  | .error diagnostics => if diagnostics.all Diagnostic.finished then some "" else none

/-- What is reported about a line. -/
def Outcome.reports (o : Outcome α) : List Report :=
  match o.result with
  | .ok _ => []
  | .error diagnostics => diagnostics.map Diagnostic.report

/-- Lines are run one after the other, each once and in the session that the one before has left.
What comes of each is what it prints itself, its value, and its diagnostics. -/
inductive Folds (budget : Nat) : Session → List String → List Exchange → Session → Prop
  | nil (s : Session) : Folds budget s [] [] s
  | line {s final : Session} {text printed shown : String} {texts : List String}
      {exchanges : List Exchange}
      (written : (s.runLine budget text).session.machine.sink.written =
        s.machine.sink.written ++ printed)
      (value : (s.runLine budget text).valueLine? = some shown)
      (later : Folds budget (s.runLine budget text).session texts exchanges final) :
      Folds budget s (text :: texts)
        (⟨printed ++ shown, (s.runLine budget text).reports⟩ :: exchanges) final

/-- The session behind lines is what is left by running them one after the other. -/
theorem Folds.session {budget : Nat} {s final : Session} {texts : List String}
    {exchanges : List Exchange} (h : Folds budget s texts exchanges final) :
    final = texts.foldl (fun s text => (s.runLine budget text).session) s := by
  induction h with
  | nil s => rfl
  | line _ _ _ ih => exact ih

theorem Folds.length {budget : Nat} {s final : Session} {texts : List String}
    {exchanges : List Exchange} (h : Folds budget s texts exchanges final) :
    exchanges.length = texts.length := by
  induction h with
  | nil s => rfl
  | line _ _ _ ih => exact congrArg (· + 1) ih

/-! ## What was written before a line -/

/-- A session that has written a text before what it has written. -/
def Session.behind (s : Session) (text : String) : Session :=
  { s with machine := s.machine.behind text }

/-- What becomes of a source in a session that has written a text before. -/
def Outcome.behind (o : Outcome α) (text : String) : Outcome α :=
  ⟨o.result, o.session.behind text⟩

/-- A session whose output has been taken. -/
def Session.taken (s : Session) : Session :=
  s.takeOutput.2

@[simp] theorem Session.behind_taken (s : Session) (text : String) :
    (s.behind text).taken = s.taken := rfl

@[simp] theorem Session.written_behind (s : Session) (text : String) :
    (s.behind text).machine.sink.written = text ++ s.machine.sink.written := rfl

@[simp] theorem Outcome.session_behind (o : Outcome α) (text : String) :
    (o.behind text).session = o.session.behind text := rfl

@[simp] theorem Outcome.valueLine?_behind (o : Outcome (Option Value)) (text : String) :
    (o.behind text).valueLine? = o.valueLine? := rfl

@[simp] theorem Outcome.reports_behind (o : Outcome α) (text : String) :
    (o.behind text).reports = o.reports := rfl

namespace Session

variable {s : Session}

theorem perform_behind {audit : Audit α} {run : Run α} (h : Audits audit run) (s : Session)
    (text : String) (added : Bindings) :
    (s.behind text).perform added run = (s.perform added run).behind text := by
  rw [perform_eq, perform_eq]
  have hbehind : run ((s.behind text).machine.binding added) = _ :=
    h.behind (s.machine.binding added) text
  rw [hbehind]
  cases run (s.machine.binding added) <;> rfl

theorem proceed_behind (s : Session) (text : String) (tree : Except (List Diagnostic) α)
    (program : α → List Stmt) {audit : α → Audit β} {run : α → Run β}
    (h : ∀ tree, Audits (audit tree) (run tree)) :
    (s.behind text).proceed tree program run = (s.proceed tree program run).behind text := by
  unfold proceed
  cases tree with
  | error diagnostics => rfl
  | ok tree =>
    rcases hresolved : Scoping.resolveWith s.resolver (program tree) with ⟨result, resolver⟩
    simp only [behind, hresolved]
    cases result with
    | error problems => rfl
    | ok added => exact perform_behind (h tree) { s with resolver := resolver } text added

/-- What has been written before an input makes no difference to it. -/
theorem take_behind (budget : Nat) (s : Session) (text : String) (input : Input) :
    (s.behind text).take budget input = (s.take budget input).behind text := by
  rw [take_eq, take_eq]
  cases input.job with
  | nothing => rfl
  | program source =>
    let nextId := (readProgram (tokensOf source) s.nextId).nextId
    exact congrArg (Outcome.map fun _ => none)
      (proceed_behind { s with nextId := nextId } text _ id (audits_interpret budget))
  | expression source =>
    let nextId := (readExpression (tokensOf source) s.nextId).nextId
    exact congrArg (Outcome.map some)
      (proceed_behind { s with nextId := nextId } text _ _ (auditsAt budget).evaluate)

/-- With nothing in its output a session is the one that has written something behind it. -/
theorem taken_behind (s : Session) : s.taken.behind s.machine.sink.written = s := by
  show { s with machine.sink.written := s.machine.sink.written ++ "" } = s
  rw [String.append_empty]

/-! ## What is written by a line -/

theorem machine_of_ran {run : Run α} {m : Machine} {f : α → β} {o : Outcome β}
    (ran : Ran run m f o) : o.session.machine = Run.left (run m) := by
  unfold Ran at ran
  cases hrun : run m with
  | ok a m' =>
    rw [hrun] at ran
    exact ran.2
  | error stop m' =>
    rw [hrun] at ran
    exact ran.2

/-- An input adds to the output, and does not break it. -/
theorem onward_take (budget : Nat) (s : Session) (input : Input) :
    s.machine.sink.Onward (s.take budget input).session.machine.sink := by
  have hrun : ∀ {γ : Type} {run : Run γ} {added : Bindings} {f : γ → Option Value}
      {o : Outcome (Option Value)}, Tidy run → Ran run (s.machine.binding added) f o →
      s.machine.sink.Onward o.session.machine.sink := by
    intro γ run added f o tidy ran
    rw [machine_of_ran ran]
    exact (tidy (s.machine.binding added)).left.sink
  rcases take_gated budget s input with ⟨-, -, hmachine⟩ | ⟨-, hexecuted⟩
  · rw [hmachine]
    exact .refl _
  · generalize s.take budget input = o at hexecuted
    generalize input.job = job at hexecuted
    cases hexecuted with
    | nothing => exact .refl _
    | program read resolved ran => exact hrun (tidy_interpret budget _) ran
    | expression read resolved ran => exact hrun ((tidyAt budget).evaluate _) ran

end Session

/-- A line leaves an output that works as one that works. -/
theorem Session.works_runLine (budget : Nat) {s : Session} (text : String)
    (works : s.machine.sink = .working s.machine.sink.written) :
    let sink := (s.runLine budget text).session.machine.sink
    sink = .working sink.written := by
  have honward := Session.onward_take budget s (.line text)
  rw [works] at honward
  exact honward.eq_working

/-- An output that works works with nothing in it, too. -/
theorem Session.works_taken {s : Session}
    (works : s.machine.sink = .working s.machine.sink.written) :
    s.taken.machine.sink = .working s.taken.machine.sink.written := by
  show { s.machine.sink with written := "" } = _
  rw [works]
  rfl

/-- A line does what it does with nothing in the output, behind what is there. -/
theorem Session.runLine_taken (budget : Nat) (s : Session) (text : String) :
    s.runLine budget text = (s.taken.runLine budget text).behind s.machine.sink.written := by
  have hbehind : (s.taken.behind s.machine.sink.written).runLine budget text = _ :=
    Session.take_behind budget s.taken s.machine.sink.written (.line text)
  rwa [Session.taken_behind] at hbehind

/-! ## Exchanges -/

namespace Dialogue

/-- Only a run that has not come to its end keeps a dialogue from going on. -/
theorem findSome?_endingOfRun (diagnostics : List Diagnostic) :
    diagnostics.findSome? endingOfRun =
      if diagnostics.all Diagnostic.finished then none else some .unfinished := by
  induction diagnostics with
  | nil => rfl
  | cons d rest ih =>
    rw [List.findSome?_cons, List.all_cons, ih]
    cases d with
    | stopped stop => cases stop <;> rfl
    | _ => rfl

/-- The value of a line is printed by an output that works, if it has a text. -/
theorem printResult_of_text {s : Session} {value : Option Value} {shown : String}
    (works : s.machine.sink = .working s.machine.sink.written)
    (h : (Outcome.mk (.ok value) s).valueLine? = some shown) :
    printResult s value =
      ⟨.ok (), { s with machine.sink := .working (s.machine.sink.written ++ shown) }⟩ := by
  cases value with
  | none =>
    obtain rfl : "" = shown := Option.some.inj h
    rw [String.append_empty, ← works]
    rfl
  | some value =>
    obtain ⟨text, htext, rfl⟩ := Option.map_eq_some_iff.mp h
    have hworks : s.machine.sink.Works := works ▸ Sink.works_working _
    have hprint : Run.print value (s.machine.binding Bindings.none) = _ :=
      print_of_text hworks htext
    rw [printResult, Session.perform_eq, hprint]
    show Outcome.mk _ { s with machine.sink := s.machine.sink.take (text ++ "\n") } = _
    rw [works]
    rfl

/-- A dialogue does not come behind a value without a text. -/
theorem printResult_of_no_text {s : Session} {value : Option Value}
    (works : s.machine.sink = .working s.machine.sink.written)
    (h : (Outcome.mk (.ok value) s).valueLine? = none) :
    (printResult s value).result = .error [.stopped .exhausted] := by
  cases value with
  | none => cases h
  | some value =>
    have hworks : s.machine.sink.Works := works ▸ Sink.works_working _
    have hprint : Run.print value (s.machine.binding Bindings.none) = _ :=
      print_of_no_text hworks (Option.map_eq_none_iff.mp h)
    rw [printResult, Session.perform_eq, hprint]
    rfl

/-- With an output that works a line to which there is an end is no reason to end the dialogue. What
comes of it is what it has written, the line of its value, and its diagnostics. -/
theorem exchange_of_line {budget : Nat} {s : Session} {text shown : String}
    (works : s.machine.sink = .working s.machine.sink.written)
    (h : (s.runLine budget text).valueLine? = some shown) :
    exchange budget s text =
      (⟨(s.runLine budget text).session.machine.sink.written ++ shown,
        (s.runLine budget text).reports⟩, none, (s.runLine budget text).session.taken) := by
  have hworks := Session.works_runLine budget text works
  unfold exchange
  generalize s.runLine budget text = o at h hworks
  obtain ⟨result, session⟩ := o
  cases result with
  | error diagnostics =>
    obtain ⟨hfinished, hshown⟩ := Option.ite_none_right_eq_some.mp h
    obtain rfl : "" = shown := Option.some.inj hshown
    rw [String.append_empty]
    simp only [findSome?_endingOfRun, if_pos hfinished]
    rfl
  | ok value =>
    simp only [printResult_of_text hworks h]
    show _ = (_, _, { session with machine.sink := { session.machine.sink with written := "" } })
    rw [show session.machine.sink = _ from hworks]
    rfl

/-- A dialogue does not come behind a line without an end. -/
theorem exchange_of_unfinished {budget : Nat} {s : Session} {text : String}
    (works : s.machine.sink = .working s.machine.sink.written)
    (h : (s.runLine budget text).valueLine? = none) :
    ∃ last s', exchange budget s text = (last, some .unfinished, s') := by
  have hworks := Session.works_runLine budget text works
  unfold exchange
  generalize s.runLine budget text = o at h hworks
  obtain ⟨result, session⟩ := o
  cases result with
  | error diagnostics =>
    have hfinished : ¬diagnostics.all Diagnostic.finished = true :=
      fun hall => Option.some_ne_none "" ((if_pos hall).symm.trans h)
    simp only [findSome?_endingOfRun, if_neg hfinished]
    exact ⟨_, _, rfl⟩
  | ok value =>
    simp only [printResult_of_no_text hworks h]
    exact ⟨_, _, rfl⟩

/-- A dialogue takes what is printed out of the output behind each line, where a session goes on
collecting it. Nothing else tells the two apart. -/
theorem exchange_taken {budget : Nat} {s : Session} {text shown : String}
    (works : s.machine.sink = .working s.machine.sink.written)
    (h : (s.runLine budget text).valueLine? = some shown) :
    ∃ printed, (s.runLine budget text).session.machine.sink.written =
        s.machine.sink.written ++ printed ∧
      exchange budget s.taken text =
        (⟨printed ++ shown, (s.runLine budget text).reports⟩, none,
          (s.runLine budget text).session.taken) := by
  have hbehind := Session.runLine_taken budget s text
  rw [hbehind, Outcome.valueLine?_behind] at h
  have hexchange := exchange_of_line (Session.works_taken works) h
  refine ⟨(s.taken.runLine budget text).session.machine.sink.written, ?_, ?_⟩
  · rw [hbehind, Outcome.session_behind, Session.written_behind]
  · rw [hexchange, hbehind, Outcome.reports_behind, Outcome.session_behind, Session.behind_taken]

theorem exchange_taken_of_unfinished {budget : Nat} {s : Session} {text : String}
    (works : s.machine.sink = .working s.machine.sink.written)
    (h : (s.runLine budget text).valueLine? = none) :
    ∃ last s', exchange budget s.taken text = (last, some .unfinished, s') := by
  rw [Session.runLine_taken, Outcome.valueLine?_behind] at h
  exact exchange_of_unfinished (Session.works_taken works) h

/-! ## Whole dialogues -/

/-- How a dialogue ends behind lines of which these exchanges have come and that have left this
session, with the given lines to come: with the input, at a line that is no text, or not at all, as
there is no end to a line. -/
inductive Ends (budget : Nat) (final : Session) (exchanges : List Exchange) (d : Dialogue) :
    List (List UInt8) → Prop
  | endOfInput (ending : d.ending = .endOfInput) (all : d.exchanges = exchanges)
      (session : d.session = final.taken) : Ends budget final exchanges d []
  | notText {bad : List UInt8} {later : List (List UInt8)} (undecoded : Utf8.decode? bad = none)
      (ending : d.ending = .notText) (all : d.exchanges = exchanges)
      (session : d.session = final.taken) : Ends budget final exchanges d (bad :: later)
  | unfinished {line : List UInt8} {later : List (List UInt8)} {text : String} {last : Exchange}
      (decoded : Utf8.decode? line = some text)
      (endless : (final.runLine budget text).valueLine? = none) (ending : d.ending = .unfinished)
      (all : d.exchanges = exchanges ++ [last]) : Ends budget final exchanges d (line :: later)

/-- One exchange more before all others makes no difference to how a dialogue ends. -/
theorem Ends.cons {budget : Nat} {final : Session} {exchanges : List Exchange} {d : Dialogue}
    {after : List (List UInt8)} (h : Ends budget final exchanges d after) (first : Exchange) :
    Ends budget final (first :: exchanges) ⟨first :: d.exchanges, d.ending, d.session⟩ after := by
  cases h with
  | endOfInput ending all session => exact .endOfInput ending (congrArg _ all) session
  | notText undecoded ending all session =>
    exact .notText undecoded ending (congrArg _ all) session
  | unfinished decoded endless ending all =>
    exact .unfinished decoded endless ending (congrArg _ all)

/-- Lines that are texts are folded, in a dialogue that takes the output of each. -/
theorem folds_ofLines (budget : Nat) (lines : List (List UInt8)) (s : Session)
    (works : s.machine.sink = .working s.machine.sink.written) :
    ∃ before after texts exchanges final, lines = before ++ after ∧
      before.map Utf8.decode? = texts.map some ∧ Folds budget s texts exchanges final ∧
      Ends budget final exchanges (ofLines budget lines s.taken) after := by
  induction lines generalizing s with
  | nil => exact ⟨[], [], [], [], s, rfl, rfl, .nil s, .endOfInput rfl rfl rfl⟩
  | cons line rest ih =>
    unfold ofLines
    cases hdecoded : Utf8.decode? line with
    | none =>
      exact ⟨[], line :: rest, [], [], s, rfl, rfl, .nil s, .notText hdecoded rfl rfl rfl⟩
    | some text =>
      cases hvalue : (s.runLine budget text).valueLine? with
      | none =>
        obtain ⟨last, s', hexchange⟩ := exchange_taken_of_unfinished works hvalue
        simp only [hexchange]
        refine ⟨[], line :: rest, [], [], s, rfl, rfl, .nil s, ?_⟩
        exact .unfinished hdecoded hvalue rfl rfl
      | some shown =>
        obtain ⟨before, after, texts, exchanges, final, hlines, hdecodes, hfolds, hends⟩ :=
          ih (s.runLine budget text).session (Session.works_runLine budget text works)
        obtain ⟨printed, hwritten, hexchange⟩ := exchange_taken works hvalue
        simp only [hexchange]
        refine ⟨line :: before, after, text :: texts, _ :: exchanges, final, ?_, ?_,
          .line hwritten hvalue hfolds, hends.cons _⟩
        · rw [hlines, List.cons_append]
        · rw [List.map_cons, List.map_cons, hdecoded, hdecodes]

/-- One prompt stands before each line that is taken. -/
theorem prompts_eq (d : Dialogue) :
    d.prompts = String.join (List.replicate d.exchanges.length prompt) ++ farewell d.ending := by
  unfold prompts
  rw [List.map_const']

/-- A dialogue has prompted for the lines that are folded and once more: at the end of the input or
for the line at which it ends. -/
theorem Ends.prompts {budget : Nat} {final : Session} {exchanges : List Exchange} {d : Dialogue}
    {after : List (List UInt8)} (h : Ends budget final exchanges d after) :
    d.prompts = String.join (List.replicate (exchanges.length + 1) "> ") ++
      if d.ending = .endOfInput then "\n" else "" := by
  have hjoin : String.join (List.replicate (exchanges.length + 1) "> ") =
      String.join (List.replicate exchanges.length prompt) ++ prompt := by
    rw [List.replicate_succ', String.join_append]
    rfl
  rw [prompts_eq]
  cases h with
  | endOfInput ending all session =>
    rw [ending, all, hjoin, String.append_assoc]
    rfl
  | notText undecoded ending all session =>
    rw [ending, all, hjoin, String.append_assoc]
    rfl
  | unfinished decoded endless ending all =>
    rw [ending, all, List.length_append]
    rfl

end Dialogue

/-- A dialogue over an input, with an output that works, in a session in any state. The lines that
are texts and come to an end are run in their order and each once, in the session that those before
have left; what is printed is what they print themselves and the values that they have. Whatever
they report, the dialogue goes on, and the session behind it is the one that they leave. It ends with
the input, having prompted for each line and once more, or for a line that is no text, the last one
for which it has prompted; or it does not come to its end, as a line does not, be it with its run or
with the text of its value. -/
theorem dialogue_folds_lines (budget : Nat) (s : Session) (input : List UInt8) :
    let start : Session := { s with machine.sink := .working "" }
    let lines := Dialogue.splitLines [] input
    let d := Dialogue.run budget start input
    InputLines input lines ∧
    ∃ before after texts exchanges, lines = before ++ after ∧
      before.map Utf8.decode? = texts.map some ∧
      let final := texts.foldl (fun s text => (s.runLine budget text).session) start
      Folds budget start texts exchanges final ∧
      Dialogue.Ends budget final exchanges d after ∧
      d.prompts = String.join (List.replicate (before.length + 1) "> ") ++
        if d.ending = .endOfInput then "\n" else "" := by
  intro start lines d
  refine ⟨inputLines_splitLines [] input List.not_mem_nil, ?_⟩
  obtain ⟨before, after, texts, exchanges, final, hlines, hdecoded, hfolds, hends⟩ :=
    Dialogue.folds_ofLines budget lines start rfl
  obtain rfl := hfolds.session
  have hlength : exchanges.length = before.length := by
    rw [hfolds.length, ← List.length_map some, ← hdecoded, List.length_map]
  refine ⟨before, after, texts, exchanges, hlines, hdecoded, hfolds, hends, ?_⟩
  rw [← hlength]
  exact hends.prompts

end LoxLang
