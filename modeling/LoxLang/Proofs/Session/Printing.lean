import LoxLang.Proofs.Evaluation.Output
import LoxLang.Proofs.Grammar.Printing
import LoxLang.Proofs.Session.Joining
import LoxLang.Proofs.Text.Encoding

/-!
# Lines that are printed

A line of input that is an expression does what the program does that prints it, except that its
value is the result and not printed (`line_agrees_with_program`). A value without a text can be the
result of a line, but the program does not come to its end. In the program a newline stands
behind the expression, as a comment might else take in the semicolon.
-/

namespace LoxLang

/-! ## Scanning and reading -/

/-- The program that prints the value of an expression. -/
def printing (line : String) : List UInt8 :=
  Utf8.encode ("print " ++ line ++ "\n;")

theorem printing_eq (line : String) :
    printing line =
      Utf8.encode "print " ++ (Utf8.encode line ++ byte '\n' :: Utf8.encode ";") := by
  rw [printing, Utf8.encode_append, Utf8.encode_append, List.append_assoc]
  rfl

/-- The word `print` and a blank in front of a source. -/
theorem tiles_print (source : List UInt8) :
    tiles (Utf8.encode "print " ++ source) =
      ⟨.token (.keyword .printWord), Utf8.encode "print", 0⟩ :: ⟨.skipped, [byte ' '], 0⟩ ::
        tiles source :=
  rfl

theorem tokensOf_print (source : List UInt8) :
    tokensOf (Utf8.encode "print " ++ source) =
      ⟨.keyword .printWord, 1⟩ :: tokensOf source := by
  unfold tokensOf scan
  rw [tiles_print]
  rfl

theorem faultsOf_print (source : List UInt8) :
    faultsOf (Utf8.encode "print " ++ source) = faultsOf source := by
  unfold faultsOf scan
  rw [tiles_print]
  rfl

section

variable {line : String} {nextId next : RefId} {e : Expr}

/-- Around the tokens of the line stand the word `print` and a semicolon. -/
theorem tokensOf_printing (h : faultsOf (Utf8.encode line) = []) :
    ∃ mark : Token, Grammar.isSymbol .semicolon mark = true ∧
      beforeEnd (tokensOf (printing line)) =
        ⟨.keyword .printWord, 1⟩ :: (beforeEnd (tokensOf (Utf8.encode line)) ++ [mark]) := by
  let lines := 1 + (Utf8.encode line).count (byte '\n')
  refine ⟨⟨.symbol .semicolon, 1 + lines⟩, rfl, ?_⟩
  have hjoined : beforeEnd (tokensOf (Utf8.encode line ++ byte '\n' :: Utf8.encode ";")) =
      beforeEnd (tokensOf (Utf8.encode line)) ++ [⟨.symbol .semicolon, 1 + lines⟩] :=
    tokensOf_joined h
  rw [printing_eq, tokensOf_print]
  have hword : (⟨.keyword .printWord, 1⟩ : Token).isEof = false := rfl
  rw [beforeEnd, List.takeWhile_cons, hword]
  exact congrArg _ hjoined

theorem faultsOf_printing (h : faultsOf (Utf8.encode line) = []) :
    faultsOf (printing line) = [] := by
  rw [printing_eq, faultsOf_print, faultsOf_joined h]
  rfl

theorem readProgram_printing (h : faultsOf (Utf8.encode line) = [])
    (hread : readExpression (tokensOf (Utf8.encode line)) nextId = ⟨.ok e, next⟩) :
    readProgram (tokensOf (printing line)) nextId = ⟨.ok [.print e], next⟩ := by
  obtain ⟨mark, hmark, htokens⟩ := tokensOf_printing h
  exact readProgram_print hread rfl hmark htokens

end

/-! ## Running -/

/-- A session whose output has taken one text more. -/
def Session.writing (s : Session) (text : String) : Session :=
  { s with machine := s.machine.writing text }

section

variable {budget : Nat} {e : Expr} {m m' : Machine} {v : Value}

/-- An expression that is printed is evaluated, and what becomes of the program then is what becomes
of the value's line. -/
theorem interpret_print (h : evaluate budget e m = .ok v m') :
    interpret (budget + 1) [.print e] m = Run.print v m' := by
  simp only [interpret, execute, bind, EStateM.bind, h]
  cases Run.print v m' <;> rfl

theorem interpret_print_error {stop : Stop} (h : evaluate budget e m = .error stop m') :
    interpret (budget + 1) [.print e] m = .error stop m' := by
  simp only [interpret, execute, bind, EStateM.bind, h]

end

/-- How an expression and the program that prints it end, run in the same session. -/
inductive Agrees.Ends (first : Outcome (Option Value)) (second : Outcome Unit) : Prop
  /-- A value with a text: the program has printed the text, and no more. -/
  | printed (v : Value) (text : String) (value : first.result = .ok (some v))
      (shown : v.text? first.session.machine.arrays = some text) (result : second.result = .ok ())
      (session : second.session = first.session.writing (text ++ "\n"))
  /-- A value without one: the program does not come behind it. -/
  | endless (v : Value) (beginning : String) (value : first.result = .ok (some v))
      (shown : v.text? first.session.machine.arrays = none)
      (result : second.result = .error [.stopped .exhausted])
      (session : second.session = first.session.writing beginning)
  /-- No value. -/
  | stopped (stop : Stop) (value : first.result = .error [.stopped stop])
      (result : second.result = .error [.stopped stop]) (session : second.session = first.session)

/-- An expression and the program that prints it, run with the same output: all that the first one
prints the second one prints, too, and the sessions behind them differ in the value alone, which only
the program has printed. -/
structure Agrees (before : Sink) (first : Outcome (Option Value)) (second : Outcome Unit) :
    Prop where
  printed : before.Onward first.session.machine.sink
  ends : Agrees.Ends first second

/-- Printing an expression does what its evaluation does, and prints the value. -/
theorem agrees_perform (budget : Nat) (e : Expr) (added : Bindings) (s : Session)
    (works : s.machine.sink.Works) :
    Agrees s.machine.sink ((s.perform added (evaluate budget e)).map some)
      (s.perform added (interpret (budget + 1) [.print e])) := by
  obtain ⟨machine, nextId, resolver⟩ := s
  have honward := (tidyAt budget).evaluate e (machine.binding added)
  cases hrun : evaluate budget e (machine.binding added) with
  | ok v m =>
    have hsink : machine.sink.Onward m.sink := (honward.of_ok hrun).sink
    -- Printing the value needs an output that works, and evaluation does not break it.
    have hworks : m.sink.Works := works.onward hsink
    have hprint := interpret_print hrun
    cases hshown : v.text? m.arrays with
    | some text =>
      rw [print_of_text hworks hshown] at hprint
      unfold Machine.binding at hrun hprint
      unfold Session.perform
      simp only [hrun, hprint]
      exact ⟨hsink, .printed v text rfl hshown rfl rfl⟩
    | none =>
      rw [print_of_no_text hworks hshown] at hprint
      unfold Machine.binding at hrun hprint
      unfold Session.perform
      simp only [hrun, hprint]
      exact ⟨hsink, .endless v _ rfl hshown rfl rfl⟩
  | error stop m =>
    have hprint := interpret_print_error hrun
    have hsink : machine.sink.Onward m.sink := (honward.of_error hrun).sink
    unfold Machine.binding at hrun hprint
    unfold Session.perform
    simp only [hrun, hprint]
    exact ⟨hsink, .stopped stop rfl rfl rfl⟩

/-- A line that is an expression without static errors does what the program does that prints it,
which has none either and needs one level of nesting more. Both print the same while the expression
is evaluated. If there is a value, the program prints its text as well, unless there is no end to
this, and in everything else leaves the same session. Otherwise both stop for the same reason and
with the same session. -/
theorem line_agrees_with_program (s : Session) (budget : Nat) (line : String)
    (works : s.machine.sink.Works) (nonempty : line ≠ "")
    (trimmed : Blank.trimEnd line = line) (bare : line.endsWith ";" = false)
    (accepted : (Input.line line).job.errors s.nextId = []) :
    (Job.program (printing line)).errors s.nextId = [] ∧
      Agrees s.machine.sink (s.runLine budget line)
        (s.run (budget + 1) (printing line)) := by
  have hempty : line.isEmpty = false := by simpa using nonempty
  have hjob : (Input.line line).job = .expression (Utf8.encode line) := by
    simp only [Input.job, trimmed, hempty, bare, Bool.false_eq_true, if_false]
  rw [hjob] at accepted
  obtain ⟨e, added, hfaults, hread, hresolved⟩ :=
    Session.exists_of_staticErrors (Grammar.read_ne_nil Grammar.wholeExpression _ s.nextId) accepted
  have hscanned : faultsOf (Utf8.encode line) = [] := lexicalDiagnostics_eq_nil.mp hfaults
  have hfaults' : Session.lexicalDiagnostics (printing line) = [] :=
    lexicalDiagnostics_eq_nil.mpr (faultsOf_printing hscanned)
  let next := (readExpression (tokensOf (Utf8.encode line)) s.nextId).nextId
  have hread' : readProgram (tokensOf (printing line)) s.nextId = ⟨.ok [.print e], next⟩ := by
    refine readProgram_printing hscanned ?_
    rw [← hread]
    rfl
  -- An expression is resolved in the same way whether it is printed or not.
  have hresolved' : Scoping.resolve (id [.print e]) = .ok added := hresolved
  let before : Session := ⟨s.machine, next, (Scoping.resolveWith s.resolver [.print e]).2⟩
  have hline : s.runLine budget line = (before.perform added (evaluate budget e)).map some := by
    have htaken : s.runLine budget line = (s.evaluate budget (Utf8.encode line)).map some := by
      have h := Session.take_eq budget s (.line line)
      rwa [hjob] at h
    have hevaluated : s.evaluate budget (Utf8.encode line) =
        before.perform added (evaluate budget e) := by
      unfold Session.evaluate
      exact Session.proceed_eq_perform { s with nextId := next } (evaluate budget) hfaults hread
        hresolved
    rw [htaken, hevaluated]
  have hprogram : s.run (budget + 1) (printing line) =
      before.perform added (interpret (budget + 1) [.print e]) := by
    unfold Session.run
    rw [hread']
    exact Session.proceed_eq_perform { s with nextId := next } (interpret (budget + 1)) hfaults'
      rfl hresolved'
  refine ⟨?_, ?_⟩
  · rw [Job.errors, staticErrors_of_tree (congrArg Reading.result hread') hfaults', hresolved']
  · rw [hline, hprogram]
    exact agrees_perform budget e added before works

/-- A comment at the end of a line does not take in the semicolon. -/
theorem line_agrees_before_comment :
    let s := Session.start .plain (.working "")
    let line := "\"a\" + \"b\" // joined"
    let second := s.run 11 (printing line)
    (Job.program (printing line)).errors 0 = [] ∧ Agrees s.machine.sink (s.runLine 10 line) second ∧
      second.session.machine.sink.written = "ab\n" := by
  intro s line second
  obtain ⟨haccepted, hagrees⟩ := line_agrees_with_program s 10 line (Sink.works_working "")
    (by decide) (by decide +kernel) (by decide +kernel) (by decide +kernel)
  exact ⟨haccepted, hagrees, by decide +kernel⟩

end LoxLang
