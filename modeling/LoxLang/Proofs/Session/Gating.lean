import LoxLang.Proofs.Session.History

/-!
# All or nothing

A source is run only if all of it scans, reads and resolves without a problem. Its static
errors (`Job.errors`) are said here without regard to how a session goes about it. An input
with static errors leaves the machine as it is, and one without is run (`Executed`); which of
the two happens to an input, and how its run ends, is its verdict (`Verdict`).
-/

namespace LoxLang

/-! ## Static errors -/

/-- The problems of reading. -/
def Reading.diagnostics {α : Type} (reading : Reading α) : List Diagnostic :=
  match reading.result with
  | .ok _ => []
  | .error problems => problems.map .grammar

/-- The problems of a source that are found before it is run: those of scanning followed by
those of reading and, only if there is none of either kind, those of names. -/
def staticErrors {α : Type} (source : List UInt8) (reading : Reading α)
    (program : α → List Stmt) : List Diagnostic :=
  match Session.lexicalDiagnostics source ++ reading.diagnostics, reading.result with
  | [], .ok tree =>
    match Scoping.resolve (program tree) with
    | .ok _ => []
    | .error problems => problems.map .scoping
  | diagnostics, _ => diagnostics

/-- The static errors of a job, whose references are counted from the given one on. -/
def Job.errors (nextId : RefId) : Job → List Diagnostic
  | nothing => []
  | program source => staticErrors source (readProgram (tokensOf source) nextId) id
  | expression source =>
    staticErrors source (readExpression (tokensOf source) nextId) fun e => [.expression e]

theorem staticErrors_of_ne_nil {α : Type} {source : List UInt8} {reading : Reading α}
    (h : Session.lexicalDiagnostics source ++ reading.diagnostics ≠ []) (program : α → List Stmt) :
    staticErrors source reading program =
      Session.lexicalDiagnostics source ++ reading.diagnostics := by
  unfold staticErrors
  split
  · next hnone _ => exact absurd hnone h
  · rfl

theorem staticErrors_of_tree {α : Type} {source : List UInt8} {reading : Reading α} {tree : α}
    (hread : reading.result = .ok tree) (hfaults : Session.lexicalDiagnostics source = [])
    (program : α → List Stmt) :
    staticErrors source reading program =
      match Scoping.resolve (program tree) with
      | .ok _ => []
      | .error problems => problems.map .scoping := by
  unfold staticErrors Reading.diagnostics
  simp only [hread, hfaults, List.append_nil]

theorem isStatic_of_mem_gate {α : Type} {source : List UInt8} {reading : Reading α} :
    ∀ d ∈ Session.lexicalDiagnostics source ++ reading.diagnostics, d.report.isStatic = true := by
  intro d hd
  rcases List.mem_append.mp hd with hd | hd
  · obtain ⟨fault, -, rfl⟩ := List.mem_map.mp hd
    rfl
  · unfold Reading.diagnostics at hd
    split at hd
    · cases hd
    · obtain ⟨problem, -, rfl⟩ := List.mem_map.mp hd
      rfl

/-- No static error is one of a run. -/
theorem isStatic_of_mem_staticErrors {α : Type} {source : List UInt8} {reading : Reading α}
    {program : α → List Stmt} :
    ∀ d ∈ staticErrors source reading program, d.report.isStatic = true := by
  unfold staticErrors
  split
  · split
    · simp
    · intro d hd
      obtain ⟨problem, -, rfl⟩ := List.mem_map.mp hd
      rfl
  · exact isStatic_of_mem_gate

theorem Job.isStatic_of_mem_errors (job : Job) (nextId : RefId) :
    ∀ d ∈ job.errors nextId, d.report.isStatic = true := by
  cases job with
  | nothing => simp [errors]
  | program source => exact isStatic_of_mem_staticErrors
  | expression source => exact isStatic_of_mem_staticErrors

/-- Static errors make a source a bad one. -/
theorem exitCode_of_static {diagnostics : List Diagnostic} (some : diagnostics ≠ [])
    (static : ∀ d ∈ diagnostics, d.report.isStatic = true) :
    ExitCode.ofReports (diagnostics.map Diagnostic.report) = .badSource := by
  unfold ExitCode.ofReports
  rw [if_pos]
  obtain ⟨d, hd⟩ := List.exists_mem_of_ne_nil _ some
  rw [List.any_map, List.any_eq_true]
  exact ⟨d, hd, static d hd⟩

/-! ## The gate -/

/-- A reading that fails says why. -/
theorem Grammar.read_ne_nil {α : Type} (rule : Nat → Rule α) (tokens : List Token)
    (nextId : RefId) : (read rule tokens nextId).result ≠ .error [] := by
  unfold read
  split
  · split
    · simp
    · next hproblems =>
      simpa using hproblems
  · simp

/-- What the gate stops is all that was found in scanning and reading, and that is something if
a reading that fails says why. -/
theorem Session.gate_error {α : Type} {source : List UInt8} {reading : Reading α}
    {diagnostics : List Diagnostic} (said : reading.result ≠ .error [])
    (h : gate source reading = .error diagnostics) :
    diagnostics = lexicalDiagnostics source ++ reading.diagnostics ∧ diagnostics ≠ [] := by
  unfold gate at h
  unfold Reading.diagnostics
  split at h
  · cases h
  · next hresult hfaults =>
    cases h
    simpa [hresult] using hfaults
  · next problems hresult =>
    cases h
    rw [hresult] at said ⊢
    refine ⟨rfl, ?_⟩
    rw [ne_eq, List.append_eq_nil_iff, List.map_eq_nil_iff]
    rintro ⟨-, rfl⟩
    exact said rfl

/-- What passes the gate has been scanned and read without a problem. -/
theorem Session.gate_ok {α : Type} {source : List UInt8} {reading : Reading α} {tree : α}
    (h : gate source reading = .ok tree) :
    reading.result = .ok tree ∧ lexicalDiagnostics source = [] := by
  unfold gate at h
  split at h
  · next hresult hfaults =>
    cases h
    exact ⟨hresult, hfaults⟩
  · cases h
  · cases h

/-! ## Running -/

/-- A run from a machine, and what it leaves. -/
def Ran {α β : Type} (run : Run α) (m : Machine) (f : α → β) (o : Outcome β) : Prop :=
  match run m with
  | .ok a m' => o.result = .ok (f a) ∧ o.session.machine = m'
  | .error stop m' => o.result = .error [.stopped stop] ∧ o.session.machine = m'

/-- A machine that also has the bindings of a further tree. -/
def Machine.binding (m : Machine) (added : Bindings) : Machine :=
  { m with bindings := m.bindings.merge added }

/-- A job is done by running its tree, if it has one, from the machine of the session. -/
inductive Executed (budget : Nat) (s : Session) : Job → Outcome (Option Value) → Prop
  | nothing : Executed budget s .nothing ⟨.ok none, s⟩
  | program {source : List UInt8} {tree : List Stmt} {added : Bindings}
      {o : Outcome (Option Value)}
      (read : (readProgram (tokensOf source) s.nextId).result = .ok tree)
      (resolved : Scoping.resolve tree = .ok added)
      (ran : Ran (interpret budget tree) (s.machine.binding added) (fun _ => none) o) :
      Executed budget s (.program source) o
  | expression {source : List UInt8} {e : Expr} {added : Bindings} {o : Outcome (Option Value)}
      (read : (readExpression (tokensOf source) s.nextId).result = .ok e)
      (resolved : Scoping.resolve [.expression e] = .ok added)
      (ran : Ran (evaluate budget e) (s.machine.binding added) some o) :
      Executed budget s (.expression source) o

namespace Session

variable {α β γ : Type}

/-- A resolver that has been used finds what a new one finds. -/
theorem resolveWith_eq (used : Scoping.Analysis) (program : List Stmt) :
    (Scoping.resolveWith used program).1 = Scoping.resolve program :=
  rfl

theorem exists_resolveWith (used : Scoping.Analysis) (program : List Stmt) :
    ∃ resolver, Scoping.resolveWith used program = (Scoping.resolve program, resolver) :=
  ⟨_, Prod.ext (resolveWith_eq used program) rfl⟩

theorem ran_perform (s : Session) (added : Bindings) (run : Run α) (f : α → β) :
    Ran run (s.machine.binding added) f ((s.perform added run).map f) := by
  obtain ⟨machine, nextId, resolver⟩ := s
  unfold Ran perform Machine.binding
  cases hrun : run { machine with bindings := machine.bindings.merge added } with
  | ok a m =>
    simp only [hrun]
    exact ⟨rfl, rfl⟩
  | error stop m =>
    simp only [hrun]
    exact ⟨rfl, rfl⟩

/-- A misuse of a name is reported. -/
theorem resolve_ne_nil (program : List Stmt) : Scoping.resolve program ≠ .error [] := by
  unfold Scoping.resolve Scoping.resolveWith
  simp only
  split
  · simp
  · next hproblems => simpa using hproblems

/-- A source without static errors has no faults, and a tree with bindings. -/
theorem exists_of_staticErrors {source : List UInt8} {reading : Reading α}
    (said : reading.result ≠ .error []) {program : α → List Stmt}
    (h : staticErrors source reading program = []) :
    ∃ tree added, lexicalDiagnostics source = [] ∧ reading.result = .ok tree ∧
      Scoping.resolve (program tree) = .ok added := by
  have hnone : lexicalDiagnostics source ++ reading.diagnostics = [] := by
    refine Decidable.byContradiction fun hsome => hsome ?_
    rwa [← staticErrors_of_ne_nil hsome program]
  obtain ⟨hfaults, hreading⟩ := List.append_eq_nil_iff.mp hnone
  cases hresult : reading.result with
  | error problems =>
    unfold Reading.diagnostics at hreading
    rw [hresult] at hreading said
    exact absurd (congrArg Except.error (List.map_eq_nil_iff.mp hreading)) said
  | ok tree =>
    rw [staticErrors_of_tree hresult hfaults] at h
    cases hresolved : Scoping.resolve (program tree) with
    | ok added => exact ⟨tree, added, hfaults, rfl, hresolved⟩
    | error problems =>
      rw [hresolved] at h
      exact absurd (hresolved.trans (congrArg Except.error (List.map_eq_nil_iff.mp h)))
        (resolve_ne_nil _)

/-- What has a tree with bindings is run. -/
theorem proceed_eq_perform (s : Session) {source : List UInt8} {reading : Reading α} {tree : α}
    {program : α → List Stmt} {added : Bindings} (run : α → Run β)
    (faults : lexicalDiagnostics source = []) (read : reading.result = .ok tree)
    (resolved : Scoping.resolve (program tree) = .ok added) :
    s.proceed (gate source reading) program run =
      perform { s with resolver := (Scoping.resolveWith s.resolver (program tree)).2 } added
        (run tree) := by
  have hgate : gate source reading = .ok tree := by
    unfold gate
    rw [read, faults]
  rw [← resolveWith_eq s.resolver] at resolved
  unfold proceed
  simp only [hgate]
  rcases hwalk : Scoping.resolveWith s.resolver (program tree) with ⟨result, resolver⟩
  rw [hwalk] at resolved
  obtain rfl : result = .ok added := resolved
  rfl

/-- A source with static errors is not run, and its machine is left as it is. A source without
is run. -/
theorem proceed_gated (s : Session) (source : List UInt8) {reading : Reading α}
    (said : reading.result ≠ .error []) (program : α → List Stmt) (run : α → Run β) (f : β → γ) :
    let o := (s.proceed (gate source reading) program run).map f
    (staticErrors source reading program ≠ [] ∧
        o.result = .error (staticErrors source reading program) ∧
        o.session.machine = s.machine) ∨
      (staticErrors source reading program = [] ∧
        ∃ tree added, reading.result = .ok tree ∧ Scoping.resolve (program tree) = .ok added ∧
          Ran (run tree) (s.machine.binding added) f o) := by
  intro o
  cases hgate : gate source reading with
  | error diagnostics =>
    obtain ⟨rfl, hsome⟩ := gate_error said hgate
    have ho : o = ⟨.error (lexicalDiagnostics source ++ reading.diagnostics), s⟩ := by
      unfold o proceed
      rw [hgate]
      rfl
    rw [staticErrors_of_ne_nil hsome, ho]
    exact .inl ⟨hsome, rfl, rfl⟩
  | ok tree =>
    obtain ⟨hread, hfaults⟩ := gate_ok hgate
    rw [staticErrors_of_tree hread hfaults]
    obtain ⟨resolver, hresolver⟩ := exists_resolveWith s.resolver (program tree)
    -- What the resolver finds leaves the machine as it is: only a tree without a problem is run.
    cases hresult : Scoping.resolve (program tree) with
    | error problems =>
      have ho : o = ⟨.error (problems.map .scoping), { s with resolver := resolver }⟩ := by
        unfold o proceed
        simp only [hgate, hresolver, hresult]
        rfl
      have hsome : problems ≠ [] := by
        rintro rfl
        exact resolve_ne_nil _ hresult
      refine .inl ⟨by simpa using hsome, ?_, ?_⟩
      · rw [ho]
      · rw [ho]
    | ok added =>
      have ho : o = (perform { s with resolver := resolver } added (run tree)).map f := by
        unfold o proceed
        simp only [hgate, hresolver, hresult]
      refine .inr ⟨rfl, tree, added, hread, hresult, ?_⟩
      rw [ho]
      exact ran_perform { s with resolver := resolver } added (run tree) f

/-- An input with static errors leaves the machine as it is, and one without is run. -/
theorem take_gated (budget : Nat) (s : Session) (input : Input) :
    let errors := input.job.errors s.nextId
    let o := s.take budget input
    (errors ≠ [] ∧ o.result = .error errors ∧ o.session.machine = s.machine) ∨
      (errors = [] ∧ Executed budget s input.job o) := by
  intro errors o
  have ho : o = _ := take_eq budget s input
  rw [ho]
  unfold errors
  -- References are numbered by any job, so that what goes on is a session with the next number.
  cases input.job with
  | nothing => exact .inr ⟨rfl, .nothing⟩
  | program source =>
    have hgated := proceed_gated { s with nextId := (readProgram (tokensOf source) s.nextId).nextId }
      source (Grammar.read_ne_nil Grammar.program (tokensOf source) s.nextId) id (interpret budget)
      fun _ => (none : Option Value)
    refine hgated.imp_right ?_
    rintro ⟨hclean, tree, added, hread, hresolved, hran⟩
    exact ⟨hclean, .program hread hresolved hran⟩
  | expression source =>
    have hgated := proceed_gated
      { s with nextId := (readExpression (tokensOf source) s.nextId).nextId } source
      (Grammar.read_ne_nil Grammar.wholeExpression (tokensOf source) s.nextId)
      (fun e => [.expression e]) (LoxLang.evaluate budget) some
    refine hgated.imp_right ?_
    rintro ⟨hclean, e, added, hread, hresolved, hran⟩
    exact ⟨hclean, .expression hread hresolved hran⟩

end Session

/-! ## Verdicts -/

/-- What can become of an input. An unfinished one has used up its budget, which says nothing
about the input. -/
inductive Verdict
  | rejected
  | completed
  | failed
  | unfinished

/-- An input with static errors. They are all that is answered, they make it a bad source, and
the machine is as it was before. -/
structure Rejected (s : Session) (input : Input) (o : Outcome (Option Value)) : Prop where
  erroneous : input.job.errors s.nextId ≠ []
  result : o.result = .error (input.job.errors s.nextId)
  static : ∀ d ∈ input.job.errors s.nextId, d.report.isStatic = true
  code : (ExitCode.ofReports ((input.job.errors s.nextId).map Diagnostic.report)).code = 65
  machine : o.session.machine = s.machine

/-- An input without static errors, which is run. -/
structure Accepted (budget : Nat) (s : Session) (input : Input) (o : Outcome (Option Value)) :
    Prop where
  clean : input.job.errors s.nextId = []
  executed : Executed budget s input.job o

/-- The exit code of a run that ends with nothing but this. -/
def Stop.exitCode (stop : Stop) : Nat :=
  (ExitCode.ofReports [stop.report]).code

/-- A failure of the program, or of its output. -/
inductive Stop.Fails : Stop → Prop
  | failed {line : Nat} {cause : FailureCause} (code : (Stop.failed line cause).exitCode = 70) :
      Fails (.failed line cause)
  | closed {message : String} (code : (Stop.closed message).exitCode = 66) :
      Fails (.closed message)

/-- What a verdict says. -/
def Verdict.Holds (budget : Nat) (s : Session) (input : Input) (o : Outcome (Option Value)) :
    Verdict → Prop
  | rejected => Rejected s input o
  | completed => Accepted budget s input o ∧ ∃ v, o.result = .ok v
  | failed => Accepted budget s input o ∧ ∃ stop, o.result = .error [.stopped stop] ∧ stop.Fails
  | unfinished => Accepted budget s input o ∧ o.result = .error [.stopped .exhausted]

section

variable {budget : Nat} {s : Session} {input : Input} {o : Outcome (Option Value)}

theorem Stop.fails_or_exhausted (stop : Stop) : stop.Fails ∨ stop = .exhausted := by
  cases stop with
  | failed line cause => exact .inl (.failed rfl)
  | closed message => exact .inl (.closed rfl)
  | exhausted => exact .inr rfl

/-- What is run ends with one result. -/
theorem Executed.result {job : Job} (h : Executed budget s job o) :
    (∃ v, o.result = .ok v) ∨ ∃ stop, o.result = .error [.stopped stop] := by
  have hran : ∀ {α : Type} {run : Run α} {m : Machine} {f : α → Option Value},
      Ran run m f o → (∃ v, o.result = .ok v) ∨ ∃ stop, o.result = .error [.stopped stop] := by
    intro α run m f ran
    unfold Ran at ran
    split at ran
    · exact .inl ⟨_, ran.1⟩
    · exact .inr ⟨_, ran.1⟩
  cases h with
  | nothing => exact .inl ⟨_, rfl⟩
  | program read resolved ran => exact hran ran
  | expression read resolved ran => exact hran ran

/-- The verdict on an input that is run, by its result. -/
def Verdict.ofResult : Except (List Diagnostic) (Option Value) → Verdict
  | .ok _ => completed
  | .error [.stopped .exhausted] => unfinished
  | .error _ => failed

theorem Verdict.Holds.eq_ofResult {v : Verdict} (h : v.Holds budget s input o)
    (ran : v ≠ .rejected) : v = .ofResult o.result := by
  cases v with
  | rejected => exact absurd rfl ran
  | completed =>
    obtain ⟨-, value, hvalue⟩ := h
    rw [hvalue]
    rfl
  | failed =>
    obtain ⟨-, stop, hstop, hfails⟩ := h
    rw [hstop]
    cases hfails <;> rfl
  | unfinished =>
    rw [h.2]
    rfl

/-- Of a result and whether there are static errors, one verdict can hold. -/
theorem Verdict.Holds.unique {v v' : Verdict} (h : v.Holds budget s input o)
    (h' : v'.Holds budget s input o) : v = v' := by
  have hrejected : ∀ {w : Verdict}, Rejected s input o → w.Holds budget s input o →
      w = .rejected := by
    intro w rejected hw
    cases w with
    | rejected => rfl
    | completed => exact absurd hw.1.clean rejected.erroneous
    | failed => exact absurd hw.1.clean rejected.erroneous
    | unfinished => exact absurd hw.1.clean rejected.erroneous
  by_cases hv : v = .rejected
  · subst hv
    exact (hrejected h h').symm
  · by_cases hv' : v' = .rejected
    · subst hv'
      exact hrejected h' h
    · rw [h.eq_ofResult hv, h'.eq_ofResult hv']

end

/-- Exactly one verdict holds of an input, whatever has happened in the session before; and a
program that is resolved afterwards is resolved as by a new resolver. -/
theorem exactly_one_verdict (host : Host) (sink : Sink) (events : List Event) (budget : Nat)
    (input : Input) :
    let s := (Session.start host sink).through events
    let o := s.take budget input
    (∃ v : Verdict, v.Holds budget s input o ∧
        ∀ v' : Verdict, v'.Holds budget s input o → v' = v) ∧
      ∀ program, (Scoping.resolveWith o.session.resolver program).1 =
        (Scoping.resolveWith Scoping.Analysis.start program).1 := by
  intro s o
  refine ⟨?_, fun program => Session.resolveWith_eq o.session.resolver program⟩
  have hsome : ∃ v : Verdict, v.Holds budget s input o := by
    rcases Session.take_gated budget s input with ⟨herrors, hresult, hmachine⟩ | ⟨hclean, hrun⟩
    · have hstatic : ∀ d ∈ input.job.errors s.nextId, d.report.isStatic = true :=
        input.job.isStatic_of_mem_errors s.nextId
      have hcode := exitCode_of_static herrors hstatic
      exact ⟨.rejected, herrors, hresult, hstatic, by rw [hcode]; rfl, hmachine⟩
    · have haccepted : Accepted budget s input o := ⟨hclean, hrun⟩
      rcases hrun.result with hvalue | ⟨stop, hstop⟩
      · exact ⟨.completed, haccepted, hvalue⟩
      · rcases stop.fails_or_exhausted with hfails | rfl
        · exact ⟨.failed, haccepted, stop, hstop, hfails⟩
        · exact ⟨.unfinished, haccepted, hstop⟩
  obtain ⟨v, hv⟩ := hsome
  exact ⟨v, hv, fun v' hv' => hv'.unique hv⟩

end LoxLang
