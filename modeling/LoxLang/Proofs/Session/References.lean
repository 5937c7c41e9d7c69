import LoxLang.Proofs.Evaluation.Discipline
import LoxLang.Proofs.Scoping.Occurrences
import LoxLang.Proofs.Session.GlobalScope
import LoxLang.Proofs.Session.Invariant

/-!
# References of all trees

References are counted through all that is read, whoever reads it (`Turn`). So no two occurrences
in trees that have been read have the same one, a table that is merged into the one of a session
changes none of its entries, and for the occurrences of a tree that has been run the bindings are at
all later moments the ones that the tree was resolved to (`references_do_not_interfere`).
-/

namespace LoxLang

/-! ## What is read -/

/-- The references of the occurrences in a tree. -/
abbrev referencesIn (tree : List Stmt) : List RefId :=
  idsOf (occurrencesInBody tree)

/-- The tree that is read for a job, if one is, as the statements of a program. -/
def Job.tree? (nextId : RefId) : Job → Option (List Stmt)
  | nothing => none
  | program source => (readProgram (tokensOf source) nextId).result.toOption
  | expression source =>
    (readExpression (tokensOf source) nextId).result.toOption.map fun e => [.expression e]

/-- The next free reference behind what is read for a job, also if that has problems. -/
def Job.nextId (nextId : RefId) : Job → RefId
  | nothing => nextId
  | program source => (readProgram (tokensOf source) nextId).nextId
  | expression source => (readExpression (tokensOf source) nextId).nextId

/-- What happens where references are counted: an event of a session, or something that is read
elsewhere. -/
inductive Turn
  | event (event : Event)
  | elsewhere (job : Job)

/-- What is read. -/
def Turn.job : Turn → Job
  | event (.input _ input) => input.job
  | event (.output _) => .nothing
  | elsewhere job => job

namespace Session

/-- The session behind a turn. -/
def turn (s : Session) : Turn → Session
  | .event event => s.after event
  | .elsewhere job => { s with nextId := job.nextId s.nextId }

/-- The session behind turns, one after the other. -/
def turns (s : Session) : List Turn → Session
  | [] => s
  | turn :: rest => (s.turn turn).turns rest

/-- The trees that are read in turns, one after the other. -/
def trees (s : Session) : List Turn → List (List Stmt)
  | [] => []
  | turn :: rest => (turn.job.tree? s.nextId).toList ++ (s.turn turn).trees rest

theorem turns_append (s : Session) (turns later : List Turn) :
    s.turns (turns ++ later) = (s.turns turns).turns later := by
  induction turns generalizing s with
  | nil => rfl
  | cons turn rest ih => exact ih (s.turn turn)

end Session

namespace Account

/-- The account behind a turn. -/
def turn (a : Account) : Turn → Account
  | .event event => a.after event
  | .elsewhere job => { a with session.nextId := job.nextId a.session.nextId }

/-- The account behind turns, one after the other. -/
def turns (a : Account) : List Turn → Account
  | [] => a
  | turn :: rest => (a.turn turn).turns rest

theorem turns_append (a : Account) (turns later : List Turn) :
    a.turns (turns ++ later) = (a.turns turns).turns later := by
  induction turns generalizing a with
  | nil => rfl
  | cons turn rest ih => exact ih (a.turn turn)

theorem session_turn (a : Account) (turn : Turn) : (a.turn turn).session = a.session.turn turn := by
  cases turn with
  | event event => exact session_through a [event]
  | elsewhere job => rfl

theorem session_turns (a : Account) (turns : List Turn) :
    (a.turns turns).session = a.session.turns turns := by
  induction turns generalizing a with
  | nil => rfl
  | cons turn rest ih =>
    unfold turns Session.turns
    rw [ih, session_turn]

end Account

/-! ## References are counted through -/

theorem eq_ok_of_toOption {ε α : Type} {r : Except ε α} {a : α} (h : r.toOption = some a) :
    r = .ok a := by
  cases r with
  | ok b => exact congrArg Except.ok (Option.some.inj h)
  | error e => cases h

theorem Job.tree?_program {source : List UInt8} {nextId : RefId} {tree : List Stmt}
    (read : (readProgram (tokensOf source) nextId).result = .ok tree) :
    (program source).tree? nextId = some tree :=
  congrArg Except.toOption read

theorem Job.tree?_expression {source : List UInt8} {nextId : RefId} {e : Expr}
    (read : (readExpression (tokensOf source) nextId).result = .ok e) :
    (expression source).tree? nextId = some [.expression e] :=
  congrArg (fun r => r.toOption.map fun e => [Stmt.expression e]) read

/-- What is read for a job takes references from the next free one on. -/
theorem Job.good (job : Job) (nextId : RefId) :
    nextId ≤ job.nextId nextId ∧ ∀ tree, job.tree? nextId = some tree →
      Grammar.GoodBody False nextId (job.nextId nextId) tree := by
  cases job with
  | nothing => exact ⟨Nat.le_refl _, nofun⟩
  | program source =>
    obtain ⟨hle, good⟩ := readProgram_good (plainToken_tokensOf source) nextId
    exact ⟨hle, fun tree htree => good tree (eq_ok_of_toOption htree)⟩
  | expression source =>
    obtain ⟨hle, -⟩ := readExpression_good (plainToken_tokensOf source) nextId
    refine ⟨hle, fun tree htree => ?_⟩
    obtain ⟨e, he, rfl⟩ := Option.map_eq_some_iff.mp htree
    exact Account.readExpression_goodBody source nextId (eq_ok_of_toOption he)

namespace Session

variable {α β : Type} {s : Session}

theorem nextId_proceed (s : Session) (tree : Except (List Diagnostic) α) (program : α → List Stmt)
    (run : α → Run β) : (s.proceed tree program run).session.nextId = s.nextId := by
  unfold proceed
  split
  · rfl
  · split
    · rfl
    · unfold perform
      dsimp only
      split <;> rfl

/-- References are counted through by what is read, whether it is run or not. -/
theorem nextId_turn (s : Session) (turn : Turn) :
    (s.turn turn).nextId = turn.job.nextId s.nextId := by
  match turn with
  | .elsewhere job => rfl
  | .event (.output sink) => rfl
  | .event (.input budget input) =>
    show (s.take budget input).session.nextId = input.job.nextId s.nextId
    rw [take_eq]
    cases input.job with
    | nothing => rfl
    | program source => exact nextId_proceed { s with nextId := _ } _ id _
    | expression source => exact nextId_proceed { s with nextId := _ } _ _ _

/-- The occurrences in all trees have references of their own. -/
theorem spans_trees (s : Session) (turns : List Turn) :
    Grammar.Spans s.nextId (s.turns turns).nextId ((s.trees turns).flatMap referencesIn) := by
  induction turns generalizing s with
  | nil => exact .nil (Nat.le_refl _)
  | cons turn rest ih =>
    obtain ⟨hle, good⟩ := turn.job.good s.nextId
    have hrest := ih (s.turn turn)
    rw [nextId_turn] at hrest
    unfold trees
    rw [List.flatMap_append]
    -- References are used up by a text with problems as well: they only leave a gap.
    cases htree : turn.job.tree? s.nextId with
    | none => exact hrest.widen hle (Nat.le_refl _)
    | some tree =>
      have hfirst : Grammar.Spans s.nextId (turn.job.nextId s.nextId)
          ((some tree).toList.flatMap referencesIn) := by
        simpa using (good tree htree).2
      exact hfirst.append hrest (Nat.le_refl _)

/-! ## Bindings of a session -/

theorem bindings_of_ran {run : Run α} {m : Machine} {f : α → β} {o : Outcome β} (h : Tidy run)
    (ran : Ran run m f o) : o.session.machine.bindings = m.bindings := by
  unfold Ran at ran
  cases hrun : run m with
  | ok a m' =>
    rw [hrun] at ran
    rw [ran.2]
    exact ((h m).of_ok hrun).bindings
  | error stop m' =>
    rw [hrun] at ran
    rw [ran.2]
    exact ((h m).of_error hrun).bindings

/-- In a turn the bindings of a tree that is read are merged, or none. -/
theorem bindings_turn (s : Session) (turn : Turn) :
    (s.turn turn).machine.bindings = s.machine.bindings ∨
      ∃ tree own, turn.job.tree? s.nextId = some tree ∧ Scoping.resolve tree = .ok own ∧
        (s.turn turn).machine.bindings = s.machine.bindings.merge own := by
  match turn with
  | .elsewhere job => exact .inl rfl
  | .event (.output sink) => exact .inl rfl
  | .event (.input budget input) =>
    show (s.take budget input).session.machine.bindings = _ ∨ ∃ tree own,
      input.job.tree? s.nextId = some tree ∧ Scoping.resolve tree = .ok own ∧
        (s.take budget input).session.machine.bindings = _
    rcases take_gated budget s input with ⟨-, -, hmachine⟩ | ⟨-, hrun⟩
    · rw [hmachine]
      exact .inl rfl
    -- A run binds nothing: all that is merged is the table of its tree, before it starts.
    · generalize s.take budget input = o at hrun
      generalize input.job = job at hrun
      cases hrun with
      | nothing => exact .inl rfl
      | @program source tree own _ read resolved ran =>
        have hbindings := bindings_of_ran (tidy_interpret budget tree) ran
        exact .inr ⟨tree, own, Job.tree?_program read, resolved, hbindings⟩
      | @expression source e own _ read resolved ran =>
        have hbindings := bindings_of_ran ((tidyAt budget).evaluate e) ran
        exact .inr ⟨[.expression e], own, Job.tree?_expression read, resolved, hbindings⟩

end Session

/-- Bindings of occurrences that are numbered behind those that are bound already. -/
theorem Bindings.getElem?_merge_above {table own : Bindings} {next next' : RefId}
    {tree : List Stmt} (below : table.Below next) (good : Grammar.GoodBody False next next' tree)
    (resolved : Scoping.resolve tree = .ok own) {id : RefId} {b : Binding}
    (h : table[id]? = some b) : (table.merge own)[id]? = some b := by
  have hmissing : own[id]? = Option.none := by
    refine (Scoping.bindings_of_resolve good.1.1 good.2.nodup resolved).1 id fun hid => ?_
    rw [below id (good.2.inside id hid).1] at h
    cases h
  rw [getElem?_merge, hmissing, Option.none_or, h]

/-! ## Accepted trees -/

namespace Account

variable {α β : Type} {a : Account}

/-- Nothing is run of what is watched. -/
def Unrun (a : Account) (w : Watched α) : Prop :=
  w.steps = [] ∧ w.account.session.machine = a.session.machine ∧ w.account.accepted = a.accepted

/-- The tree that is read for a job can be resolved, and is accepted. -/
def Accepts (a : Account) (job : Job) (later : Account) : Prop :=
  ∃ tree own, job.tree? a.session.nextId = some tree ∧ Scoping.resolve tree = .ok own ∧
    later.accepted = tree :: a.accepted

theorem unrun_or_accepted (a : Account) (source : List UInt8) (reading : Reading α)
    (program : α → List Stmt) (watch : α → Watch β) :
    let w := a.proceed (Session.gate source reading) program watch
    a.Unrun w ∨ ∃ tree own, reading.result = .ok tree ∧ Scoping.resolve (program tree) = .ok own ∧
      w.account.accepted = program tree :: a.accepted := by
  unfold proceed
  cases hgate : Session.gate source reading with
  | error diagnostics => exact .inl ⟨rfl, rfl, rfl⟩
  | ok tree =>
    obtain ⟨resolver, hresolver⟩ := Session.exists_resolveWith a.session.resolver (program tree)
    cases hresolved : Scoping.resolve (program tree) with
    | error problems =>
      simp only [hresolver, hresolved]
      exact .inl ⟨rfl, rfl, rfl⟩
    | ok own =>
      refine .inr ⟨tree, own, (Session.gate_ok hgate).1, hresolved, ?_⟩
      simp only [hresolver, hresolved, perform]
      split <;> rfl

/-- An input is not run, or its tree is accepted. -/
theorem unrun_or_accepts (budget : Nat) (a : Account) (input : Input) :
    a.Unrun (a.take budget input) ∨ a.Accepts input.job (a.take budget input).account := by
  unfold take
  cases input.job with
  | nothing => exact .inl ⟨rfl, rfl, rfl⟩
  | program source =>
    rcases unrun_or_accepted { a with session.nextId := _ } source _ id
      (Watch.interpret budget) with unrun | ⟨tree, own, read, resolved, accepted⟩
    · exact .inl unrun
    · exact .inr ⟨tree, own, Job.tree?_program read, resolved, accepted⟩
  | expression source =>
    rcases unrun_or_accepted { a with session.nextId := _ } source _ (fun e => [.expression e])
      (Watch.evaluate budget) with unrun | ⟨e, own, read, resolved, accepted⟩
    · exact .inl unrun
    · exact .inr ⟨[.expression e], own, Job.tree?_expression read, resolved, accepted⟩

/-- In a turn a tree that is read is accepted, or none. -/
theorem accepted_turn (a : Account) (turn : Turn) :
    (a.turn turn).accepted = a.accepted ∨ a.Accepts turn.job (a.turn turn) := by
  match turn with
  | .elsewhere job => exact .inl rfl
  | .event (.output sink) => exact .inl rfl
  | .event (.input budget input) =>
    exact (unrun_or_accepts budget a input).imp_left fun unrun => unrun.2.2

/-- No tree is given up. -/
theorem accepted_subset_turns (a : Account) (turns : List Turn) :
    a.accepted ⊆ (a.turns turns).accepted := by
  induction turns generalizing a with
  | nil => exact List.Subset.refl _
  | cons turn rest ih =>
    refine List.Subset.trans ?_ (ih (a.turn turn))
    rcases accepted_turn a turn with hsame | ⟨tree, own, -, -, haccepted⟩
    · rw [hsame]
      exact List.Subset.refl _
    · rw [haccepted]
      exact List.subset_cons_self _ _

/-- Only what has been read is run. -/
theorem mem_trees_of_accepted (a : Account) (turns : List Turn) {program : List Stmt}
    (h : program ∈ (a.turns turns).accepted) :
    program ∈ a.accepted ∨ program ∈ a.session.trees turns := by
  induction turns generalizing a with
  | nil => exact .inl h
  | cons turn rest ih =>
    unfold Session.trees
    rw [List.mem_append, ← session_turn]
    rcases ih (a.turn turn) h with hthen | hlater
    · rcases accepted_turn a turn with hsame | ⟨tree, own, htree, -, haccepted⟩
      · rw [hsame] at hthen
        exact .inl hthen
      · rw [haccepted, List.mem_cons] at hthen
        rcases hthen with rfl | hbefore
        · exact .inr (.inl (by simp [htree]))
        · exact .inl hbefore
    · exact .inr (.inr hlater)

/-- The trees that have been accepted are formed as texts form them, and can be resolved. -/
def Resolved (a : Account) : Prop :=
  ∀ program ∈ a.accepted, FormedBody program ∧ (referencesIn program).Nodup ∧
    ∃ own, Scoping.resolve program = .ok own

theorem Resolved.turn (h : a.Resolved) (turn : Turn) : (a.turn turn).Resolved := by
  intro program hprogram
  rcases accepted_turn a turn with hsame | ⟨tree, own, htree, hresolved, haccepted⟩
  · exact h program (hsame ▸ hprogram)
  · rw [haccepted, List.mem_cons] at hprogram
    rcases hprogram with rfl | hbefore
    · have good := (turn.job.good a.session.nextId).2 program htree
      exact ⟨good.1.1, good.2.nodup, own, hresolved⟩
    · exact h program hbefore

theorem Sound.turn (h : a.Sound) (turn : Turn) : (a.turn turn).Sound := by
  cases turn with
  | event event => exact h.after event
  | elsewhere job => exact h.further (job.good a.session.nextId).1 a.session.resolver

theorem Sound.turns (h : a.Sound) (turns : List Turn) : (a.turns turns).Sound := by
  induction turns generalizing a with
  | nil => exact h
  | cons turn rest ih => exact ih (h.turn turn)

theorem Resolved.turns (h : a.Resolved) (turns : List Turn) : (a.turns turns).Resolved := by
  induction turns generalizing a with
  | nil => exact h
  | cons turn rest ih => exact ih (h.turn turn)

/-- Where the bindings are those that the text says, an accepted tree has its own. -/
theorem Resolved.restrictsTo (h : a.Resolved) {table : Bindings} (agrees : table.Agrees a.Known)
    {program : List Stmt} (hprogram : program ∈ a.accepted) : table.RestrictsTo program := by
  obtain ⟨formed, nodup, own, resolved⟩ := h program hprogram
  exact agrees.restrictsTo (fun x hx => ⟨program, hprogram, hx⟩) formed nodup resolved

/-- Bindings of a session are kept, whatever happens. -/
theorem Sound.bindings_turns (h : a.Sound) (later : List Turn) {id : RefId} {b : Binding}
    (hb : a.session.machine.bindings[id]? = some b) :
    (a.session.turns later).machine.bindings[id]? = some b := by
  induction later generalizing a with
  | nil => exact hb
  | cons turn rest ih =>
    unfold Session.turns
    rw [← session_turn]
    refine ih (h.turn turn) ?_
    rw [session_turn]
    rcases Session.bindings_turn a.session turn with hsame | ⟨tree, own, read, resolved, merged⟩
    · rw [hsame]
      exact hb
    · rw [merged]
      exact Bindings.getElem?_merge_above h.bound ((turn.job.good _).2 tree read) resolved hb

end Account

/-! ## No tree disturbs another -/

/-- References and bindings behind any turns, from the start of a session on. -/
structure CountedThrough (host : Host) (sink : Sink) (turns : List Turn) : Prop where
  /-- No two occurrences in all trees that have been read have the same reference. -/
  distinct : (((Session.start host sink).trees turns).flatMap referencesIn).Nodup
  /-- The account goes with the session. -/
  session : ((Account.start host sink).turns turns).session = (Session.start host sink).turns turns
  /-- The trees that have been accepted are among those that have been read, and none is given
  up. -/
  read : ((Account.start host sink).turns turns).accepted ⊆ (Session.start host sink).trees turns
  grows : ∀ later, ((Account.start host sink).turns turns).accepted ⊆
    ((Account.start host sink).turns (turns ++ later)).accepted
  /-- When the table of the tree that is read next is merged, no entry is changed. -/
  merged : ∀ (job : Job) (tree : List Stmt) (own : Bindings),
    job.tree? ((Session.start host sink).turns turns).nextId = some tree →
    Scoping.resolve tree = .ok own → ∀ (id : RefId) (b : Binding),
      ((Session.start host sink).turns turns).machine.bindings[id]? = some b →
      (((Session.start host sink).turns turns).machine.bindings.merge own)[id]? = some b
  /-- Nor is it by whatever happens later. -/
  kept : ∀ (later : List Turn) (id : RefId) (b : Binding),
    ((Session.start host sink).turns turns).machine.bindings[id]? = some b →
    ((Session.start host sink).turns (turns ++ later)).machine.bindings[id]? = some b
  /-- For the occurrences of a tree that has been accepted, the bindings are those that it is
  resolved to. -/
  own : ∀ program ∈ ((Account.start host sink).turns turns).accepted,
    ((Session.start host sink).turns turns).machine.bindings.RestrictsTo program
  /-- The next input is not run, or its own tree is accepted; and the bindings are those of each
  accepted tree at all steps of the run. -/
  during : ∀ (budget : Nat) (input : Input),
    let a := (Account.start host sink).turns turns
    let w := a.take budget input
    w.outcome = ((Session.start host sink).turns turns).take budget input ∧
      (a.Unrun w ∨ a.Accepts input.job w.account) ∧
      ∀ program ∈ w.account.accepted, ∀ step ∈ w.steps,
        step.scene.machine.bindings.RestrictsTo program

/-- Whatever is read and run, here and elsewhere, no tree changes what the occurrences in another
one are bound to. -/
theorem references_do_not_interfere (host : Host) (sink : Sink) (turns : List Turn) :
    CountedThrough host sink turns := by
  have hsession : ((Account.start host sink).turns turns).session =
      (Session.start host sink).turns turns :=
    Account.session_turns (Account.start host sink) turns
  have sound : ((Account.start host sink).turns turns).Sound :=
    (Account.sound_start host sink).turns turns
  have formed : (Account.start host sink).Resolved := nofun
  exact
    { distinct := (Session.spans_trees (Session.start host sink) turns).nodup
      session := hsession
      read := fun program hprogram =>
        (Account.mem_trees_of_accepted (Account.start host sink) turns hprogram).resolve_left nofun
      grows := fun later => by
        rw [Account.turns_append]
        exact Account.accepted_subset_turns _ later
      merged := fun job tree own read resolved id b hb => by
        rw [← hsession] at read hb ⊢
        exact Bindings.getElem?_merge_above sound.bound ((job.good _).2 tree read) resolved hb
      kept := fun later id b hb => by
        rw [Session.turns_append]
        rw [← hsession] at hb ⊢
        exact sound.bindings_turns later hb
      own := fun program hprogram => by
        rw [← hsession]
        exact (formed.turns turns).restrictsTo sound.scene.agreed hprogram
      during := fun budget input => by
        refine ⟨?_, Account.unrun_or_accepts budget _ input, fun program hprogram step hstep => ?_⟩
        · rw [← hsession]
          exact Account.outcome_take budget _ input
        -- The tree that is run is one of those that are known to the steps of its own run.
        · obtain ⟨-, -, -, -, scene⟩ := (sound.take budget input).steps step hstep
          have further := (formed.turns turns).turn (.event (.input budget input))
          exact further.restrictsTo scene.agreed hprogram }

end LoxLang
