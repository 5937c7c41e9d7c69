import LoxLang.Proofs.Evaluation.ForLoops
import LoxLang.Proofs.Scoping.LoopScopes
import LoxLang.Proofs.Session.Invariant

/-!
# `for` loops

A `for` loop is read as blocks around another loop, and yet it runs as it is written
(`for_runs_directly`): it is read from its clauses, which are those of the text; resolution finds in
them and in the body what it would if the scope of the first clause were the only one around; its
execution is that of the first clause and then of one round after the other; and all rounds have one
variable, that of the first clause.
-/

namespace LoxLang

/-! ## From sources -/

/-- The statements that a source is read as, be it a program or an expression. -/
inductive ReadAs (source : List UInt8) (nextId : RefId) : List Stmt → Prop
  | program {tree : List Stmt} (h : (readProgram (tokensOf source) nextId).result = .ok tree) :
      ReadAs source nextId tree
  | expression {e : Expr} (h : (readExpression (tokensOf source) nextId).result = .ok e) :
      ReadAs source nextId [.expression e]

section

variable {source : List UInt8} {nextId : RefId} {program : List Stmt}

theorem ReadAs.formed (h : ReadAs source nextId program) :
    FormedBody program ∧ (idsOf (occurrencesInBody program)).Nodup := by
  cases h with
  | program h =>
    obtain ⟨-, good⟩ := readProgram_good (plainToken_tokensOf source) nextId
    exact ⟨(good program h).1.1, (good program h).2.nodup⟩
  | expression h =>
    have good := Account.readExpression_goodBody source nextId h
    exact ⟨good.1.1, good.2.nodup⟩

end

/-! ## From within a round -/

section

variable {f : ForLoop} {m m' : Machine} {scope frame : FrameId} {n : Nat}

/-- At any time after a round has begun, a frame that lies a number of steps within the round leads
outward to the frames of these steps and then to the one of the loop, which all rounds have in
common. -/
theorem ForLoop.outward?_through (here : m.current = some scope) (later : (f.opened m).Onward m')
    (within : m'.frames.outward? frame n = (f.opened m).current) (b : Binding) :
    m'.frames.outward? frame (f.through n b).depth =
      if b.depth < n then m'.frames.outward? frame b.depth
      else m'.frames.outward? scope (b.depth - n) := by
  -- Only a loop with an increment has a frame of its own, between its scope and its parts.
  unfold ForLoop.through
  cases hincrement : f.increment with
  | none =>
    rw [ForLoop.opened_of_none hincrement, here] at within
    show m'.frames.outward? frame b.depth = _
    by_cases hlt : b.depth < n
    · rw [if_pos hlt]
    · rw [if_neg hlt]
      have hdepth : b.depth = n + (b.depth - n) := by omega
      rw [hdepth, Frames.outward?_add within]
      congr 1
      omega
  | some e =>
    rw [ForLoop.opened_of_some hincrement] at later within
    have hnext : m.frames.next < m.entered.frames.size := by
      show m.frames.size < (m.frames.alloc m.current).size
      rw [Frames.size_alloc]
      omega
    have houter : m'.frames.outer? m.frames.next = some scope := by
      rw [later.outer _ hnext]
      show (m.frames.alloc m.current).outer? m.frames.next = some scope
      rw [Frames.outer?_alloc_next, here]
    exact Frames.outward?_past within houter b

end

/-- At any time after a round has begun, the variable that the first clause declares is found from
within the round in slot 0 of the frame of the loop. -/
theorem ForLoop.Resolved.shares_variable {f : ForLoop} {p : Position} {table : Bindings}
    (resolved : f.Resolved table p) {name : Name} {value : Option Expr}
    (declares : f.initial = some (.varDecl name value)) (within : Position) {moment : Moment}
    (hx : ⟨within ++ f.scope p, moment⟩ ∈ f.inner (f.scope p))
    {ref : Reference} (href : moment.reference? = some ref) (same : ref.name.text = name.text)
    (visible : ∀ layer ∈ within, name.text ∉ layer.begun) :
    ∃ b, table[ref.id]? = some b ∧ b.slot = 0 ∧
      ∀ (m m' : Machine) (scope frame : FrameId), m.current = some scope →
        (f.opened m).Onward m' → m'.frames.outward? frame within.length = (f.opened m).current →
        m'.frames.outward? frame b.depth = some scope := by
  refine ⟨_, resolved.loop_variable declares within hx href same visible, ?_, ?_⟩
  · unfold ForLoop.through Binding.past
    cases f.increment.isSome <;> simp
  · intro m m' scope frame here later hwithin
    have hshared := ForLoop.outward?_through here later hwithin ⟨within.length, 0⟩
    rw [if_neg (Nat.lt_irrefl _), Nat.sub_self] at hshared
    exact hshared

/-- A `for` loop is what it is read as, is bound, and runs by its clauses.

Reading: at the word `for`, a statement that is read without a problem is that of clauses and a
body, each clause being there if and only if it is in the text.

Resolving: wherever no variable is just being declared, resolution finds in the statement what it
finds in the clauses and the body by themselves. In the table of a source that is accepted, the first
clause is bound in a scope of its own, the condition in that scope, and body and increment from
within it, wherever in them. If there is an increment, all that lies beyond a round is one step
further outward in the table.

Executing: the statement comes to what the loop does by its clauses, in whatever state, and to
nothing else; it is never left by a `break`, and the frame before it is the current one behind it.

Sharing: from within any round and at any later time, the bindings lead to the one frame of the
loop, and those of the variable that the first clause declares to slot 0 of it. -/
theorem for_runs_directly :
    (∀ (bound budget : Nat) (c c' : Grammar.Cursor) (s : Stmt), Grammar.Plain c →
      c.peek.kind = .keyword .forWord →
      Grammar.statement ⟨bound, Grammar.ruleAt budget⟩ c = .ok s c' → c'.problems = [] →
      ∃ f w, s = f.tree ∧
        Grammar.forClauses ⟨bound, Grammar.ruleAt budget⟩ c.next = .ok f c' ∧ f.Formed ∧
        c.rest = c.peek :: (w ++ c'.rest) ∧
        Grammar.Derives (decide (c.loopDepth ≠ 0)) (Grammar.loopPhrase f) w) ∧
    (∀ (source : List UInt8) (nextId : RefId) (program : List Stmt),
      ReadAs source nextId program →
      FormedBody program ∧ (idsOf (occurrencesInBody program)).Nodup) ∧
    (∀ (f : ForLoop) (context : Scoping.Context) (a : Scoping.Analysis), f.Formed →
      Scoping.Idle a.scopes →
      Scoping.SameFindings (f.resolve context a) (Scoping.resolveStmt context f.tree a)) ∧
    (∀ (program : List Stmt) (table : Bindings), FormedBody program →
      (idsOf (occurrencesInBody program)).Nodup → Scoping.resolve program = .ok table →
      ∀ (f : ForLoop) (p : Position), f.Formed →
        ⟨p, .executing f.tree⟩ ∈ sitesInBody [] program → f.Resolved table p) ∧
    (∀ (f : ForLoop) (m : Machine) (r : RunResult Completion), f.Formed →
      (Executes f.tree m r ↔ f.Runs m r) ∧
      (∀ completion m', f.Runs m (.ok completion m') →
        completion ≠ .broke ∧ m'.current = m.current) ∧
      ∀ stop m', f.Runs m (.error stop m') → m'.current = m.current) ∧
    (∀ (f : ForLoop) (m m' : Machine) (scope frame : FrameId) (n : Nat) (b : Binding),
      m.current = some scope → (f.opened m).Onward m' →
      m'.frames.outward? frame n = (f.opened m).current →
      m'.frames.outward? frame (f.through n b).depth =
        if b.depth < n then m'.frames.outward? frame b.depth
        else m'.frames.outward? scope (b.depth - n)) ∧
    (∀ (f : ForLoop) (table : Bindings) (p within : Position) (name : Name) (value : Option Expr)
      (moment : Moment) (ref : Reference), f.Resolved table p →
      f.initial = some (.varDecl name value) →
      ⟨within ++ f.scope p, moment⟩ ∈ f.inner (f.scope p) → moment.reference? = some ref →
      ref.name.text = name.text → (∀ layer ∈ within, name.text ∉ layer.begun) →
      ∃ b, table[ref.id]? = some b ∧ b.slot = 0 ∧
        ∀ (m m' : Machine) (scope frame : FrameId), m.current = some scope →
          (f.opened m).Onward m' → m'.frames.outward? frame within.length = (f.opened m).current →
          m'.frames.outward? frame b.depth = some scope) := by
  refine ⟨?_, ?_, ?_, ?_, ?_, ?_, ?_⟩
  · intro bound budget c c' s plain word h accepted
    exact Grammar.exists_forLoop plain word h accepted
  · intro source nextId program hread
    exact hread.formed
  · intro f context a formed settled
    exact ForLoop.sameFindings_tree formed context settled
  · intro program table formedBody nodup accepted f p formed site
    exact formed.resolved formedBody nodup accepted site
  · intro f m r formed
    refine ⟨ForLoop.executes_tree_iff formed, ?_, ?_⟩
    · intro completion m' h
      have hruns := (ForLoop.executes_tree_iff formed).mpr h
      exact ⟨h.ne_broke, hruns.onward.current⟩
    · intro stop m' h
      have hruns := (ForLoop.executes_tree_iff formed).mpr h
      exact hruns.onward_error.current
  · intro f m m' scope frame n b here later within
    exact ForLoop.outward?_through here later within b
  · intro f table p within name value moment ref resolved declares hx href same visible
    exact resolved.shares_variable declares within hx href same visible

/-- A loop with one round. -/
def onceSource : List UInt8 :=
  Utf8.encode "for (var a = \"x\"; a == \"x\"; a = \"y\") print a;"

def onceCursor : Grammar.Cursor :=
  Grammar.Cursor.ofTokens (tokensOf onceSource) 0

/-- The loop of the source. -/
def onceLoop : ForLoop where
  initial := some (.varDecl ⟨"a", 1⟩ (some (.literal (.text "x"))))
  condition := some (.binary (.variable ⟨0, ⟨"a", 1⟩⟩) .equal 1 (.literal (.text "x")))
  increment := some (.assign ⟨2, ⟨"a", 1⟩⟩ (.literal (.text "y")))
  body := .print (.variable ⟨3, ⟨"a", 1⟩⟩)

def onceTable : Bindings :=
  ((Bindings.none.insert 0 ⟨0, 0⟩).insert 3 ⟨1, 0⟩).insert 2 ⟨1, 0⟩

def onceMachine : Machine :=
  { Machine.start .plain (.working "") with bindings := onceTable }

theorem plain_a : (⟨"a", 1⟩ : Name).Plain := by
  unfold Name.Plain
  decide

theorem once_formed : onceLoop.Formed where
  initial s hs := by
    cases hs
    exact .inl ⟨_, _, rfl⟩
  body := plain_a
  quiet := rfl

/-- A computation whose state is looked at behind it ends with a result. -/
theorem exists_of_run' {ε σ α β : Type} {x : EStateM ε σ α} {s : σ} {look : σ → β} {b : β}
    (h : EStateM.run' (x >>= fun _ => get >>= fun s => pure (look s)) s = some b) :
    ∃ a s', x s = .ok a s' ∧ look s' = b := by
  delta EStateM.run' at h
  simp only [EStateM.run, bind, EStateM.bind] at h
  cases hx : x s with
  | ok a s' =>
    rw [hx] at h
    exact ⟨a, s', rfl, Option.some.inj h⟩
  | error e s' =>
    rw [hx] at h
    cases h

/-- The loop is read from its text, its variable lies one step out of the scope of the round, and
it prints the text `x` once. -/
theorem for_runs_directly_once :
    (∃ s c', Grammar.statement ⟨40, Grammar.ruleAt 40⟩ onceCursor = .ok s c' ∧
      ∃ f w, s = f.tree ∧ f.Formed ∧ Grammar.Derives false (Grammar.loopPhrase f) w) ∧
    Scoping.SameFindings (onceLoop.resolve ⟨.outside, .outside⟩ Scoping.Analysis.start)
      (Scoping.resolveStmt ⟨.outside, .outside⟩ onceLoop.tree Scoping.Analysis.start) ∧
    onceLoop.Resolved onceTable [] ∧
    (∃ completion m', onceLoop.Runs onceMachine (.ok completion m') ∧ completion ≠ .broke ∧
      m'.current = none ∧ m'.sink.written = "x\n") ∧
    (onceLoop.opened onceMachine.entered).frames.outward? 1 1 = some 0 ∧
    ∃ b, onceTable[3]? = some b ∧ b.slot = 0 ∧
      (onceLoop.opened onceMachine.entered).frames.outward? 1 b.depth = some 0 := by
  obtain ⟨reading, -, finding, resolving, executing, reaching, sharing⟩ := for_runs_directly
  have resolved : onceLoop.Resolved onceTable [] := by
    have formedBody : FormedBody [onceLoop.tree] :=
      ⟨⟨⟨plain_a, trivial⟩, ⟨⟨plain_a, trivial⟩, ⟨plain_a, ⟨plain_a, trivial⟩, trivial⟩, rfl⟩,
        trivial⟩, trivial⟩
    exact resolving [onceLoop.tree] onceTable formedBody (by decide) rfl onceLoop [] once_formed
      (List.mem_append_left _ List.mem_cons_self)
  refine ⟨?_, ?_, resolved, ?_, ?_, ?_⟩
  · have hplain : Grammar.Plain onceCursor := by
      intro t ht
      have hbefore : t ∈ (tokensOf onceSource).takeWhile fun t => !t.isEof := ht
      exact plainToken_tokensOf onceSource t ((List.takeWhile_sublist _).subset hbefore)
    obtain ⟨s, c', hread, hempty⟩ : ∃ s c',
        Grammar.statement ⟨40, Grammar.ruleAt 40⟩ onceCursor = .ok s c' ∧
          c'.problems.isEmpty = true :=
      exists_of_run' (by decide +kernel)
    obtain ⟨f, w, htree, -, hformed, -, hphrase⟩ :=
      reading 40 40 onceCursor c' s hplain rfl hread (List.isEmpty_iff.mp hempty)
    exact ⟨s, c', hread, f, w, htree, hformed, hphrase⟩
  · have settled : Scoping.Idle Scoping.Analysis.start.scopes := by
      intro scope hscope
      cases hscope
    exact finding onceLoop ⟨.outside, .outside⟩ Scoping.Analysis.start once_formed settled
  · obtain ⟨completion, m', hrun, hwritten⟩ : ∃ completion m',
        execute 20 onceLoop.tree onceMachine = .ok completion m' ∧ m'.sink.written = "x\n" :=
      exists_of_run' (by decide +kernel)
    have hexecutes : Executes onceLoop.tree onceMachine (.ok completion m') :=
      comes_of_run hrun (finished_ok completion m')
    obtain ⟨hiff, hends, -⟩ := executing onceLoop onceMachine (.ok completion m') once_formed
    have hruns := hiff.mp hexecutes
    obtain ⟨hbreak, hcurrent⟩ := hends completion m' hruns
    exact ⟨completion, m', hruns, hbreak, hcurrent, hwritten⟩
  · exact reaching onceLoop onceMachine.entered _ 0 1 0 ⟨0, 0⟩ rfl (.refl _) rfl
  · have hsite : ⟨[] ++ onceLoop.scope [], .evaluating (.variable ⟨3, ⟨"a", 1⟩⟩)⟩ ∈
        onceLoop.inner (onceLoop.scope []) :=
      List.mem_append_left _ (List.mem_cons_of_mem _ List.mem_cons_self)
    obtain ⟨b, hbound, hslot, hframe⟩ := sharing onceLoop onceTable [] [] ⟨"a", 1⟩ _ _
      ⟨3, ⟨"a", 1⟩⟩ resolved rfl hsite rfl rfl nofun
    exact ⟨b, hbound, hslot, hframe onceMachine.entered _ 0 1 rfl (.refl _) rfl⟩

end LoxLang
