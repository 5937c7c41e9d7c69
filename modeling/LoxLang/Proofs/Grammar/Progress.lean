import LoxLang.Proofs.Grammar.Joining
import LoxLang.Proofs.Grammar.Settling

/-!
# Reading any tokens

The rules come back to each other without end in sight, and only a budget makes this well-founded.
It is never used up: whatever the tokens, any budget above the number of those left comes to the
same (`ruleAt_eq`). So there are rules that come back to themselves without a budget, and no two
kinds of them (`reading_proceeds`). They go on over the tokens, and the declarations of a text or a
block are read in rounds, each of which reads a token at least, if only to drop it (`Rounds`).
-/

namespace LoxLang

namespace Grammar

/-! ## Any budget -/

theorem settles_ruleAt {room budget budget' : Nat} (hbudget : room ≤ budget)
    (hbudget' : room ≤ budget') (category : Category) (c : Cursor) (hc : c.rest.length < room) :
    SettlesAt c (category.taken c) (ruleAt budget category) (ruleAt budget' category) := by
  induction room generalizing budget budget' category c with
  | zero => exact absurd hc (Nat.not_lt_zero _)
  | succ room ih =>
    obtain ⟨budget, rfl⟩ := Nat.exists_eq_add_one.mpr (Nat.lt_of_lt_of_le (Nat.succ_pos _) hbudget)
    obtain ⟨budget', rfl⟩ :=
      Nat.exists_eq_add_one.mpr (Nat.lt_of_lt_of_le (Nat.succ_pos _) hbudget')
    have hinner : Rules.Settle room ⟨budget + 1, ruleAt budget⟩ ⟨budget' + 1, ruleAt budget'⟩ :=
      { bound := Nat.le_of_succ_le hbudget
        bound' := Nat.le_of_succ_le hbudget'
        read := fun category c hc =>
          ih (Nat.le_of_succ_le_succ hbudget) (Nat.le_of_succ_le_succ hbudget') category c hc }
    exact settles_rule hinner category c hc

/-- The rule of each category, with a budget above the number of tokens left. -/
def unlimited (category : Category) : Rule category.Found := fun c =>
  ruleAt (c.rest.length + 1) category c

theorem ruleAt_eq {budget : Nat} (category : Category) (c : Cursor) (h : c.rest.length < budget) :
    ruleAt budget category c = unlimited category c :=
  (settles_ruleAt (Nat.le_refl (c.rest.length + 1)) h category c (Nat.lt_succ_self _)).same

theorem unlimited_onward (category : Category) (c : Cursor) :
    Ensures (unlimited category) c (fun _ c' => c.Onward (category.taken c) c')
      fun _ c' => c.Onward 0 c' := by
  have honward := (settles_ruleAt (Nat.le_refl (c.rest.length + 1)) (Nat.le_refl _) category c
    (Nat.lt_succ_self _)).onward
  unfold Ensures at *
  rwa [ruleAt_eq category c (Nat.lt_succ_self _)] at honward

/-- Rules that come back to themselves, with any bound of the repetitions above the number of tokens
left. -/
def Closed (reads : (category : Category) → Rule category.Found) : Prop :=
  ∀ category (c : Cursor) bound, c.rest.length < bound →
    reads category c = rule ⟨bound, reads⟩ category c

theorem closed_unlimited : Closed unlimited := by
  intro category c bound hbound
  -- Fewer tokens are left where a rule comes back to a category, so that a smaller budget does.
  have hinner : Rules.Settle c.rest.length ⟨c.rest.length + 1, ruleAt c.rest.length⟩
      ⟨bound, unlimited⟩ :=
    { bound := Nat.le_succ _
      bound' := Nat.le_of_lt hbound
      read := fun category c' hc' =>
        { same := (ruleAt_eq category c' hc').symm
          onward := (settles_ruleAt (Nat.le_refl _) (Nat.le_refl _) category c' hc').onward } }
  exact (settles_rule hinner category c (Nat.lt_succ_self _)).same.symm

/-- There is one way only to come back to oneself, as there are fewer tokens left each time. -/
theorem Closed.eq_unlimited {reads : (category : Category) → Rule category.Found}
    (h : Closed reads) : reads = unlimited := by
  have hsettles : ∀ room category (c : Cursor), c.rest.length < room →
      SettlesAt c (category.taken c) (unlimited category) (reads category) := by
    intro room
    induction room with
    | zero => exact fun category c hc => absurd hc (Nat.not_lt_zero _)
    | succ room ih =>
      intro category c hc
      have hinner : Rules.Settle room ⟨room + 1, unlimited⟩ ⟨room + 1, reads⟩ :=
        { bound := Nat.le_succ _
          bound' := Nat.le_succ _
          read := ih }
      have hrule := settles_rule hinner category c hc
      exact
        { same := by
            rw [h category c (room + 1) hc, closed_unlimited category c (room + 1) hc]
            exact hrule.same
          onward := unlimited_onward category c }
  funext category c
  exact (hsettles (c.rest.length + 1) category c (Nat.lt_succ_self _)).same

/-! ## Rounds -/

/-- Items one after the other, each read from where there is something left to further on, up to
where reading stops. -/
inductive Rounds {α : Type} (item : Rule α) (stop : Cursor → Prop) : Cursor → List α → Cursor → Prop
  | done {c : Cursor} (h : stop c) : Rounds item stop c [] c
  | round {c c₁ c₂ : Cursor} {first : α} {rest : List α} (goes : ¬stop c)
      (read : item c = .ok first c₁) (suffix : c₁.rest <:+ c.rest)
      (less : c₁.rest.length < c.rest.length) (later : Rounds item stop c₁ rest c₂) :
      Rounds item stop c (first :: rest) c₂

theorem recover_ok {α : Type} (rule : Rule α) (c : Cursor) :
    ∃ found c', recover rule c = .ok found c' := by
  unfold recover
  cases rule c with
  | ok a c' => exact ⟨_, _, rfl⟩
  | error problem c' => exact ⟨_, _, rfl⟩

/-- A declaration always comes to something and reads a token, if there is one. -/
theorem unlimited_declaration {c : Cursor} (h : c.rest ≠ []) :
    ∃ found c', unlimited .declaration c = .ok found c' ∧ c'.rest <:+ c.rest ∧
      c'.rest.length < c.rest.length := by
  have honward := unlimited_onward .declaration c
  have hlength := List.length_pos_iff.mpr h
  obtain ⟨found, c', hrecover⟩ :=
    recover_ok (strictDeclaration ⟨c.rest.length + 1, unlimited⟩) c
  have hrun : unlimited .declaration c = .ok found c' :=
    (closed_unlimited .declaration c (c.rest.length + 1) (Nat.lt_succ_self _)).trans hrecover
  obtain ⟨suffix, taken⟩ := honward.of_ok hrun
  have htaken : c'.rest.length + min 1 c.rest.length ≤ c.rest.length := taken
  exact ⟨found, c', hrun, suffix, by omega⟩

theorem unlimited_recovers {c c' : Cursor} {bound : Nat} {problem : Problem}
    (hbound : c.rest.length < bound)
    (h : strictDeclaration ⟨bound, unlimited⟩ c = .error problem c') :
    unlimited .declaration c = .ok none
      { c' with rest := skipStatement c'.rest, problems := c'.problems ++ [problem] } := by
  rw [closed_unlimited .declaration c bound hbound]
  show recover (strictDeclaration ⟨bound, unlimited⟩) c = _
  unfold recover
  rw [h]

/-- Rounds come to an end, as each leaves fewer tokens. -/
theorem exists_rounds {stop : Cursor → Prop} (hstop : ∀ c : Cursor, c.rest = [] → stop c)
    (c : Cursor) : ∃ found c', Rounds (unlimited .declaration) stop c found c' := by
  induction hlength : c.rest.length using Nat.strongRecOn generalizing c with
  | ind n ih =>
    by_cases h : stop c
    · exact ⟨[], c, .done h⟩
    · obtain ⟨first, c₁, hread, hsuffix, hless⟩ :=
        unlimited_declaration fun hnil => h (hstop c hnil)
      obtain ⟨rest, c₂, hrounds⟩ := ih _ (hlength ▸ hless) c₁ rfl
      exact ⟨first :: rest, c₂, .round h hread hsuffix hless hrounds⟩

/-- Where a block ends: at a closing brace, or with the text. -/
def AtBlockEnd (c : Cursor) : Prop :=
  isSymbol .rightBrace c.peek = true ∨ c.rest = []

instance (c : Cursor) : Decidable (AtBlockEnd c) :=
  inferInstanceAs (Decidable (_ ∨ _))

theorem untilBrace_succ {α : Type} (item : Rule α) (bound : Nat) (c : Cursor) :
    untilBrace item (bound + 1) c =
      if AtBlockEnd c then .ok [] c
      else (item >>= fun first => (first :: ·) <$> untilBrace item bound) c := by
  have hrun : untilBrace item (bound + 1) c =
      (if (isSymbol .rightBrace c.peek || c.rest.isEmpty) = true then pure []
      else (item >>= fun first => (first :: ·) <$> untilBrace item bound)) c := rfl
  have hend : (isSymbol .rightBrace c.peek || c.rest.isEmpty) = true ↔ AtBlockEnd c := by
    rw [Bool.or_eq_true, List.isEmpty_iff]
    exact Iff.rfl
  rw [hrun]
  by_cases h : AtBlockEnd c
  · rw [if_pos h, if_pos (hend.mpr h)]
    rfl
  · rw [if_neg h, if_neg fun hstop => h (hend.mp hstop)]

theorem Rounds.untilBrace {α : Type} {item : Rule α} {c c' : Cursor} {found : List α}
    (h : Rounds item AtBlockEnd c found c') {bound : Nat} (hbound : c.rest.length < bound) :
    untilBrace item bound c = .ok found c' := by
  induction h generalizing bound with
  | @done c h =>
    obtain ⟨bound, rfl⟩ := Nat.exists_eq_add_one.mpr (Nat.lt_of_le_of_lt (Nat.zero_le _) hbound)
    rw [untilBrace_succ, if_pos h]
  | @round c c₁ c₂ first rest goes read suffix less later ih =>
    obtain ⟨bound, rfl⟩ := Nat.exists_eq_add_one.mpr (Nat.lt_of_le_of_lt (Nat.zero_le _) hbound)
    have hlater := ih (show c₁.rest.length < bound by omega)
    rw [untilBrace_succ, if_neg goes]
    simp only [bind, EStateM.bind, read, Functor.map, EStateM.map, hlater]

theorem Rounds.declarations {c c' : Cursor} {found : List (Option Stmt)}
    (h : Rounds (unlimited .declaration) (·.rest = []) c found c') {budget count : Nat}
    (hbudget : c.rest.length < budget) (hcount : c.rest.length < count) :
    declarations budget count c = .ok (found.flatMap Option.toList) c' := by
  induction h generalizing count with
  | done h => exact declarations_of_nil h
  | @round c c₁ c₂ first rest goes read suffix less later ih =>
    obtain ⟨count, rfl⟩ := Nat.exists_eq_add_one.mpr (Nat.lt_of_le_of_lt (Nat.zero_le _) hcount)
    have hfirst := (ruleAt_eq .declaration c hbudget).trans read
    have hlater := ih (show c₁.rest.length < budget by omega) (show c₁.rest.length < count by omega)
    rw [declarations_of_ne_nil goes]
    simp only [bind, EStateM.bind, hfirst, Functor.map, EStateM.map, hlater, List.flatMap_cons]

/-! ## Any tokens -/

/-- How tokens are read, whatever they are, by rules for all categories that need no budget. -/
structure Proceeds (reads : (category : Category) → Rule category.Found) : Prop where
  /-- The rules come back to themselves, and there is no other way to do so. -/
  closed : Closed reads ∧ ∀ others, Closed others → others = reads
  /-- Any budget above the number of tokens left comes to the same. -/
  budget : ∀ budget category (c : Cursor), c.rest.length < budget →
    ruleAt budget category c = reads category c
  /-- However reading ends, no token is read again, and none behind the last one. -/
  onward : ∀ category c,
    Ensures (reads category) c (fun _ c' => c'.rest <:+ c.rest) fun _ c' => c'.rest <:+ c.rest
  /-- A declaration comes to something further on, also where it drops tokens behind a problem. -/
  declaration : ∀ c : Cursor, c.rest ≠ [] → ∃ found c', reads .declaration c = .ok found c' ∧
    c'.rest <:+ c.rest ∧ c'.rest.length < c.rest.length
  /-- Behind a problem the rest of the statement is dropped. -/
  recovers : ∀ (c c' : Cursor) bound problem, c.rest.length < bound →
    strictDeclaration ⟨bound, reads⟩ c = .error problem c' →
    reads .declaration c = .ok none
      { c' with rest := skipStatement c'.rest, problems := c'.problems ++ [problem] }
  /-- The declarations of a block are read in rounds up to where it ends. -/
  block : ∀ c bound, c.rest.length < bound →
    ∃ found c', Rounds (reads .declaration) AtBlockEnd c found c' ∧
      block ⟨bound, reads⟩ c = (do
        let _ ← expect .blockClose
        return found.flatMap Option.toList : Rule (List Stmt)) c'
  /-- The declarations of a text are read in rounds up to its end. -/
  program : ∀ tokens nextId, ∃ found c,
    Rounds (reads .declaration) (·.rest = []) (Cursor.ofTokens tokens nextId) found c ∧
      readProgram tokens nextId =
        ⟨if c.problems = [] then .ok (found.flatMap Option.toList) else .error c.problems, c.nextId⟩
  /-- An expression is read by the rule for it, and there is nothing to be left behind it. -/
  expression : ∀ tokens nextId, readExpression tokens nextId =
    Grammar.read (fun _ => do
      let e ← reads .expression
      if ← atEnd then return e
      else failHere .missingEnd) tokens nextId

section

variable (tokens : List Token) (nextId : RefId)

theorem length_ofTokens_lt : (Cursor.ofTokens tokens nextId).rest.length < tokens.length + 1 :=
  length_beforeEnd_lt tokens

theorem block_in_rounds (c : Cursor) {bound : Nat} (hbound : c.rest.length < bound) :
    ∃ found c', Rounds (unlimited .declaration) AtBlockEnd c found c' ∧
      block ⟨bound, unlimited⟩ c = (do
        let _ ← expect .blockClose
        return found.flatMap Option.toList : Rule (List Stmt)) c' := by
  have hstop : ∀ c : Cursor, c.rest = [] → AtBlockEnd c := fun _ hnil => .inr hnil
  obtain ⟨found, c', hrounds⟩ := exists_rounds hstop c
  refine ⟨found, c', hrounds, ?_⟩
  show EStateM.bind (untilBrace (unlimited .declaration) bound) _ c = _
  unfold EStateM.bind
  rw [hrounds.untilBrace hbound]

theorem readProgram_in_rounds : ∃ found c,
    Rounds (unlimited .declaration) (·.rest = []) (Cursor.ofTokens tokens nextId) found c ∧
      readProgram tokens nextId =
        ⟨if c.problems = [] then .ok (found.flatMap Option.toList) else .error c.problems,
          c.nextId⟩ := by
  obtain ⟨found, c, hrounds⟩ := exists_rounds (fun _ => id) (Cursor.ofTokens tokens nextId)
  refine ⟨found, c, hrounds, ?_⟩
  have hlength := length_ofTokens_lt tokens nextId
  unfold readProgram read program
  rw [hrounds.declarations hlength hlength]
  cases hproblems : c.problems <;> simp [hproblems]

theorem readExpression_unlimited : readExpression tokens nextId =
    Grammar.read (fun _ => do
      let e ← unlimited .expression
      if ← atEnd then return e
      else failHere .missingEnd) tokens nextId := by
  have hlength := length_ofTokens_lt tokens nextId
  have hrun : wholeExpression (tokens.length + 1) (Cursor.ofTokens tokens nextId) =
      (do
        let e ← unlimited .expression
        if ← atEnd then return e
        else failHere .missingEnd : Rule Expr) (Cursor.ofTokens tokens nextId) := by
    unfold wholeExpression
    show EStateM.bind _ _ _ = EStateM.bind _ _ _
    unfold EStateM.bind
    rw [ruleAt_eq .expression _ hlength]
  unfold readExpression read
  rw [hrun]

end

/-- Reading any tokens comes to an end: the rules need no budget, a declaration is never read where
the one before it was, and what is dropped behind a problem is a token at least, and no more than up
to the next place where a statement may begin. -/
theorem reading_proceeds :
    (∀ t rest, ∃ dropped, dropped ++ skipStatement (t :: rest) = t :: rest ∧
      Skips dropped (skipStatement (t :: rest))) ∧ Proceeds unlimited := by
  refine ⟨skips_skipStatement, ?_⟩
  exact
    { closed := ⟨closed_unlimited, fun _ => Closed.eq_unlimited⟩
      budget := fun _ category c => ruleAt_eq category c
      onward := fun category c =>
        (unlimited_onward category c).mono (fun _ _ h => h.rest) fun _ _ h => h.rest
      declaration := fun _ => unlimited_declaration
      recovers := fun c _ _ _ hbound => unlimited_recovers hbound
      block := fun c _ => block_in_rounds c
      program := readProgram_in_rounds
      expression := readExpression_unlimited }

end Grammar

end LoxLang
