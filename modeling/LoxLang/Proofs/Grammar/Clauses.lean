import LoxLang.Proofs.Grammar.Formation
import LoxLang.Proofs.Grammar.Soundness

/-!
# The clauses of a `for` loop

A `for` loop is read as another statement, made of its clauses and its body (`ForLoop.tree`), and
of nothing else: the rule of the loop is the one that reads these (`forClauses`). A clause that is
found is one that is there in the text (`parses_forClauses`), and what is found can be part of a
program (`reads_forClauses`).
-/

namespace LoxLang

/-- A `for` loop: its clauses, each of which may be left out, and its body. -/
structure ForLoop where
  initial : Option Stmt
  condition : Option Expr
  increment : Option Expr
  body : Stmt

namespace ForLoop

/-- The statement that the loop is read as. -/
def tree (f : ForLoop) : Stmt :=
  Grammar.forLoop f.initial f.condition f.increment f.body

/-- What is tested before each round. -/
def test (f : ForLoop) : Expr :=
  f.condition.getD (.literal (.bool true))

/-- What is executed in each round. -/
def round (f : ForLoop) : Stmt :=
  Grammar.loopRound f.increment f.body

/-- A loop that can be read from a text: its first clause declares a variable or is an
expression, and its body declares nothing. -/
structure Formed (f : ForLoop) : Prop where
  initial : ∀ s ∈ f.initial, (∃ name value, s = .varDecl name value) ∨ ∃ e, s = .expression e
  body : f.body.Formed
  quiet : f.body.declared? = none

end ForLoop

namespace Grammar

variable {inner : Rules} {c : Cursor}

/-- The clauses and the body of a `for` loop behind its word. -/
def forClauses (inner : Rules) : Rule ForLoop := do
  let _ ← expect .forOpen
  let initial ← forInitial inner
  let condition ← optionalBefore .semicolon (inner.read .expression)
  let _ ← expect .forMiddle
  let increment ← optionalBefore .rightParen (inner.read .expression)
  let _ ← expect .forClose
  let body ← withLoopDepth (· + 1) (inner.read .statement)
  return ⟨initial, condition, increment, body⟩

theorem forStatement_eq (inner : Rules) : forStatement inner = ForLoop.tree <$> forClauses inner := by
  unfold forStatement forClauses ForLoop.tree
  simp only [map_bind, map_pure]

/-- The cursor behind the next token. -/
def Cursor.next (c : Cursor) : Cursor :=
  { c with rest := c.rest.tail }

/-- At its word, a `for` loop is read. -/
theorem statement_eq_of_for (h : c.peek.kind = .keyword .forWord) :
    statement inner c = (ForLoop.tree <$> forClauses inner) c.next := by
  rw [← forStatement_eq]
  unfold statement
  simp only [bind, EStateM.bind, peek, h]
  rfl

/-! ## The first clause -/

theorem ensures_varDecl (inner : Rules) (c : Cursor) :
    Ensures (varDecl inner) c (fun s _ => ∃ name value, s = .varDecl name value)
      fun _ _ => True := by
  unfold varDecl
  refine ensures_last (fun name => ensures_last fun found => ?_) c
  have hend : ∀ (initial : Option Expr) (c : Cursor), Ensures (do
      let _ ← expect .declarationEnd
      return Stmt.varDecl name initial) c (fun s _ => ∃ name value, s = .varDecl name value)
      fun _ _ => True := by
    intro initial c
    refine ensures_last (fun _ c' => ?_) c
    exact ⟨name, initial, rfl⟩
  -- With or without an initializer, the mark behind the declaration comes last.
  cases found with
  | true => exact fun c => ensures_last hend c
  | false => exact hend none

theorem ensures_expressionStatement (rule : Rule Expr) (c : Cursor) :
    Ensures (expressionStatement rule) c (fun s _ => ∃ e, s = .expression e) fun _ _ => True := by
  unfold expressionStatement
  refine ensures_last (fun e => ensures_last fun _ c' => ?_) c
  exact ⟨e, rfl⟩

/-- The first clause is a declaration, an expression, or left out. -/
theorem ensures_forInitial (inner : Rules) (c : Cursor) :
    Ensures (forInitial inner) c (fun o _ => ∀ s ∈ o,
      (∃ name value, s = .varDecl name value) ∨ ∃ e, s = .expression e) fun _ _ => True := by
  unfold forInitial
  refine ensures_last (fun left => ?_) c
  cases left with
  | true =>
    intro c s hs
    cases hs
  | false =>
    refine fun c => ensures_last (fun declares => ?_) c
    cases declares with
    | true =>
      intro c
      refine (ensures_varDecl inner c).bind fun s c' hs => ?_
      intro s' hs'
      cases hs'
      exact .inl hs
    | false =>
      intro c
      refine (ensures_expressionStatement _ c).bind fun s c' hs => ?_
      intro s' hs'
      cases hs'
      exact .inr hs

/-! ## The text of a loop -/

/-- What the first clause is in the text. -/
def initialPhrase : Option Stmt → Phrase
  | none => .symbol .semicolon
  | some (.varDecl _ _) => .of .varDecl
  | some _ => .of .exprStmt

/-- What another clause is in the text. -/
def clausePhrase : Option Expr → Phrase
  | none => .seq []
  | some _ => .of .expression

/-- The text of a loop behind its word, with those clauses that the loop has. -/
def loopPhrase (f : ForLoop) : Phrase :=
  .seq [.symbol .leftParen, initialPhrase f.initial, clausePhrase f.condition, .symbol .semicolon,
    clausePhrase f.increment, .symbol .rightParen, .loopBody (.of .statement)]

section

variable {loop : Bool} {α : Type} {rule : Rule α} {good : List Token → α → Prop}
  {shape : α → Prop}

/-- What is known of the result whatever was read. -/
theorem Parses.shaped (h : Parses loop rule good)
    (hshape : ∀ c, Ensures rule c (fun a _ => shape a) fun _ _ => True) :
    Parses loop rule fun w a => shape a ∧ good w a := by
  intro t c hpeek hloop
  refine ((h t c hpeek hloop).and (hshape c)).mono ?_ fun _ _ => And.left
  rintro a c' ⟨⟨hdepth, hread⟩, ha⟩
  refine ⟨hdepth, fun hproblems => ?_⟩
  obtain ⟨hbefore, w, hrest, hgood⟩ := hread hproblems
  exact ⟨hbefore, w, hrest, ha, hgood⟩

theorem parses_forInitial (h : inner.Yielding) :
    Parses loop (forInitial inner) fun w o => Derives loop (initialPhrase o) w := by
  refine parses_ifAccept .semicolon ?_ (parses_ifWord .varWord (by decide) ?_ ?_)
  · refine parses_pure fun w hw => ?_
    rw [List.append_nil]
    exact hw
  · refine ((yields_varDecl h).shaped (ensures_varDecl inner)).use fun s => parses_pure ?_
    rintro v ⟨⟨name, value, rfl⟩, hv⟩ w hw
    rw [List.append_nil]
    exact .of (.cons hw hv)
  · refine ((yields_expressionStatement (h loop .expression)).shaped
      (ensures_expressionStatement _)).use fun s => parses_pure ?_
    rintro w ⟨⟨e, rfl⟩, hw⟩
    rw [List.append_nil]
    exact hw

theorem parses_clause (symbol : Symbol) {rule : Rule Expr}
    (h : Yields loop rule (.of .expression)) :
    Parses loop (optionalBefore symbol rule) fun w o => Derives loop (clausePhrase o) w := by
  refine (parses_atSymbol _).skip fun _ => parses_ite (fun _ => parses_pure .nil) fun _ => ?_
  refine h.use fun _ => parses_pure fun w hw => ?_
  rw [List.append_nil]
  exact hw

/-- The loop has the clauses that the text has. -/
theorem parses_forClauses (h : inner.Yielding) :
    Parses loop (forClauses inner) fun w f => Derives loop (loopPhrase f) w := by
  refine (yields_expect .forOpen).use fun _ => (parses_forInitial h).use fun initial => ?_
  refine (parses_clause .semicolon (h loop .expression)).use fun condition => ?_
  refine (yields_expect .forMiddle).use fun _ => ?_
  refine (parses_clause .rightParen (h loop .expression)).use fun increment => ?_
  refine (yields_expect .forClose).use fun _ => (yields_loopBody h).use fun body => parses_pure ?_
  intro w₇ h₇ w₆ h₆ w₅ h₅ w₄ h₄ w₃ h₃ w₂ h₂ w₁ h₁
  exact .cons h₁ (.cons h₂ (.cons h₃ (.cons h₄ (.cons h₅ (.cons h₆ (.cons h₇ .nil))))))

end

/-! ## What a loop is made of -/

theorem Reads.shaped {loop : Prop} {α : Type} {rule : Rule α} {good : Nat → Nat → α → Prop}
    {shape : α → Prop} (h : Reads loop rule good)
    (hshape : ∀ c, Ensures rule c (fun a _ => shape a) fun _ _ => True) :
    Reads loop rule fun _ _ => shape := by
  intro c low hc hloop hlow
  refine ((h c low hc hloop hlow).and (hshape c)).mono ?_ fun _ _ => And.left
  rintro a c' ⟨⟨later, -⟩, ha⟩
  exact ⟨later, fun _ _ => ha⟩

/-- What is found can be part of a program. -/
theorem reads_forClauses (h : inner.Sound) (loop : Prop) :
    Reads loop (forClauses inner) fun _ _ f => f.Formed := by
  refine (reads_expect _).skip fun _ => ?_
  refine ((reads_forInitial h).shaped (ensures_forInitial inner)).use
    fun initial _ _ hinitial => ?_
  refine (reads_optionalBefore _ (h loop .expression)).use fun condition _ _ _ => ?_
  refine (reads_expect _).skip fun _ => ?_
  refine (reads_optionalBefore _ (h loop .expression)).use fun increment _ _ _ => ?_
  refine (reads_expect _).skip fun _ => ?_
  refine (reads_withLoopDepth (h True .statement) fun _ _ => trivial).use
    fun body _ _ hbody => ?_
  exact reads_pure fun _ _ _ _ _ _ _ => ⟨hinitial, hbody.1.1.1, hbody.1.2⟩

/-- A statement that is read at the word of a loop is the one of its clauses, which are those of the
text, and of its body. -/
theorem exists_forLoop {bound budget : Nat} {c' : Cursor} {s : Stmt} (plain : Plain c)
    (word : c.peek.kind = .keyword .forWord)
    (h : statement ⟨bound, ruleAt budget⟩ c = .ok s c') (accepted : c'.problems = []) :
    ∃ f w, s = f.tree ∧ forClauses ⟨bound, ruleAt budget⟩ c.next = .ok f c' ∧ f.Formed ∧
      c.rest = c.peek :: (w ++ c'.rest) ∧
      Derives (decide (c.loopDepth ≠ 0)) (loopPhrase f) w := by
  have sound : Rules.Sound ⟨bound, ruleAt budget⟩ := reads_ruleAt budget
  have yielding : Rules.Yielding ⟨bound, ruleAt budget⟩ := yields_ruleAt budget
  rw [statement_eq_of_for word] at h
  cases hclauses : forClauses ⟨bound, ruleAt budget⟩ c.next with
  | error problem c₁ =>
    have herror : (ForLoop.tree <$> forClauses ⟨bound, ruleAt budget⟩) c.next =
        .error problem c₁ := by
      simp only [Functor.map, EStateM.map, hclauses]
    rw [herror] at h
    cases h
  | ok f c₁ =>
    have hok : (ForLoop.tree <$> forClauses ⟨bound, ruleAt budget⟩) c.next = .ok f.tree c₁ := by
      simp only [Functor.map, EStateM.map, hclauses]
    rw [hok] at h
    cases h
    have hplain : Plain c.next := fun t ht => plain t (List.mem_of_mem_tail ht)
    have hformed := (reads_forClauses sound True c.next 0 hplain
      (fun _ => trivial) (Nat.zero_le _)).of_ok hclauses
    have hloop : c.next.InLoop (decide (c.loopDepth ≠ 0)) := by
      show c.loopDepth ≠ 0 ↔ decide (c.loopDepth ≠ 0) = true
      exact decide_eq_true_iff.symm
    have hparses := (parses_forClauses yielding _ c.next rfl hloop).of_ok hclauses
    obtain ⟨-, w, hrest, hphrase⟩ := hparses.2 accepted
    refine ⟨f, w, rfl, rfl, hformed.2 _ (Nat.le_refl _), ?_, hphrase⟩
    -- Behind the text of the clauses, the word itself is left.
    rw [← hrest]
    show c.rest = c.peek :: c.rest.tail
    unfold Cursor.peek at word ⊢
    cases hc : c.rest with
    | nil =>
      rw [hc] at word
      cases word
    | cons t rest => rfl

end Grammar

end LoxLang
