import LoxLang.Grammar.Program
import LoxLang.Proofs.Ensures

/-!
# Counting loops

A cursor counts the loops around it. Reading ends where as many are counted as where it began,
whether something was found or not (`Cursor.Keeps`), and only `break` looks at their number. So
rules that leave `break` to others come to the same whatever is counted, if the rules for their
parts do (`Alike`).
-/

namespace LoxLang

namespace Grammar

variable {α β : Type}

/-! ## What is counted -/

/-- The same cursor with another number of loops around. -/
def Cursor.counting (c : Cursor) (depth : Nat) : Cursor :=
  { c with loopDepth := depth }

/-- A cursor with as many loops around, where no problem has been forgotten. -/
structure Cursor.Keeps (c c' : Cursor) : Prop where
  loops : c'.loopDepth = c.loopDepth
  problems : c.problems <+: c'.problems

theorem Cursor.Keeps.refl (c : Cursor) : c.Keeps c :=
  ⟨rfl, List.prefix_rfl⟩

theorem Cursor.Keeps.trans {c c₁ c₂ : Cursor} (h : c.Keeps c₁) (h' : c₁.Keeps c₂) : c.Keeps c₂ :=
  ⟨h'.loops.trans h.loops, h.problems.trans h'.problems⟩

/-- However a rule ends, as many loops are around as before. -/
def Balanced (rule : Rule α) : Prop :=
  ∀ c, Ensures rule c (fun _ c' => c.Keeps c') fun _ c' => c.Keeps c'

/-- Started at a cursor, a rule keeps the number of loops, and a second one comes to the same
whatever their number is. -/
inductive AlikeAt (c : Cursor) (rule rule' : Rule α) : Prop
  | ok {a : α} {c' : Cursor} (run : rule c = .ok a c') (keeps : c.Keeps c')
      (same : ∀ depth, rule' (c.counting depth) = .ok a (c'.counting depth))
  | error {problem : Problem} {c' : Cursor} (run : rule c = .error problem c') (keeps : c.Keeps c')
      (same : ∀ depth, rule' (c.counting depth) = .error problem (c'.counting depth))

/-- The same of rules that start anywhere with a given number of loops around. -/
def Alike (depth : Nat) (rule rule' : Rule α) : Prop :=
  ∀ c : Cursor, c.loopDepth = depth → AlikeAt c rule rule'

section

variable {c c' : Cursor} {depth : Nat} {a : α} {problem : Problem} {rule rule' : Rule α}
  {next next' : α → Rule β}

theorem AlikeAt.keeps (h : AlikeAt c rule rule') :
    Ensures rule c (fun _ c' => c.Keeps c') fun _ c' => c.Keeps c' := by
  unfold Ensures
  cases h with
  | ok run keeps _ => rwa [run]
  | error run keeps _ => rwa [run]

/-- One rule after the other. -/
theorem AlikeAt.use (h : AlikeAt c rule rule')
    (h' : ∀ a c', c.Keeps c' → AlikeAt c' (next a) (next' a)) :
    AlikeAt c (rule >>= next) (rule' >>= next') := by
  cases h with
  | error run keeps same =>
    exact .error (bind_of_error run) keeps fun depth => bind_of_error (same depth)
  | ok run keeps same =>
    cases h' _ _ keeps with
    | ok run' keeps' same' =>
      exact .ok ((bind_of_ok run).trans run') (keeps.trans keeps') fun depth =>
        (bind_of_ok (same depth)).trans (same' depth)
    | error run' keeps' same' =>
      exact .error ((bind_of_ok run).trans run') (keeps.trans keeps') fun depth =>
        (bind_of_ok (same depth)).trans (same' depth)

theorem Alike.use (h : Alike depth rule rule') (h' : ∀ a, Alike depth (next a) (next' a)) :
    Alike depth (rule >>= next) (rule' >>= next') :=
  fun c hc => (h c hc).use fun a c' keeps => h' a c' (keeps.loops.trans hc)

theorem alike_pure (a : α) : Alike depth (pure a) (pure a) :=
  fun c _ => .ok rfl (.refl c) fun _ => rfl

theorem alike_throw (problem : Problem) :
    Alike depth (throw problem : Rule α) (throw problem) :=
  fun c _ => .error rfl (.refl c) fun _ => rfl

theorem alike_failHere (cause : Cause) :
    Alike depth (failHere cause : Rule α) (failHere cause) :=
  fun c _ => .error rfl (.refl c) fun _ => rfl

theorem Alike.map (h : Alike depth rule rule') (f : α → β) :
    Alike depth (f <$> rule) (f <$> rule') := by
  rw [map_eq_pure_bind, map_eq_pure_bind]
  exact h.use fun a => alike_pure (f a)

theorem Alike.ite {condition : Prop} [Decidable condition] {other other' : Rule α}
    (h : Alike depth rule rule') (h' : Alike depth other other') :
    Alike depth (if condition then rule else other) (if condition then rule' else other') := by
  split
  · exact h
  · exact h'

/-- What is read in one case only, and then what is read in any. -/
theorem Alike.optional {condition : Prop} [Decidable condition] {absent : α}
    (h : Alike depth rule rule') (rest : ∀ a, Alike depth (next a) (next' a)) :
    Alike depth (if condition then rule >>= next else next absent)
      (if condition then rule' >>= next' else next' absent) :=
  .ite (h.use rest) (rest absent)

/-- The same where it is read in the other case. -/
theorem Alike.optionalElse {condition : Prop} [Decidable condition] {absent : α}
    (h : Alike depth rule rule') (rest : ∀ a, Alike depth (next a) (next' a)) :
    Alike depth (if condition then next absent else rule >>= next)
      (if condition then next' absent else rule' >>= next') :=
  .ite (rest absent) (h.use rest)

end

/-! ## Primitive rules -/

section

variable {depth : Nat}

theorem alike_peek : Alike depth peek peek :=
  fun c _ => .ok rfl (.refl c) fun _ => rfl

theorem alike_advance : Alike depth advance advance :=
  fun _ _ => .ok rfl ⟨rfl, List.prefix_rfl⟩ fun _ => rfl

theorem alike_atEnd : Alike depth atEnd atEnd :=
  fun c _ => .ok rfl (.refl c) fun _ => rfl

theorem alike_freshId : Alike depth freshId freshId :=
  fun _ _ => .ok rfl ⟨rfl, List.prefix_rfl⟩ fun _ => rfl

theorem alike_note (problem : Problem) : Alike depth (note problem) (note problem) :=
  fun _ _ => .ok rfl ⟨rfl, List.prefix_append _ _⟩ fun _ => rfl

theorem alike_atSymbol (symbol : Symbol) : Alike depth (atSymbol symbol) (atSymbol symbol) :=
  alike_peek.use fun _ => alike_pure _

theorem alike_accept (symbol : Symbol) : Alike depth (accept symbol) (accept symbol) :=
  (alike_atSymbol symbol).use fun _ =>
    .ite (alike_advance.use fun _ => alike_pure _) (alike_pure _)

theorem alike_acceptWord (word : Keyword) : Alike depth (acceptWord word) (acceptWord word) :=
  alike_peek.use fun _ => .ite (alike_advance.use fun _ => alike_pure _) (alike_pure _)

theorem alike_expect (landmark : Landmark) : Alike depth (expect landmark) (expect landmark) :=
  alike_peek.use fun _ => .ite (alike_advance.use fun _ => alike_pure _) (alike_failHere _)

theorem alike_expectName (role : NameRole) : Alike depth (expectName role) (expectName role) := by
  refine alike_peek.use fun token => ?_
  split
  · exact alike_advance.use fun _ => alike_pure _
  · exact alike_failHere _

section

variable {c c' : Cursor} {change : Nat → Nat} {a : α} {problem : Problem} {rule rule' : Rule α}

theorem withLoopDepth_of_ok (h : rule (c.counting (change c.loopDepth)) = .ok a c') :
    withLoopDepth change rule c = .ok a (c'.counting c.loopDepth) := by
  have hrun : rule { c with loopDepth := change c.loopDepth } = .ok a c' := h
  unfold withLoopDepth
  rw [hrun]
  rfl

theorem withLoopDepth_of_error (h : rule (c.counting (change c.loopDepth)) = .error problem c') :
    withLoopDepth change rule c = .error problem (c'.counting c.loopDepth) := by
  have hrun : rule { c with loopDepth := change c.loopDepth } = .error problem c' := h
  unfold withLoopDepth
  rw [hrun]
  rfl

theorem recover_of_ok (h : rule c = .ok a c') : recover rule c = .ok (some a) c' := by
  unfold recover
  rw [h]

theorem recover_of_error (h : rule c = .error problem c') :
    recover rule c = .ok none
      { c' with rest := skipStatement c'.rest, problems := c'.problems ++ [problem] } := by
  unfold recover
  rw [h]

/-- Reading with another number of loops around. -/
theorem Alike.withLoopDepth (change : Nat → Nat) (h : Alike (change depth) rule rule') :
    Alike depth (withLoopDepth change rule) (withLoopDepth change rule') := by
  rintro c rfl
  cases h (c.counting (change c.loopDepth)) rfl with
  | ok run keeps same =>
    exact .ok (withLoopDepth_of_ok run) ⟨rfl, keeps.problems⟩ fun k =>
      (withLoopDepth_of_ok (c := c.counting k) (same (change k)) :)
  | error run keeps same =>
    exact .error (withLoopDepth_of_error run) ⟨rfl, keeps.problems⟩ fun k =>
      (withLoopDepth_of_error (c := c.counting k) (same (change k)) :)

/-- Behind a problem reading goes on, and the problem is recorded. -/
theorem AlikeAt.recover (h : AlikeAt c rule rule') :
    AlikeAt c (recover rule) (recover rule') := by
  cases h with
  | ok run keeps same =>
    exact .ok (recover_of_ok run) keeps fun k => recover_of_ok (same k)
  | error run keeps same =>
    exact .ok (recover_of_error run) ⟨keeps.loops, keeps.problems.trans (List.prefix_append _ _)⟩
      fun k => (recover_of_error (same k) :)

end

/-! ## Repetition -/

theorem alike_commaSeparated {item item' : Nat → Rule α}
    (h : ∀ count, Alike depth (item count) (item' count)) (budget count : Nat) :
    Alike depth (commaSeparated item budget count) (commaSeparated item' budget count) := by
  induction budget generalizing count with
  | zero => exact alike_failHere _
  | succ budget ih =>
    refine (h count).use fun first => (alike_accept .comma).use fun more => ?_
    exact .ite ((ih (count + 1)).use fun rest => alike_pure _) (alike_pure _)

theorem alike_leftNested {ω : Type} (operator? : Token → Option ω) {operand operand' : Rule Expr}
    (build : Expr → ω → Nat → Expr → Expr) (h : Alike depth operand operand') (budget : Nat)
    (left : Expr) :
    Alike depth (leftNested operator? operand build budget left)
      (leftNested operator? operand' build budget left) := by
  induction budget generalizing left with
  | zero => exact alike_pure left
  | succ budget ih =>
    refine alike_peek.use fun token => ?_
    split
    · exact alike_pure left
    · exact alike_advance.use fun _ => h.use fun right => ih _

theorem alike_untilBrace {item item' : Rule α} (h : Alike depth item item') (budget : Nat) :
    Alike depth (untilBrace item budget) (untilBrace item' budget) := by
  induction budget with
  | zero => exact alike_pure []
  | succ budget ih =>
    refine (alike_atSymbol _).use fun _ => alike_atEnd.use fun _ => .ite (alike_pure []) ?_
    exact h.use fun first => ih.use fun rest => alike_pure _

/-! ## Functions -/

theorem alike_checkArity (cause : Cause) (count : Nat) :
    Alike depth (checkArity cause count) (checkArity cause count) :=
  .ite (alike_peek.use fun _ => alike_note _) (alike_pure ())

theorem alike_parameter (count : Nat) : Alike depth (parameter count) (parameter count) :=
  (alike_checkArity _ _).use fun _ => alike_expectName _

theorem alike_reference (role : NameRole) : Alike depth (reference role) (reference role) :=
  (alike_expectName role).use fun _ => alike_freshId.use fun _ => alike_pure _

/-- Rules for expressions that come to the same whatever is counted, and for what is declared in a
function. -/
structure Rules.Alike (depth : Nat) (inner inner' : Rules) : Prop where
  bound : inner'.bound = inner.bound
  expression : Grammar.Alike depth (inner.read .expression) (inner'.read .expression)
  assignment : Grammar.Alike depth (inner.read .assignment) (inner'.read .assignment)
  conditional : Grammar.Alike depth (inner.read .conditional) (inner'.read .conditional)
  unary : Grammar.Alike depth (inner.read .unary) (inner'.read .unary)
  declaration : Grammar.Alike 0 (inner.read .declaration) (inner'.read .declaration)

section

variable {inner inner' : Rules}

theorem alike_block (hbound : inner'.bound = inner.bound)
    (h : Alike depth (inner.read .declaration) (inner'.read .declaration)) :
    Alike depth (block inner) (block inner') := by
  unfold block
  rw [hbound]
  exact (alike_untilBrace h _).use fun body => (alike_expect _).use fun _ => alike_pure _

theorem alike_function (h : inner.Alike depth inner') (callable : Callable) :
    Alike depth (function inner callable) (function inner' callable) := by
  have hbody : Alike 0 (block inner) (block inner') := alike_block h.bound h.declaration
  unfold function
  rw [h.bound]
  refine (alike_expect _).use fun _ => (alike_atSymbol _).use fun found => ?_
  refine .optionalElse (alike_commaSeparated alike_parameter _ 0) fun params => ?_
  refine (alike_expect _).use fun _ => (alike_expect _).use fun _ => ?_
  exact (hbody.withLoopDepth fun _ => 0).use fun body => alike_pure _

theorem alike_namedFunction (h : inner.Alike depth inner') (callable : Callable) :
    Alike depth (namedFunction inner callable) (namedFunction inner' callable) :=
  (alike_expectName _).use fun _ => (alike_function h callable).use fun _ => alike_pure _

/-! ## Expressions -/

theorem alike_primary (h : inner.Alike depth inner') :
    Alike depth (primary inner) (primary inner') := by
  refine alike_peek.use fun token => ?_
  split
  case h_1 => exact alike_advance.use fun _ => (alike_function h _).use fun f => alike_pure _
  case h_8 =>
    refine alike_advance.use fun _ => (alike_expect _).use fun _ => ?_
    exact (alike_expectName _).use fun method => alike_freshId.use fun id => alike_pure _
  case h_10 =>
    refine alike_advance.use fun _ => h.expression.use fun e => ?_
    exact (alike_expect _).use fun _ => alike_pure _
  case h_11 => exact alike_failHere _
  case h_7 | h_9 => exact alike_advance.use fun _ => alike_freshId.use fun id => alike_pure _
  all_goals exact alike_advance.use fun _ => alike_pure _

theorem alike_argument (h : inner.Alike depth inner') (count : Nat) :
    Alike depth (argument inner count) (argument inner' count) :=
  (alike_checkArity _ _).use fun _ => h.assignment

theorem alike_arguments (h : inner.Alike depth inner') :
    Alike depth (arguments inner) (arguments inner') := by
  unfold arguments
  rw [h.bound]
  refine (alike_atSymbol _).use fun found => ?_
  refine .optionalElse (alike_commaSeparated (alike_argument h) _ 0) fun args => ?_
  exact (alike_expect _).use fun line => alike_pure _

theorem alike_suffixes (h : inner.Alike depth inner') (budget : Nat) (e : Expr) :
    Alike depth (suffixes inner budget e) (suffixes inner' budget e) := by
  induction budget generalizing e with
  | zero => exact alike_pure e
  | succ budget ih =>
    refine alike_peek.use fun token => ?_
    split
    · exact alike_advance.use fun _ => (alike_arguments h).use fun _ => ih _
    · exact alike_advance.use fun _ => (alike_expectName _).use fun name => ih _
    · exact alike_pure e

theorem alike_call (h : inner.Alike depth inner') : Alike depth (call inner) (call inner') := by
  unfold call
  rw [h.bound]
  exact (alike_primary h).use fun e => alike_suffixes h _ e

theorem alike_unary (h : inner.Alike depth inner') : Alike depth (unary inner) (unary inner') := by
  refine alike_peek.use fun token => ?_
  split
  · exact alike_advance.use fun _ => h.unary.use fun e => alike_pure _
  · exact alike_call h

theorem alike_binary (level : Level) (bound : Nat) {operand operand' : Rule Expr}
    (h : Alike depth operand operand') :
    Alike depth (binary level bound operand) (binary level bound operand') := by
  refine alike_peek.use fun token => .ite ?_ ?_
  · exact alike_advance.use fun _ => h.use fun _ => alike_throw _
  · exact h.use fun left => alike_leftNested _ _ h bound left

theorem alike_logical (op : LogicalOp) (bound : Nat) {operand operand' : Rule Expr}
    (h : Alike depth operand operand') :
    Alike depth (logical op bound operand) (logical op bound operand') :=
  h.use fun left => alike_leftNested _ _ h bound left

theorem alike_factor (h : inner.Alike depth inner') :
    Alike depth (factor inner) (factor inner') := by
  unfold factor
  rw [h.bound]
  exact alike_binary .factor _ (alike_unary h)

theorem alike_term (h : inner.Alike depth inner') : Alike depth (term inner) (term inner') := by
  unfold term
  rw [h.bound]
  exact alike_binary .term _ (alike_factor h)

theorem alike_comparison (h : inner.Alike depth inner') :
    Alike depth (comparison inner) (comparison inner') := by
  unfold comparison
  rw [h.bound]
  exact alike_binary .comparison _ (alike_term h)

theorem alike_equality (h : inner.Alike depth inner') :
    Alike depth (equality inner) (equality inner') := by
  unfold equality
  rw [h.bound]
  exact alike_binary .equality _ (alike_comparison h)

theorem alike_both (h : inner.Alike depth inner') : Alike depth (both inner) (both inner') := by
  unfold both
  rw [h.bound]
  exact alike_logical .both _ (alike_equality h)

theorem alike_either (h : inner.Alike depth inner') :
    Alike depth (either inner) (either inner') := by
  unfold either
  rw [h.bound]
  exact alike_logical .either _ (alike_both h)

theorem alike_conditional (h : inner.Alike depth inner') :
    Alike depth (conditional inner) (conditional inner') := by
  refine (alike_either h).use fun condition => (alike_accept _).use fun _ => ?_
  refine .ite ?_ (alike_pure condition)
  refine h.expression.use fun thenBranch => (alike_expect _).use fun _ => ?_
  exact h.conditional.use fun elseBranch => alike_pure _

theorem alike_assignTo (target value : Expr) (equals : Token) :
    Alike depth (assignTo target equals value) (assignTo target equals value) := by
  cases target with
  | «variable» ref => exact alike_freshId.use fun id => alike_pure _
  | get object name => exact alike_pure _
  | _ => exact (alike_note _).use fun _ => alike_pure _

theorem alike_assignment (h : inner.Alike depth inner') :
    Alike depth (assignment inner) (assignment inner') := by
  refine (alike_conditional h).use fun target => alike_peek.use fun token => ?_
  refine .ite ?_ (alike_pure target)
  exact alike_advance.use fun _ => h.assignment.use fun value => alike_assignTo target value token

theorem alike_expression (h : inner.Alike depth inner') :
    Alike depth (expression inner) (expression inner') := by
  unfold expression
  rw [h.bound]
  exact (alike_assignment h).use fun left => alike_leftNested _ _ (alike_assignment h) _ left

/-! ## Statements -/

theorem alike_optionalBefore (symbol : Symbol) {rule rule' : Rule Expr}
    (h : Alike depth rule rule') :
    Alike depth (optionalBefore symbol rule) (optionalBefore symbol rule') :=
  (alike_atSymbol symbol).use fun _ => .ite (alike_pure none) (h.use fun _ => alike_pure _)

theorem alike_varDecl (h : inner.Alike depth inner') :
    Alike depth (varDecl inner) (varDecl inner') := by
  refine (alike_expectName _).use fun name => (alike_accept _).use fun _ => ?_
  refine .optional (h.expression.map some) fun initial => ?_
  exact (alike_expect _).use fun _ => alike_pure _

theorem alike_expressionStatement {rule rule' : Rule Expr} (h : Alike depth rule rule') :
    Alike depth (expressionStatement rule) (expressionStatement rule') :=
  h.use fun _ => (alike_expect _).use fun _ => alike_pure _

theorem alike_forInitial (h : inner.Alike depth inner') :
    Alike depth (forInitial inner) (forInitial inner') := by
  refine (alike_accept _).use fun _ => .ite (alike_pure none) ?_
  refine (alike_acceptWord _).use fun _ => .ite ?_ ?_
  · exact (alike_varDecl h).use fun s => alike_pure _
  · exact (alike_expressionStatement h.expression).use fun s => alike_pure _

/-- There is a loop more around the body of one. -/
theorem alike_forStatement (h : inner.Alike depth inner')
    (hbody : Alike (depth + 1) (inner.read .statement) (inner'.read .statement)) :
    Alike depth (forStatement inner) (forStatement inner') := by
  refine (alike_expect _).use fun _ => (alike_forInitial h).use fun initial => ?_
  refine (alike_optionalBefore _ h.expression).use fun condition => (alike_expect _).use fun _ => ?_
  refine (alike_optionalBefore _ h.expression).use fun increment => (alike_expect _).use fun _ => ?_
  exact (hbody.withLoopDepth (· + 1)).use fun body => alike_pure _

theorem alike_whileStatement (h : inner.Alike depth inner')
    (hbody : Alike (depth + 1) (inner.read .statement) (inner'.read .statement)) :
    Alike depth (whileStatement inner) (whileStatement inner') := by
  refine (alike_expect _).use fun _ => h.expression.use fun condition => ?_
  refine (alike_expect _).use fun _ => ?_
  exact (hbody.withLoopDepth (· + 1)).use fun body => alike_pure _

theorem alike_ifStatement (h : inner.Alike depth inner')
    (hbranch : Alike depth (inner.read .statement) (inner'.read .statement)) :
    Alike depth (ifStatement inner) (ifStatement inner') := by
  refine (alike_expect _).use fun _ => h.expression.use fun condition => ?_
  refine (alike_expect _).use fun _ => hbranch.use fun thenBranch => ?_
  refine (alike_acceptWord _).use fun _ => ?_
  exact .optional (hbranch.map some) fun elseBranch => alike_pure _

theorem alike_returnStatement (h : inner.Alike depth inner') (line : Nat) :
    Alike depth (returnStatement inner line) (returnStatement inner' line) :=
  (alike_optionalBefore _ h.expression).use fun _ => (alike_expect _).use fun _ => alike_pure _

theorem alike_printStatement (h : inner.Alike depth inner') :
    Alike depth (printStatement inner) (printStatement inner') :=
  h.expression.use fun _ => (alike_expect _).use fun _ => alike_pure _

/-! ## Declarations -/

theorem alike_withClause (bound : Nat) : Alike depth (withClause bound) (withClause bound) :=
  (alike_acceptWord _).use fun _ =>
    .ite (alike_commaSeparated (fun _ => alike_reference _) bound 0) (alike_pure [])

theorem alike_classMember (h : inner.Alike depth inner') :
    Alike depth (classMember inner) (classMember inner') :=
  (alike_acceptWord _).use fun _ => (alike_namedFunction h _).use fun _ => alike_pure _

theorem alike_classDecl (h : inner.Alike depth inner') :
    Alike depth (classDecl inner) (classDecl inner') := by
  unfold classDecl
  rw [h.bound]
  refine (alike_expectName _).use fun name => (alike_accept _).use fun _ => ?_
  refine .optional ((alike_reference _).map some) fun superclass => ?_
  refine (alike_withClause _).use fun traits => (alike_expect _).use fun _ => ?_
  refine (alike_untilBrace (alike_classMember h) _).use fun members => ?_
  exact (alike_expect _).use fun _ => alike_pure _

theorem alike_traitDecl (h : inner.Alike depth inner') :
    Alike depth (traitDecl inner) (traitDecl inner') := by
  unfold traitDecl
  rw [h.bound]
  refine (alike_expectName _).use fun name => (alike_withClause _).use fun traits => ?_
  refine (alike_expect _).use fun _ => ?_
  refine (alike_untilBrace (alike_namedFunction h _) _).use fun methods => ?_
  exact (alike_expect _).use fun _ => alike_pure _

end

end

end Grammar

end LoxLang
