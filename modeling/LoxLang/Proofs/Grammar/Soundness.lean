import LoxLang.Proofs.Grammar.Derivable

/-!
# What each rule reads

Every rule of the grammar reads what is derived from its production. The rules come back to each
other through `Rules`, so that each lemma assumes of the categories within a rule what
`yields_ruleAt` concludes by induction on the budget.
-/

namespace LoxLang

namespace Grammar

/-- The production of a category. -/
def Category.nonterminal : Category → Nonterminal
  | .expression => .expression
  | .assignment => .assignment
  | .conditional => .conditional
  | .unary => .unary
  | .statement => .statement
  | .declaration => .declaration

/-- Rules that read what is derived from each category. -/
def Rules.Yielding (inner : Rules) : Prop :=
  ∀ loop category, Yields loop (inner.read category) (.of category.nonterminal)

variable {inner : Rules} {loop : Bool}

/-! ## Functions -/

theorem parses_parameter (count : Nat) :
    Parses loop (parameter count) fun w _ =>
      Derives loop .name w ∧ ∀ most ∈ some 254, count ≤ most := by
  refine (parses_checkArity _ _).use fun _ => (yields_expectName _).mono ?_
  rintro v _ hv u ⟨rfl, hcount⟩
  refine ⟨hv, fun most hmost => ?_⟩
  obtain rfl := Option.some.inj hmost
  exact Nat.le_of_lt_succ hcount

theorem yields_parameters :
    Yields loop (commaSeparated parameter inner.bound 0) (.of .parameters) :=
  (parses_commaSeparated parses_parameter inner.bound 0).mono fun _ _ h => .of h.1

theorem yields_block (h : inner.Yielding) :
    Yields loop (block inner) (.seq [.many none (.of .declaration), .symbol .rightBrace]) :=
  (yields_untilBrace (h loop .declaration) inner.bound).cons fun _ =>
    (yields_expect .blockClose).cons fun _ => parses_pure .nil

theorem yields_functionBody (h : inner.Yielding) (callable : Callable) :
    Yields loop (do
      let _ ← expect (.bodyOpen callable)
      withLoopDepth (fun _ => 0) (block inner)) (.functionBody (.of .block)) := by
  refine (yields_expect (.bodyOpen callable)).use fun _ => ?_
  have hbody : Yields false (block inner) _ := yields_block h
  refine (parses_withLoopDepth hbody fun _ _ => by simp).mono fun v _ hv w hw => ?_
  obtain ⟨t, rfl, ht⟩ := derives_symbol.mp hw
  exact .functionBody (.of (.cons (.symbol ht) hv))

theorem yields_function (h : inner.Yielding) (callable : Callable) :
    Yields loop (function inner callable) (.seq Phrase.callable) := by
  have hrest : ∀ params : List Name, Yields loop (do
      let _ ← expect .parametersClose
      let _ ← expect (.bodyOpen callable)
      let body ← withLoopDepth (fun _ => 0) (block inner)
      return Function.mk params body)
      (.seq [.symbol .rightParen, .functionBody (.of .block)]) := by
    intro params
    refine (yields_expect .parametersClose).cons fun _ => ?_
    rw [← bind_assoc]
    exact (yields_functionBody h callable).cons fun _ => parses_pure .nil
  refine (yields_expect (.parametersOpen callable)).cons fun _ => ?_
  refine (parses_atSymbol _).skip fun _ => parses_ite (fun _ => ?_) fun _ => ?_
  · exact (hrest []).mono fun _ _ hw => .cons .absent hw
  · refine yields_parameters.use fun params => (hrest params).mono fun _ _ hv _ hw => ?_
    exact .cons (.present hw) hv

theorem yields_namedFunction (h : inner.Yielding) (callable : Callable) :
    Yields loop (namedFunction inner callable) (.of .function) := by
  refine (yields_expectName _).use fun name => (yields_function h callable).use fun _ => ?_
  refine parses_pure fun v hv w hw => ?_
  rw [List.append_nil]
  exact .of (.cons hw hv)

/-! ## Expressions -/

/-- An operand is read from a phrase, and one that may be assigned to from a target. -/
def Operand (loop : Bool) (p : Phrase) (w : List Token) (e : Expr) : Prop :=
  Derives loop p w ∧ (e.Assignable → Derives loop .target w)

theorem Operand.rigid {p : Phrase} {w : List Token} {e : Expr} (h : Derives loop p w)
    (he : ¬ e.Assignable) : Operand loop p w e :=
  ⟨h, fun hassignable => absurd hassignable he⟩

theorem Derives.alternative {n : Nonterminal} {p : Phrase} {ps : List Phrase} {w : List Token}
    (hn : production n = .choice ps) (mem : p ∈ ps) (h : Derives loop p w) :
    Derives loop (.of n) w := by
  refine .of ?_
  rw [hn]
  exact .choice mem h

/-- A single token that is an alternative of an operand. -/
theorem parsesAt_literal {t : Token} (l : Literal) (h : Derives loop (.of .primary) [t]) :
    ParsesAt loop t (do
      advance
      return Expr.literal l) (Operand loop (.of .primary)) := by
  refine (parsesAt_advance (h.ne_eof t (by simp))).use fun _ => parses_pure fun w hw => ?_
  rw [hw]
  exact .rigid h id

theorem parses_primary (h : inner.Yielding) :
    Parses loop (primary inner) (Operand loop (.of .primary)) := by
  refine parses_peek fun t => ?_
  split
  · next hkind =>
    refine (parsesAt_advance (by simp [hkind])).use fun _ => ?_
    refine (yields_function h .function).use fun _ => parses_pure fun v hv w hw => ?_
    rw [hw, List.append_nil]
    have hlambda : Derives loop (.seq (.word .funWord :: Phrase.callable)) ([t] ++ v) :=
      .cons (.word hkind (by simp)) hv
    exact .rigid (hlambda.alternative rfl (by simp)) id
  · next hkind =>
    have ht : Derives loop (.word .falseWord) [t] := .word hkind (by simp)
    exact parsesAt_literal _ (ht.alternative rfl (by simp))
  · next hkind =>
    have ht : Derives loop (.word .trueWord) [t] := .word hkind (by simp)
    exact parsesAt_literal _ (ht.alternative rfl (by simp))
  · next hkind =>
    have ht : Derives loop (.word .nilWord) [t] := .word hkind (by simp)
    exact parsesAt_literal _ (ht.alternative rfl (by simp))
  · next hkind => exact parsesAt_literal _ ((Derives.number hkind).alternative rfl (by simp))
  · next hkind => exact parsesAt_literal _ ((Derives.text hkind).alternative rfl (by simp))
  · next hkind =>
    refine (parsesAt_advance (by simp [hkind])).use fun _ => parses_freshId.use fun _ => ?_
    refine parses_pure fun v hv w hw => ?_
    rw [hw, hv]
    have ht : Derives loop (.word .thisWord) [t] := .word hkind (by simp)
    exact .rigid (ht.alternative rfl (by simp)) id
  · next hkind =>
    refine (parsesAt_advance (by simp [hkind])).use fun _ => (yields_expect .superDot).use fun _ => ?_
    refine (yields_expectName _).use fun _ => parses_freshId.use fun _ => ?_
    refine parses_pure fun v hv w hw u hu r hr => ?_
    simp only [hr, hv, List.append_nil]
    have hsuper : Derives loop (.seq [.word .superWord, .symbol .dot, .name]) ([t] ++ (u ++ w)) :=
      .cons (.word hkind (by simp)) (derives_pair.mpr ⟨u, w, rfl, hu, hw⟩)
    exact .rigid (hsuper.alternative rfl (by simp)) id
  · next name hkind =>
    refine (parsesAt_advance (by simp [hkind])).use fun _ => parses_freshId.use fun _ => ?_
    refine parses_pure fun v hv w hw => ?_
    rw [hw, hv]
    have hname : Derives loop .name [t] := .name hkind
    refine ⟨hname.alternative rfl (by simp), fun _ => ?_⟩
    exact derives_pair.mpr ⟨[], [t], rfl, .absent, hname⟩
  · next hkind =>
    refine (parsesAt_advance (by simp [hkind])).use fun _ => (h loop .expression).use fun _ => ?_
    refine (yields_expect .groupClose).use fun _ => parses_pure fun v hv w hw u hu => ?_
    rw [hu, List.append_nil]
    have hgroup : Derives loop (.seq [.symbol .leftParen, .of .expression, .symbol .rightParen])
        ([t] ++ (w ++ v)) := .cons (.symbol hkind) (derives_pair.mpr ⟨w, v, rfl, hw, hv⟩)
    exact .rigid (hgroup.alternative rfl (by simp)) id
  · exact parses_failHere t

theorem parses_argument (h : inner.Yielding) (count : Nat) :
    Parses loop (argument inner count) fun w _ =>
      Derives loop (.of .assignment) w ∧ ∀ most ∈ some 254, count ≤ most := by
  refine (parses_checkArity _ _).use fun _ => (h loop .assignment).mono ?_
  rintro v _ hv u ⟨rfl, hcount⟩
  refine ⟨hv, fun most hmost => ?_⟩
  obtain rfl := Option.some.inj hmost
  exact Nat.le_of_lt_succ hcount

theorem yields_arguments (h : inner.Yielding) :
    Yields loop (arguments inner) (.seq [.optional (.of .arguments), .symbol .rightParen]) := by
  have hclose : ∀ args : List Expr, Yields loop (do
      let line ← expect .argumentsClose
      return (args, line)) (.seq [.symbol .rightParen]) :=
    fun args => (yields_expect .argumentsClose).cons fun _ => parses_pure .nil
  refine (parses_atSymbol _).skip fun _ => parses_ite (fun _ => ?_) fun _ => ?_
  · exact (hclose []).mono fun _ _ hw => .cons .absent hw
  · refine (parses_commaSeparated (parses_argument h) inner.bound 0).use fun args => ?_
    exact (hclose args).mono fun _ _ hv _ hw => .cons (.present (.of hw.1)) hv

/-- What may stand behind an operand. -/
def Phrase.suffix : Phrase :=
  .choice [.seq [.symbol .leftParen, .optional (.of .arguments), .symbol .rightParen],
    .seq [.symbol .dot, .name]]

/-- Behind an operand only the access to a property makes something to assign to. -/
theorem parses_suffixes (h : inner.Yielding) (budget : Nat) (e : Expr) :
    Parses loop (suffixes inner budget e) fun w whole =>
      Derives loop (.many none .suffix) w ∧
        (whole.Assignable → w = [] ∧ whole = e ∨
          ∃ u v, w = u ++ v ∧ Derives loop (.many none .suffix) u ∧
            Derives loop (.seq [.symbol .dot, .name]) v) := by
  induction budget generalizing e with
  | zero => exact parses_pure ⟨.done, fun _ => .inl ⟨rfl, rfl⟩⟩
  | succ budget ih =>
    refine parses_peek fun t => ?_
    split
    · next hkind =>
      refine (parsesAt_advance (by simp [hkind])).use fun _ => (yields_arguments h).use fun found => ?_
      obtain ⟨args, line⟩ := found
      refine (ih (.call e args line)).mono ?_
      rintro w whole ⟨hmany, hwhole⟩ v hv u rfl
      have hcall : Derives loop .suffix ([t] ++ v) :=
        .choice (by simp) (.cons (.symbol hkind) hv)
      rw [← List.append_assoc]
      refine ⟨.again (by simp) hcall hmany, fun hassignable => ?_⟩
      rcases hwhole hassignable with ⟨rfl, rfl⟩ | ⟨u, v', rfl, hu, hv'⟩
      · exact hassignable.elim
      · exact .inr ⟨_, v', (List.append_assoc _ _ _).symm, .again (by simp) hcall hu, hv'⟩
    · next hkind =>
      refine (parsesAt_advance (by simp [hkind])).use fun _ => (yields_expectName _).use fun name => ?_
      refine (ih (.get e name)).mono ?_
      rintro w whole ⟨hmany, hwhole⟩ v hv u rfl
      have hget : Derives loop (.seq [.symbol .dot, .name]) ([t] ++ v) :=
        derives_pair.mpr ⟨[t], v, rfl, .symbol hkind, hv⟩
      have hsuffix : Derives loop .suffix ([t] ++ v) := .choice (by simp) hget
      rw [← List.append_assoc]
      refine ⟨.again (by simp) hsuffix hmany, fun hassignable => ?_⟩
      rcases hwhole hassignable with ⟨rfl, rfl⟩ | ⟨u, v', rfl, hu, hv'⟩
      · exact .inr ⟨[], _, by simp, .done, hget⟩
      · exact .inr ⟨_, v', (List.append_assoc _ _ _).symm, .again (by simp) hsuffix hu, hv'⟩
    · exact parses_pure ⟨.done, fun _ => .inl ⟨rfl, rfl⟩⟩ t

theorem parses_call (h : inner.Yielding) :
    Parses loop (call inner) (Operand loop (.of .call)) := by
  refine (parses_primary h).use fun e => (parses_suffixes h inner.bound e).mono ?_
  rintro v whole ⟨hmany, hwhole⟩ w ⟨hw, htarget⟩
  refine ⟨.of (derives_pair.mpr ⟨w, v, rfl, hw, hmany⟩), fun hassignable => ?_⟩
  rcases hwhole hassignable with ⟨rfl, rfl⟩ | ⟨u, v', rfl, hu, hv'⟩
  · rw [List.append_nil]
    exact htarget hassignable
  · obtain ⟨dot, name, rfl, hdot, hname⟩ := derives_pair.mp hv'
    have hcall : Derives loop (.of .call) (w ++ u) := .of (derives_pair.mpr ⟨w, u, rfl, hw, hu⟩)
    have hpath := derives_pair.mpr ⟨w ++ u, dot, rfl, hcall, hdot⟩
    refine derives_pair.mpr ⟨_, name, ?_, .present hpath, hname⟩
    simp only [List.append_assoc]

theorem parses_unary (h : inner.Yielding) :
    Parses loop (unary inner) (Operand loop (.of .unary)) := by
  refine parses_peek fun t => ?_
  split
  · next op hop =>
    have ht : Derives loop (.choice [.symbol .bang, .symbol .minus]) [t] := by
      unfold unaryOp? at hop
      split at hop
      · next hkind => exact .choice (by simp) (.symbol hkind)
      · next hkind => exact .choice (by simp) (.symbol hkind)
      · cases hop
    refine (parsesAt_advance (ht.ne_eof t (by simp))).use fun _ => (h loop .unary).use fun _ => ?_
    refine parses_pure fun v (hv : Derives loop (.of .unary) v) w hw => ?_
    rw [hw, List.append_nil]
    have hunary := derives_pair.mpr ⟨[t], v, rfl, ht, hv⟩
    exact .rigid (hunary.alternative rfl (by simp)) id
  · refine (parses_call h).mono ?_ t
    rintro w e ⟨hw, htarget⟩
    exact ⟨hw.alternative rfl (by simp), htarget⟩

/-- The operators of a level as they stand in its production. -/
def Level.operators : Level → List Phrase
  | equality => [.symbol .bangEqual, .symbol .equalEqual]
  | comparison => [.symbol .greater, .symbol .greaterEqual, .symbol .less, .symbol .lessEqual]
  | term => [.symbol .minus, .symbol .plus]
  | factor => [.symbol .slash, .symbol .star]

theorem derives_operator {level : Level} {t : Token} {op : BinaryOp}
    (h : level.operator? t = some op) : Derives loop (.choice level.operators) [t] := by
  unfold Level.operator? at h
  split at h
  all_goals first
    | cases h; done
    | next hkind => exact .choice (by simp [Level.operators]) (.symbol hkind)

/-- Operands joined by operators; a single one keeps what is said of it. -/
theorem parses_joined {ω : Type} {operator? : Token → Option ω} {operators : List Phrase}
    {p : Phrase} {operand : Rule Expr} {build : Expr → ω → Nat → Expr → Expr} {bound : Nat}
    (h : Parses loop operand (Operand loop p))
    (hoperator : ∀ t op, operator? t = some op → Derives loop (.choice operators) [t])
    (hbuild : ∀ left op line right, ¬ (build left op line right).Assignable) :
    Parses loop (operand >>= leftNested operator? operand build bound)
      (Operand loop (.joined p operators)) := by
  refine h.use fun e => ?_
  refine (parses_leftNested (h.mono fun _ _ => And.left) hoperator hbuild bound e).mono ?_
  rintro v whole ⟨hmany, hwhole⟩ w ⟨hw, htarget⟩
  refine ⟨derives_pair.mpr ⟨w, v, rfl, hw, hmany⟩, fun hassignable => ?_⟩
  obtain ⟨rfl, rfl⟩ := hwhole hassignable
  rw [List.append_nil]
  exact htarget hassignable

theorem Operand.of {n : Nonterminal} {w : List Token} {e : Expr}
    (h : Operand loop (production n) w e) : Operand loop (.of n) w e :=
  ⟨.of h.1, h.2⟩

theorem parses_binary {n : Nonterminal} {p : Phrase} {operand : Rule Expr} (level : Level)
    (bound : Nat) (hn : production n = .joined p level.operators)
    (h : Parses loop operand (Operand loop p)) :
    Parses loop (binary level bound operand) (Operand loop (.of n)) := by
  refine parses_peek fun t => ?_
  split
  · next hop =>
    cases hoperator : level.operator? t with
    | none => simp [hoperator] at hop
    | some op =>
      have ht : Derives loop (.choice level.operators) [t] := derives_operator hoperator
      refine (parsesAt_advance (ht.ne_eof t (by simp))).use fun _ => h.use fun _ => ?_
      exact parses_throw
  · refine (parses_joined h (fun _ _ => derives_operator) (fun _ _ _ _ => id)).mono ?_ t
    intro w e he
    rw [← hn] at he
    exact he.of

theorem parses_logical {n : Nonterminal} {p : Phrase} {operand : Rule Expr} (op : LogicalOp)
    (bound : Nat) (hn : production n = .joined p [.word op.keyword])
    (h : Parses loop operand (Operand loop p)) :
    Parses loop (logical op bound operand) (Operand loop (.of n)) := by
  have hop : op.keyword ≠ .breakWord := by cases op <;> decide
  have hoperator : ∀ t op', logicalOp? op t = some op' →
      Derives loop (.choice [.word op.keyword]) [t] := by
    intro t op' h'
    unfold logicalOp? at h'
    split at h'
    · next hword => exact .choice (by simp) (.word (kind_of_isWord hword) fun h => absurd h hop)
    · cases h'
  refine (parses_joined h hoperator fun _ _ _ _ => id).mono fun w e he => ?_
  rw [← hn] at he
  exact he.of

theorem parses_either (h : inner.Yielding) :
    Parses loop (either inner) (Operand loop (.of .logicOr)) := by
  have hfactor : Parses loop (factor inner) (Operand loop (.of .factor)) :=
    parses_binary .factor inner.bound rfl (parses_unary h)
  have hterm : Parses loop (term inner) (Operand loop (.of .term)) :=
    parses_binary .term inner.bound rfl hfactor
  have hcomparison : Parses loop (comparison inner) (Operand loop (.of .comparison)) :=
    parses_binary .comparison inner.bound rfl hterm
  have hequality : Parses loop (equality inner) (Operand loop (.of .equality)) :=
    parses_binary .equality inner.bound rfl hcomparison
  have hboth : Parses loop (both inner) (Operand loop (.of .logicAnd)) :=
    parses_logical .both inner.bound rfl hequality
  exact parses_logical .either inner.bound rfl hboth

theorem parses_conditional (h : inner.Yielding) :
    Parses loop (conditional inner) (Operand loop (.of .conditional)) := by
  refine (parses_either h).use fun condition => parses_ifAccept .questionMark ?_ ?_
  · refine (h loop .expression).use fun _ => (yields_expect .conditionalMiddle).use fun _ => ?_
    refine (h loop .conditional).use fun _ => parses_pure ?_
    intro r hr v hv u hu q hq w hw
    rw [List.append_nil]
    have hbranches : Derives loop (.seq [.symbol .questionMark, .of .expression, .symbol .colon,
        .of .conditional]) (q ++ (u ++ (v ++ r))) :=
      .cons hq (.cons hu (derives_pair.mpr ⟨v, r, rfl, hv, hr⟩))
    exact .rigid (.of (derives_pair.mpr ⟨w, _, rfl, hw.1, .present hbranches⟩)) id
  · refine parses_pure fun w hw => ?_
    rw [List.append_nil]
    exact ⟨.of (derives_pair.mpr ⟨w, [], by simp, hw.1, .absent⟩), hw.2⟩

/-- A value is only assigned to what was read from a target. -/
theorem parses_assignTo (target value : Expr) (equals : Token)
    (hequals : equals.kind = .symbol .equal) :
    Parses loop (assignTo target equals value) fun u _ =>
      ∀ v, Derives loop (.of .assignment) v → ∀ q, q = [equals] →
        ∀ w, Operand loop (.of .conditional) w target →
          Derives loop (.of .assignment) (w ++ (q ++ (v ++ u))) := by
  have hassign : target.Assignable → ∀ v, Derives loop (.of .assignment) v →
      ∀ q, q = [equals] → ∀ w, Operand loop (.of .conditional) w target →
        Derives loop (.of .assignment) (w ++ (q ++ (v ++ []))) := by
    rintro hassignable v hv _ rfl w hw
    obtain ⟨path, name, rfl, hpath, hname⟩ := derives_pair.mp (hw.2 hassignable)
    have hvalue := derives_pair.mpr ⟨[equals], v, rfl, .symbol hequals, hv⟩
    have hparts := Derives.cons hpath (.cons hname hvalue)
    rw [List.append_nil, List.append_assoc]
    exact hparts.alternative rfl (by simp)
  unfold assignTo
  split
  · refine parses_freshId.use fun _ => parses_pure fun u hu => ?_
    rw [hu]
    exact hassign trivial
  · exact parses_pure (hassign trivial)
  · exact parses_note.use fun _ => parses_pure fun _ h => h

theorem yields_assignment (h : inner.Yielding) :
    Yields loop (assignment inner) (.of .assignment) := by
  refine (parses_conditional h).use fun target => parses_peek fun t => ?_
  split
  · next hequal =>
    have hkind := kind_of_isSymbol hequal
    refine (parsesAt_advance (by simp [hkind])).use fun _ => (h loop .assignment).use fun value => ?_
    exact parses_assignTo target value t hkind
  · refine parses_pure (fun w hw => ?_) t
    rw [List.append_nil]
    exact hw.1.alternative rfl (by simp)

theorem yields_expression (h : inner.Yielding) :
    Yields loop (expression inner) (.of .expression) := by
  have hcomma : ∀ t op, comma? t = some op → Derives loop (.symbol .comma) [t] := by
    intro t op hop
    unfold comma? at hop
    split at hop
    · next hsymbol => exact .symbol (kind_of_isSymbol hsymbol)
    · cases hop
  refine (yields_assignment h).use fun e => ?_
  refine (parses_leftNested (yields_assignment h) hcomma (fun _ _ _ _ => id) _ e).mono ?_
  rintro v _ ⟨hmany, _⟩ w hw
  exact .of (.of (derives_pair.mpr ⟨w, v, rfl, hw, hmany⟩))

/-! ## Statements -/

theorem yields_optionalBefore {p : Phrase} {rule : Rule Expr} (symbol : Symbol)
    (h : Yields loop rule p) : Yields loop (optionalBefore symbol rule) (.optional p) := by
  refine (parses_atSymbol _).skip fun _ => parses_ite (fun _ => parses_pure .absent) fun _ => ?_
  refine h.use fun _ => parses_pure fun w hw => ?_
  rw [List.append_nil]
  exact .present hw

/-- A part behind a token that may be left out together with it. -/
theorem derives_prefixed {p q : Phrase} {ps : List Phrase} {u v w : List Token}
    (hu : Derives loop p u) (hv : Derives loop q v) (hw : Derives loop (.seq ps) w) :
    Derives loop (.seq (.optional (.seq [p, q]) :: ps)) (u ++ (v ++ w)) := by
  have hboth := Derives.cons (.present (derives_pair.mpr ⟨u, v, rfl, hu, hv⟩)) hw
  rwa [List.append_assoc] at hboth

/-- A variable declaration behind its word. -/
theorem yields_varDecl (h : inner.Yielding) :
    Yields loop (varDecl inner) (.seq [.name,
      .optional (.seq [.symbol .equal, .of .expression]), .symbol .semicolon]) := by
  refine (yields_expectName .ofVariable).cons fun name => ?_
  have hend : ∀ initial : Option Expr, Yields loop (do
      let _ ← expect .declarationEnd
      return Stmt.varDecl name initial) (.seq [.symbol .semicolon]) :=
    fun initial => (yields_expect .declarationEnd).cons fun _ => parses_pure .nil
  refine parses_ifAccept .equal ?_ ?_
  · rw [map_eq_pure_bind, bind_assoc]
    refine (h loop .expression).use fun e => ?_
    rw [pure_bind]
    exact (hend (some e)).mono fun w _ hw v hv u hu => derives_prefixed hu hv hw
  · exact (hend none).mono fun w _ hw => .cons .absent hw

theorem yields_expressionStatement {rule : Rule Expr} (h : Yields loop rule (.of .expression)) :
    Yields loop (expressionStatement rule) (.of .exprStmt) := by
  refine h.use fun _ => (yields_expect .expressionEnd).use fun _ => parses_pure ?_
  intro v hv w hw
  rw [List.append_nil]
  exact .of (derives_pair.mpr ⟨w, v, rfl, hw, hv⟩)

/-- The word of a `break` is in place where the rest is read. -/
theorem parses_breakLoop (word : Token) (hword : word.kind = .keyword .breakWord) :
    Parses loop (breakLoop word) fun w _ => Derives loop (.of .statement) ([word] ++ w) := by
  refine parses_loopDepth fun depth hdepth => parses_ite (fun _ => parses_throw) fun hne => ?_
  refine (yields_expect .breakEnd).use fun _ => parses_pure fun w hw => ?_
  have hbreak : Derives loop (.word .breakWord) [word] := .word hword fun _ => hdepth.mp hne
  have hstmt : Derives loop (.of .breakStmt) ([word] ++ w) :=
    .of (derives_pair.mpr ⟨[word], w, rfl, hbreak, hw⟩)
  rw [List.append_nil]
  exact hstmt.alternative rfl (by simp)

theorem yields_forInitial (h : inner.Yielding) :
    Yields loop (forInitial inner)
      (.choice [.of .varDecl, .of .exprStmt, .symbol .semicolon]) := by
  refine parses_ifAccept .semicolon ?_ (parses_ifWord .varWord (by decide) ?_ ?_)
  · refine parses_pure fun w hw => ?_
    rw [List.append_nil]
    exact .choice (by simp) hw
  · refine (yields_varDecl h).use fun _ => parses_pure fun v hv w hw => ?_
    have hdecl : Derives loop (.of .varDecl) (w ++ v) := .of (.cons hw hv)
    rw [List.append_nil]
    exact .choice (by simp) hdecl
  · refine (yields_expressionStatement (h loop .expression)).use fun _ => parses_pure ?_
    intro w hw
    rw [List.append_nil]
    exact .choice (by simp) hw

/-- The body of a loop. -/
theorem yields_loopBody (h : inner.Yielding) :
    Yields loop (withLoopDepth (· + 1) (inner.read .statement)) (.loopBody (.of .statement)) := by
  refine (parses_withLoopDepth (h true .statement) ?_).mono fun _ _ hw => .loopBody hw
  intro depth _
  simp

theorem yields_forStatement (h : inner.Yielding) :
    Yields loop (forStatement inner) (.seq [.symbol .leftParen,
      .choice [.of .varDecl, .of .exprStmt, .symbol .semicolon], .optional (.of .expression),
      .symbol .semicolon, .optional (.of .expression), .symbol .rightParen,
      .loopBody (.of .statement)]) := by
  refine (yields_expect .forOpen).cons fun _ => (yields_forInitial h).cons fun _ => ?_
  refine (yields_optionalBefore .semicolon (h loop .expression)).cons fun _ => ?_
  refine (yields_expect .forMiddle).cons fun _ => ?_
  refine (yields_optionalBefore .rightParen (h loop .expression)).cons fun _ => ?_
  refine (yields_expect .forClose).cons fun _ => ?_
  exact (yields_loopBody h).cons fun _ => parses_pure .nil

theorem yields_ifStatement (h : inner.Yielding) :
    Yields loop (ifStatement inner) (.seq [.symbol .leftParen, .of .expression,
      .symbol .rightParen, .of .statement,
      .optional (.seq [.word .elseWord, .of .statement])]) := by
  refine (yields_expect .ifOpen).cons fun _ => (h loop .expression).cons fun condition => ?_
  refine (yields_expect .ifClose).cons fun _ => (h loop .statement).cons fun thenBranch => ?_
  refine parses_ifWord .elseWord (by decide) ?_ (parses_pure (derives_single.mpr .absent))
  rw [map_eq_pure_bind, bind_assoc]
  refine (h loop .statement).use fun elseBranch => ?_
  rw [pure_bind]
  exact parses_pure fun v hv u hu => derives_prefixed hu hv .nil

theorem yields_whileStatement (h : inner.Yielding) :
    Yields loop (whileStatement inner) (.seq [.symbol .leftParen, .of .expression,
      .symbol .rightParen, .loopBody (.of .statement)]) := by
  refine (yields_expect .whileOpen).cons fun _ => (h loop .expression).cons fun _ => ?_
  refine (yields_expect .whileClose).cons fun _ => ?_
  exact (yields_loopBody h).cons fun _ => parses_pure .nil

theorem yields_returnStatement (h : inner.Yielding) (line : Nat) :
    Yields loop (returnStatement inner line)
      (.seq [.optional (.of .expression), .symbol .semicolon]) := by
  refine (yields_optionalBefore .semicolon (h loop .expression)).cons fun _ => ?_
  exact (yields_expect .returnEnd).cons fun _ => parses_pure .nil

theorem yields_printStatement (h : inner.Yielding) :
    Yields loop (printStatement inner) (.seq [.of .expression, .symbol .semicolon]) :=
  (h loop .expression).cons fun _ => (yields_expect .printEnd).cons fun _ => parses_pure .nil

/-- A statement that begins with a word of its own. -/
theorem parsesAt_keyword {t : Token} (n : Nonterminal) {ps : List Phrase} {p : Phrase}
    {rule : Rule Stmt} (h : Yields loop rule (.seq ps)) (ht : Derives loop p [t])
    (hn : production n = .seq (p :: ps)) (mem : Phrase.of n ∈ [Phrase.of .exprStmt,
      .of .printStmt, .of .whileStmt, .of .forStmt, .of .ifStmt, .of .block, .of .returnStmt,
      .of .breakStmt]) :
    ParsesAt loop t (do
      advance
      rule) fun w _ => Derives loop (.of .statement) w := by
  refine (ParsesAt.cons ht fun _ => h).mono fun w _ hw => ?_
  rw [← hn] at hw
  exact hw.of.alternative rfl mem

theorem yields_statement (h : inner.Yielding) :
    Yields loop (statement inner) (.of .statement) := by
  refine parses_peek fun t => ?_
  split
  · next hkind =>
    refine (parsesAt_advance (by simp [hkind])).use fun _ => ?_
    refine (parses_breakLoop t hkind).mono fun w _ hw v hv => ?_
    rw [hv]
    exact hw
  · next hkind =>
    exact parsesAt_keyword .forStmt (yields_forStatement h) (.word hkind (by simp)) rfl (by simp)
  · next hkind =>
    exact parsesAt_keyword .ifStmt (yields_ifStatement h) (.word hkind (by simp)) rfl (by simp)
  · next hkind =>
    exact parsesAt_keyword .whileStmt (yields_whileStatement h) (.word hkind (by simp)) rfl (by simp)
  · next hkind =>
    exact parsesAt_keyword .returnStmt (yields_returnStatement h _) (.word hkind (by simp)) rfl (by simp)
  · next hkind =>
    have hblock : Yields loop (Stmt.block <$> block inner)
        (.seq [.many none (.of .declaration), .symbol .rightBrace]) := by
      rw [map_eq_pure_bind]
      refine (yields_block h).use fun _ => parses_pure fun w hw => ?_
      rwa [List.append_nil]
    rw [map_eq_pure_bind] at hblock
    exact parsesAt_keyword .block hblock (.symbol hkind) rfl (by simp)
  · next hkind =>
    exact parsesAt_keyword .printStmt (yields_printStatement h) (.word hkind (by simp)) rfl (by simp)
  · refine (yields_expressionStatement (yields_expression h)).mono (fun w _ hw => ?_) t
    exact hw.alternative rfl (by simp)

/-! ## Declarations -/

theorem yields_reference (role : NameRole) : Yields loop (reference role) .name := by
  refine (yields_expectName role).use fun _ => parses_freshId.use fun _ => ?_
  refine parses_pure fun v hv w hw => ?_
  rw [hv, List.append_nil, List.append_nil]
  exact hw

theorem yields_withClause (bound : Nat) :
    Yields loop (withClause bound) (.optional (.seq [.word .withWord, .of .traits])) := by
  have hitem : ∀ count, Parses loop (reference .ofTrait) fun w _ =>
      Derives loop .name w ∧ ∀ most ∈ (none : Option Nat), count ≤ most :=
    fun _ => (yields_reference .ofTrait).mono fun _ _ hw => ⟨hw, by simp⟩
  refine parses_ifWord .withWord (by decide) ?_ (parses_pure .absent)
  refine (parses_commaSeparated hitem bound 0).mono fun v _ hv w hw => ?_
  exact .present (derives_pair.mpr ⟨w, v, rfl, hw, .of hv.1⟩)

theorem yields_classMember (h : inner.Yielding) :
    Yields loop (classMember inner) (.seq [.optional (.word .classWord), .of .function]) := by
  refine (parses_acceptWord .classWord (by decide)).use fun found => ?_
  refine (yields_namedFunction h .method).use fun _ => parses_pure fun v hv w hw => ?_
  rw [List.append_nil]
  refine derives_pair.mpr ⟨w, v, rfl, derives_optional.mpr ?_, hv⟩
  cases found with
  | true => exact .inr hw
  | false => exact .inl hw

/-- A class behind its name and that of its superclass. -/
theorem yields_classBody (h : inner.Yielding)
    {last : List Reference → List (Bool × NamedFunction) → Rule Stmt}
    (hlast : ∀ traits members, Yields loop (last traits members) (.seq [])) :
    Yields loop (do
      let traits ← withClause inner.bound
      let _ ← expect .classOpen
      let members ← untilBrace (classMember inner) inner.bound
      let _ ← expect .classClose
      last traits members)
      (.seq [.optional (.seq [.word .withWord, .of .traits]), .symbol .leftBrace,
        .many none (.seq [.optional (.word .classWord), .of .function]),
        .symbol .rightBrace]) := by
  refine (yields_withClause _).cons fun traits => (yields_expect .classOpen).cons fun _ => ?_
  refine (yields_untilBrace (yields_classMember h) _).cons fun members => ?_
  exact (yields_expect .classClose).cons fun _ => hlast traits members

theorem yields_classDecl (h : inner.Yielding) :
    Yields loop (classDecl inner) (.seq [.name, .optional (.seq [.symbol .less, .name]),
      .optional (.seq [.word .withWord, .of .traits]), .symbol .leftBrace,
      .many none (.seq [.optional (.word .classWord), .of .function]), .symbol .rightBrace]) := by
  refine (yields_expectName .ofClass).cons fun name => parses_ifAccept .less ?_ ?_
  · rw [map_eq_pure_bind, bind_assoc]
    refine (yields_reference .ofSuperclass).use fun superclass => ?_
    rw [pure_bind]
    refine (yields_classBody h fun _ _ => parses_pure .nil).mono fun w _ hw v hv u hu => ?_
    exact derives_prefixed hu hv hw
  · exact (yields_classBody h fun _ _ => parses_pure .nil).mono fun w _ hw => .cons .absent hw

theorem yields_traitDecl (h : inner.Yielding) :
    Yields loop (traitDecl inner) (.seq [.name, .optional (.seq [.word .withWord, .of .traits]),
      .symbol .leftBrace, .many none (.of .function), .symbol .rightBrace]) := by
  refine (yields_expectName .ofTrait).cons fun _ => (yields_withClause _).cons fun _ => ?_
  refine (yields_expect .traitOpen).cons fun _ => ?_
  refine (yields_untilBrace (yields_namedFunction h .method) _).cons fun _ => ?_
  exact (yields_expect .traitClose).cons fun _ => parses_pure .nil

/-- What is decided by a named function at the cursor. -/
theorem parses_atNamedFunction {good : List Token → β → Prop} {next : Bool → Rule β}
    (h : ∀ t, t.kind = .keyword .funWord → ParsesAt loop t (next true) good)
    (h' : Parses loop (next false) good) : Parses loop (atNamedFunction >>= next) good := by
  intro t c hpeek hloop
  rw [ensures_bind]
  unfold Ensures atNamedFunction
  split
  · next a s hrule =>
    split at hrule
    · next line _ _ hrest =>
      cases hrule
      refine h t ?_ c hpeek hloop
      rw [← hpeek, Cursor.peek, hrest]
    · cases hrule
      exact h' t c hpeek hloop
  · next e s hrule => split at hrule <;> cases hrule

/-- A declaration behind its word. -/
theorem parses_declared {rule : Rule Stmt} {ps : List Phrase} (word : Keyword) (n : Nonterminal)
    (hn : production n = .seq (.word word :: ps)) (h : Yields loop rule (.seq ps))
    (mem : Phrase.of n ∈ [Phrase.of .classDecl, .of .traitDecl, .of .funDecl, .of .varDecl,
      .of .statement]) :
    Parses loop rule fun v _ => ∀ w, Derives loop (.word word) w →
      Derives loop (.of .declaration) (w ++ v) := by
  refine h.mono fun v _ hv w hw => ?_
  have hdecl := Derives.cons hw hv
  rw [← hn] at hdecl
  exact hdecl.of.alternative rfl mem

theorem yields_strictDeclaration (h : inner.Yielding) :
    Yields loop (strictDeclaration inner) (.of .declaration) := by
  refine parses_ifWord .classWord (by decide)
    (parses_declared .classWord .classDecl rfl (yields_classDecl h) (by simp)) ?_
  refine parses_ifWord .traitWord (by decide)
    (parses_declared .traitWord .traitDecl rfl (yields_traitDecl h) (by simp)) ?_
  refine parses_atNamedFunction (fun t ht => ?_) ?_
  · rw [if_pos rfl]
    refine (parsesAt_advance (by simp [ht])).use fun _ => ?_
    refine (yields_namedFunction h .function).use fun _ => parses_pure fun v hv w hw => ?_
    have hfun : Derives loop (.of .funDecl) ([t] ++ v) :=
      .of (derives_pair.mpr ⟨[t], v, rfl, .word ht (by simp), hv⟩)
    rw [hw, List.append_nil]
    exact hfun.alternative rfl (by simp)
  refine parses_ifWord .varWord (by decide)
    (parses_declared .varWord .varDecl rfl (yields_varDecl h) (by simp)) ?_
  exact (yields_statement h).mono fun _ _ hw => hw.alternative rfl (by simp)

/-! ## The knot -/

theorem yields_rule (h : inner.Yielding) (loop : Bool) (category : Category) :
    Yields loop (rule inner category) (.of category.nonterminal) := by
  cases category with
  | expression => exact yields_expression h
  | assignment => exact yields_assignment h
  | conditional => exact (parses_conditional h).mono fun _ _ => And.left
  | unary => exact (parses_unary h).mono fun _ _ => And.left
  | statement => exact yields_statement h
  | declaration =>
    exact (parses_recover (yields_strictDeclaration h)).mono fun _ _ ⟨_, _, hw⟩ => hw

/-- With any budget the tokens of a category are derived from its production. -/
theorem yields_ruleAt (budget : Nat) (loop : Bool) (category : Category) :
    Yields loop (ruleAt budget category) (.of category.nonterminal) := by
  induction budget generalizing loop category with
  | zero => exact parses_failHere
  | succ budget ih => exact yields_rule (fun loop category => ih loop category) loop category

end Grammar

end LoxLang
