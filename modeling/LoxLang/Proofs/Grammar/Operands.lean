import LoxLang.Proofs.Grammar.Acceptance
import LoxLang.Proofs.Grammar.Cutting

/-!
# What rules say of operands

For each rule of the grammar what it reports of operands and of operators in their place, and in
which way it reads a text that ends with a `!` and one that has an operator there (`Cut.Reports`).
Expressions are read at places of a level (`Cut.Faces`) and left behind the end of an operand, which
is where a minus is one between operands.
-/

namespace LoxLang

namespace Grammar

/-! ## Categories -/

section

variable (cut : Cut)

/-- Where a category may begin. -/
def Category.Enters : Category → List Token → Prop
  | unary => cut.Faces 1
  | declaration => fun rest => rest ≠ [] ∧ cut.Resumes rest
  | _ => cut.Faces 5

/-- What holds behind what is found for a category. -/
def Category.Leaves : Category → List Token → Prop
  | statement => Fresh cut.whole
  | declaration => cut.Resumes
  | _ => BehindOperand cut.whole

/-- How many tokens are read at least where something is found for a category. -/
def Category.advances : Category → Nat
  | declaration => 0
  | _ => 1

/-- Where the rule of a category may leave the shorter text. -/
def Category.stop : Category → Stop
  | unary => .never
  | statement => .never
  | declaration => .atEnd
  | _ => .atProbe

/-- Rules for the categories that have to say what they report where less is left than `room`, that
lack an operand at the end, and that read one behind the operator in the longer text. -/
structure Rules.Reporting (room : Nat) (inner : Rules) : Prop where
  bound : room ≤ inner.bound
  read : ∀ category, cut.Reports room (category.Enters cut) category.advances (category.Leaves cut)
    category.stop (inner.read category)
  fails : ∀ c : Cursor, c.rest = [] →
    inner.read .unary c = .error ⟨c.peek, .missingExpression⟩ c
  operand : ∀ level : Level, (level.operator? cut.next).isSome = true →
    OperandFollows cut.next cut.rest → cut.rest.length < room → ∀ d : Cursor, d.rest = cut.rest →
      ∃ e d', level.operand inner d = .ok e d'

end

variable {cut : Cut} {room : Nat} {inner : Rules}

/-- An expression is read behind something that is no operator. -/
theorem Rules.Reporting.expression (h : inner.Reporting cut room) {left : Nat}
    (hleft : left ≤ room) :
    cut.Reports left (Fresh cut.whole) 1 (BehindOperand cut.whole) .atProbe
      (inner.read .expression) :=
  (h.read .expression).mono hleft (Nat.le_refl 1) (fun _ => Cut.faces_of_fresh) (fun _ => id)
    fun _ => id

theorem Rules.Reporting.assignment (h : inner.Reporting cut room) {left : Nat}
    (hleft : left ≤ room) :
    cut.Reports left (Fresh cut.whole) 1 (BehindOperand cut.whole) .atProbe
      (inner.read .assignment) :=
  (h.read .assignment).mono hleft (Nat.le_refl 1) (fun _ => Cut.faces_of_fresh) (fun _ => id)
    fun _ => id

theorem Rules.Reporting.statement (h : inner.Reporting cut room) {left : Nat}
    (hleft : left ≤ room) :
    cut.Reports left (Fresh cut.whole) 1 (Fresh cut.whole) .never (inner.read .statement) :=
  (h.read .statement).mono hleft (Nat.le_refl _) (fun _ => Cut.faces_of_fresh) (fun _ => id)
    fun _ => id

/-! ## Functions -/

theorem harmless_tooMany : Harmless .tooManyParameters ∧ Harmless .tooManyArguments :=
  ⟨⟨by simp, by simp⟩, by simp, by simp⟩

theorem reports_parameter (count : Nat) {pre : List Token → Prop} :
    cut.Reports room pre 1 (BehindOperand cut.whole) .never (parameter count) :=
  (reports_checkArity harmless_tooMany.1 count).use fun _ => reports_expectName _

theorem reports_block (h : inner.Reporting cut room) :
    cut.Reports room (Fresh cut.whole) 1 cut.Closed .never (block inner) := by
  have hitem : cut.Reports room cut.Resumes 0 (fun _ => True) .atEnd
      (untilBrace (inner.read .declaration) inner.bound) :=
    reports_untilBrace (h.read .declaration) inner.bound
  refine (hitem.entered fun _ hfresh _ => Cut.faces_of_fresh hfresh).close (fun body => ?_)
    fun body => mutes_expect _
  exact (reports_closing (.inr rfl)).use fun _ => reports_pure fun _ => id

theorem reports_function (h : inner.Reporting cut room) (callable : Callable)
    {pre : List Token → Prop} :
    cut.Reports room pre 1 cut.Closed .never (function inner callable) := by
  have hbound := h.bound
  have hrest (params : List Name) {left : Nat} (hleft : left ≤ room) :
      cut.Reports left (fun _ => True) 0 cut.Closed .never (do
        let _ ← expect .parametersClose
        let _ ← expect (.bodyOpen callable)
        let body ← withLoopDepth (fun _ => 0) (block inner)
        return Function.mk params body) := by
    refine (reports_expect .parametersClose).use fun _ => ?_
    refine (reports_expect (.bodyOpen callable)).use fun _ => ?_
    exact (((reports_block h).less (by omega) (Nat.zero_le 1)).withLoopDepth fun _ => 0).use
      fun body => reports_pure fun _ => id
  refine (reports_expect (.parametersOpen callable)).use fun _ => ?_
  refine (reports_atSymbol (by decide)).use fun found => ?_
  refine .ite (fun _ => ?_) fun _ => ?_
  · exact ((hrest [] (by omega)).less (Nat.le_refl _) (by omega)).entered fun _ _ => trivial
  · have hparameters : cut.Reports (room - 1) (Fresh cut.whole) 1 (fun _ => True) .atProbe
        (commaSeparated parameter inner.bound 0) :=
      reports_commaSeparated (fun _ => id)
        (fun count => (reports_parameter count).loosely.leaves fun _ _ => trivial) (by omega) 0
    refine (hparameters.less (by omega) (Nat.le_refl _)).close (fun params => ?_)
      fun params => mutes_expect _
    exact (hrest params (by omega)).less (Nat.le_refl _) (by omega)

theorem reports_namedFunction (h : inner.Reporting cut room) (callable : Callable)
    {pre : List Token → Prop} :
    cut.Reports room pre 1 (Fresh cut.whole) .never (namedFunction inner callable) := by
  refine (reports_expectName _).use fun name => ?_
  exact ((reports_function h callable).less (Nat.sub_le _ _) (Nat.zero_le 1)).use fun function =>
    reports_pure fun _ hclosed => hclosed.1

/-! ## Operands -/

/-- A rule for operands, which reads them at places of a level, and finds none in a `!` at the
end. -/
structure Cut.ReportsOperand (cut : Cut) (room level : Nat) (rule : Rule Expr) : Prop where
  reports : cut.Reports room (cut.Faces level) 1 (BehindOperand cut.whole) .atProbe rule
  atProbe : ∀ c : Cursor, c.rest = [cut.probe] →
    rule c = .error ⟨⟨.eof, c.endLine⟩, .missingExpression⟩ { c with rest := [] }

theorem explained_missing {whole before rest : List Token} {t : Token} {k : Nat} (ht : NeedsLeft t)
    (hwhole : whole = before ++ t :: rest) (hlevel : OperandLevel before k)
    (hunknown : k < strength t) : Explained whole ⟨t, .missingExpression⟩ :=
  fun _ => ⟨ht, before, rest, k, hwhole, hlevel,
    ⟨fun hcause => (nomatch hcause), fun hle => absurd hle (Nat.not_le_of_lt hunknown)⟩⟩

theorem explained_left {whole before rest : List Token} {t : Token} {k : Nat} (ht : NeedsLeft t)
    (hwhole : whole = before ++ t :: rest) (hlevel : OperandLevel before k)
    (hknown : strength t ≤ k) : Explained whole ⟨t, .missingLeftOperand⟩ :=
  fun _ => ⟨ht, before, rest, k, hwhole, hlevel, ⟨fun _ => hknown, fun _ => rfl⟩⟩

theorem explained_missing_other {whole : List Token} {t : Token} (ht : ¬NeedsLeft t) :
    Explained whole ⟨t, .missingExpression⟩ := by
  rintro (hleft | ⟨-, hneeds⟩)
  · cases hleft
  · exact absurd hneeds ht

theorem not_needsLeft_of_nil {c : Cursor} (h : c.rest = []) : ¬NeedsLeft c.peek := by
  intro hneeds
  obtain ⟨symbol, -, hkind⟩ := kind_of_needsLeft hneeds
  rw [peek_of_nil h] at hkind
  cases hkind

/-- What is to say of a rule that finds an operand missing behind the `!` of the shorter text. -/
theorem Cut.ReportsAt.atProbe {c : Cursor} {rule : Rule Expr} {taken : Nat}
    {post : List Token → Prop} {stop : Stop} (hstanding : cut.Standing room c)
    (hshort : rule c = .error ⟨⟨.eof, c.endLine⟩, .missingExpression⟩ { c with rest := [] })
    (hlong : ∀ d, cut.Beside c d → cut.Heard (told (rule d))) :
    cut.ReportsAt c taken post stop rule where
  reads := by
    unfold Ensures
    rw [hshort]
    refine ⟨⟨List.nil_suffix, Nat.zero_le _⟩, hstanding.accounted.append ?_⟩
    exact explained_missing_other (not_needsLeft_of_nil (c := { c with rest := [] }) rfl)
  pairs d hbeside _ := .inr (hlong d hbeside)

/-- Where no operand begins, one is missing. Of the operators that need an operand to their left,
those come here that the rule for the place does not know. -/
theorem reports_missing {taken : Nat} {post : List Token → Prop} {stop : Stop} :
    cut.Reports room (cut.Faces 1) taken post stop
      (failHere .missingExpression : Rule Expr) where
  grows := grows_failHere _
  here c hstanding hfaces := by
    refine ⟨⟨Cursor.onward_of_rest rfl, hstanding.accounted.append ?_⟩,
      fun d hbeside hsilent => ?_⟩
    -- Only a missing operand in front of an operator has to be explained by its place.
    · by_cases hneeds : NeedsLeft c.peek
      · cases hrest : c.rest with
        | nil => exact absurd hneeds (not_needsLeft_of_nil hrest)
        | cons s rest =>
          rw [peek_of_cons hrest] at hneeds ⊢
          rw [hrest] at hfaces
          obtain ⟨k, ⟨before, hwhole, hlevel⟩, -, hknown⟩ :=
            hfaces s (.inl rfl) (isOperator_of_needsLeft hneeds)
          have hunknown := hknown hneeds
          have hstrong := strength_of_needsLeft hneeds
          exact explained_missing hneeds hwhole hlevel (by omega)
      · exact explained_missing_other hneeds
    · refine .inl ⟨not_lacks_append hsilent fun _ => ?_, .inl (.error hbeside)⟩
      obtain ⟨s, rest, hrest⟩ := List.exists_cons_of_ne_nil hbeside.rest_ne_nil.1
      show c.peek.isEof = false
      rw [peek_of_cons hrest]
      exact cut.marks s (hstanding.within.subset (by rw [hrest]; exact .head _))

/-- The rule for primary expressions finds nothing at the end or at an operator. -/
theorem primary_of_idle {c : Cursor} (h : Idle c.peek) :
    primary inner c = .error ⟨c.peek, .missingExpression⟩ c := by
  unfold primary
  refine (bind_of_ok (show peek c = .ok c.peek c from rfl)).trans ?_
  rcases h with hkind | ⟨symbol, hmem, hkind⟩
  · rw [hkind]
    rfl
  · rw [hkind]
    cases symbol <;> first | rfl | exact absurd hmem (by decide)

theorem reports_primary (h : inner.Reporting cut room) :
    cut.Reports (room + 1) (cut.Faces 1) 1 (BehindOperand cut.whole) .never (primary inner) := by
  have hpure (e : Expr) {room : Nat} :
      cut.Reports room (BehindOperand cut.whole) 0 (BehindOperand cut.whole) .never (pure e) :=
    reports_pure fun _ => id
  refine .peek _ (fun s hidle => ?_) reports_missing fun s _ => ?_
  · rcases hidle with hkind | ⟨symbol, hmem, hkind⟩
    · rw [hkind]
    · rw [hkind]
      cases symbol <;> first | rfl | exact absurd hmem (by decide)
  split
  case h_1 hkind =>
    refine .advanceWord hkind (by decide) ?_
    exact (reports_function h .function).uncounted.use fun function =>
      reports_pure fun _ hclosed => hclosed.2
  case h_7 hkind =>
    refine .advanceValue (by simp [hkind]) (by simp [endsOperand, hkind, valueWords]) ?_
    exact reports_freshId.use fun id => hpure _
  case h_8 hkind =>
    refine .advanceWord hkind (by decide) ?_
    refine (reports_expect _).uncounted.use fun _ => ?_
    refine (reports_expectName _).uncounted.use fun method => ?_
    exact reports_freshId.use fun id => hpure _
  case h_9 hkind =>
    refine .advanceValue (by simp [hkind]) (by simp [endsOperand, hkind]) ?_
    exact reports_freshId.use fun id => hpure _
  case h_10 hkind =>
    refine .advanceSymbol (isSymbol_of_kind hkind) (by decide) ?_
    refine (h.expression (Nat.le_refl _)).uncounted.close (fun e => ?_)
      fun e => mutes_expect _
    exact (reports_closing (.inl rfl)).uncounted.use fun _ =>
      reports_pure fun _ hclosed => hclosed.2
  case h_11 => exact reports_missing.before
  all_goals
    next hkind =>
      exact .advanceValue (by simp [hkind]) (by simp [endsOperand, hkind, valueWords]) (hpure _)

theorem reports_argument (h : inner.Reporting cut room) (count : Nat) :
    cut.Reports room (Fresh cut.whole) 1 (BehindOperand cut.whole) .atProbe
      (argument inner count) :=
  (reports_checkArity harmless_tooMany.2 count).use fun _ => h.assignment (Nat.le_refl _)

theorem reports_arguments (h : inner.Reporting cut room) :
    cut.Reports room (Fresh cut.whole) 1 (BehindOperand cut.whole) .never (arguments inner) := by
  have hclose (args : List Expr) {left : Nat} :
      cut.Reports left (fun _ => True) 1 (BehindOperand cut.whole) .never (do
        let line ← expect .argumentsClose
        return (args, line)) :=
    (reports_closing (.inl rfl)).use fun line => reports_pure fun _ hclosed => hclosed.2
  refine (reports_atSymbol (by decide)).use fun found => .ite (fun _ => ?_) fun _ => ?_
  · exact (hclose []).entered fun _ _ => trivial
  · have hargument (count : Nat) : cut.Reports room (Fresh cut.whole) 1 (fun _ => True) .atProbe
        (argument inner count) := (reports_argument h count).leaves fun _ _ => trivial
    refine (reports_commaSeparated (fun _ => id) hargument h.bound 0).close
      (fun args => ?_) fun args => mutes_expect _
    exact (hclose args).less (Nat.sub_le _ _) (Nat.sub_le _ _)

theorem reports_suffixes (h : inner.Reporting cut room) (bound : Nat) (e : Expr) :
    cut.Reports room (BehindOperand cut.whole) 0 (BehindOperand cut.whole) .never
      (suffixes inner bound e) := by
  have hpure (e : Expr) :
      cut.Reports room (BehindOperand cut.whole) 0 (BehindOperand cut.whole) .never (pure e) :=
    reports_pure fun _ => id
  induction bound generalizing e with
  | zero => exact hpure e
  | succ bound ih =>
    unfold suffixes
    refine .peek (pure e) (fun s hidle => ?_) (hpure e) fun s _ => ?_
    · rcases hidle with hkind | ⟨symbol, hmem, hkind⟩
      · rw [hkind]
      · rw [hkind]
        cases symbol <;> first | rfl | exact absurd hmem (by decide)
    · split
      · next hkind =>
        refine .advanceSymbol (isSymbol_of_kind hkind) (by decide) ?_
        refine ((reports_arguments h).less (Nat.sub_le _ _) (Nat.zero_le 1)).use fun found => ?_
        exact (ih _).less (by omega) (Nat.le_refl _)
      · next hkind =>
        refine .advanceSymbol (isSymbol_of_kind hkind) (by decide) ?_
        refine (reports_expectName _).uncounted.use fun name => ?_
        exact (ih _).less (by omega) (Nat.le_refl _)
      · exact (hpure e).before

theorem reports_call (h : inner.Reporting cut room) :
    cut.Reports (room + 1) (cut.Faces 1) 1 (BehindOperand cut.whole) .never (call inner) :=
  (reports_primary h).use fun e => (reports_suffixes h inner.bound e).less (by omega) (by omega)

theorem call_of_idle {c : Cursor} (h : Idle c.peek) :
    call inner c = .error ⟨c.peek, .missingExpression⟩ c :=
  bind_of_error (primary_of_idle h)

/-! ### Levels -/

/-- At a place of the level itself. -/
theorem Cut.faces_of_atOperand {rest : List Token} {k : Nat} (h : AtOperand cut.whole rest k) :
    cut.Faces k rest :=
  fun _ _ _ => ⟨k, h, Nat.le_refl k, fun _ => (Nat.lt_or_ge _ _).symm⟩

theorem unary_of_operator {c : Cursor} {op : UnaryOp} (h : unaryOp? c.peek = some op) :
    unary inner c = (do
      advance
      return .unary op c.peek.line (← inner.read .unary) : Rule Expr) c := by
  unfold unary
  refine (bind_of_ok (show peek c = .ok c.peek c from rfl)).trans ?_
  rw [h]

theorem unary_of_other {c : Cursor} (h : unaryOp? c.peek = none) :
    unary inner c = call inner c := by
  unfold unary
  refine (bind_of_ok (show peek c = .ok c.peek c from rfl)).trans ?_
  rw [h]

theorem unary_of_nil {c : Cursor} (h : c.rest = []) :
    unary inner c = .error ⟨c.peek, .missingExpression⟩ c := by
  have hpeek := peek_of_nil h
  rw [unary_of_other (by simp [unaryOp?, hpeek]), call_of_idle (.inl hpeek)]

theorem Cut.unaryOp_probe (cut : Cut) : unaryOp? cut.probe = some .not := by
  simp [unaryOp?, cut.bang]

/-- The `!` that ends the shorter text lacks its operand. -/
theorem unary_atProbe (h : inner.Reporting cut room) {c : Cursor} (hprobe : c.rest = [cut.probe]) :
    unary inner c = .error ⟨⟨.eof, c.endLine⟩, .missingExpression⟩ { c with rest := [] } := by
  have hop : unaryOp? c.peek = some .not := by rw [peek_of_cons hprobe, cut.unaryOp_probe]
  rw [unary_of_operator hop]
  have hadvance : advance c = .ok () { c with rest := [] } := by
    show EStateM.Result.ok () { c with rest := c.rest.tail } = _
    rw [hprobe]
    rfl
  rw [bind_of_ok hadvance]
  exact bind_of_error (h.fails { c with rest := [] } rfl)

/-- In the place of this `!` the longer text has an operator that the rule for the place does not
know. -/
theorem heard_of_unary {c d : Cursor} (hbeside : cut.Beside c d) (hfaces : cut.Faces 1 c.rest)
    (hprobe : c.rest = [cut.probe]) : cut.Heard (told (unary inner d)) := by
  obtain ⟨k, hplace, hle, hknown⟩ :=
    hfaces cut.next (.inr ⟨hprobe, rfl⟩) (isOperator_of_needsLeft cut.needs)
  have hunknown := hknown cut.needs
  have hstrong := strength_of_needsLeft cut.needs
  have hnext := hbeside.peek_of_probe hprobe
  have hlong : unary inner d = .error ⟨cut.next, .missingExpression⟩ d := by
    rw [unary_of_other (by rw [hnext, unaryOp_of_needsLeft cut.needs]),
      call_of_idle (by rw [hnext]; exact idle_of_needsLeft cut.needs), hnext]
  rw [hlong]
  exact ⟨k, hprobe ▸ hplace, fun hle => by omega, fun _ => List.mem_append_right _ (.head _)⟩

theorem reports_unary (h : inner.Reporting cut room) :
    cut.Reports (room + 1) (cut.Faces 1) 1 (BehindOperand cut.whole) .never (unary inner) where
  grows c := by
    cases hop : unaryOp? c.peek with
    | none =>
      rw [unary_of_other hop]
      exact (reports_call h).grows c
    | some op =>
      rw [unary_of_operator hop]
      exact (h.read .unary).grows.bind (fun _ => grows_pure _) { c with rest := c.rest.tail }
  here c hstanding hfaces := by
    -- The `!` is a unary operator, behind which the shorter text lacks the operand.
    by_cases hprobe : c.rest = [cut.probe]
    · exact .atProbe hstanding (unary_atProbe h hprobe) fun d hbeside =>
        heard_of_unary hbeside hfaces hprobe
    cases hop : unaryOp? c.peek with
    | none =>
      exact ((reports_call h).here c hstanding hfaces).congr (unary_of_other hop) fun d hbeside =>
        unary_of_other (by rw [hbeside.peek_of_more hprobe, hop])
    | some op =>
      cases hrest : c.rest with
      | nil => simp [unaryOp?, peek_of_nil hrest] at hop
      | cons s rest =>
        have hunary : (unaryOp? s).isSome = true := by
          rw [← peek_of_cons hrest, hop]
          rfl
        rw [hrest] at hfaces
        obtain ⟨k, hplace, -, -⟩ := hfaces s (.inl rfl) (isOperator_of_unary hunary)
        have hbehind : cut.Faces 1 rest := Cut.faces_of_atOperand (hplace.unary hunary)
        have hinner : cut.Reports room (cut.Faces 1) 1 (BehindOperand cut.whole) .never
            (inner.read .unary) := h.read .unary
        refine (Cut.ReportsAt.advance hrest hprobe hbehind hstanding ?_).congr
          (unary_of_operator hop) fun d hbeside => ?_
        · exact hinner.uncounted.use fun e => reports_pure fun _ => id
        · have hsame := hbeside.peek_of_more hprobe
          rw [unary_of_operator (hsame ▸ hop), hsame]

theorem strength_ne_of_any {level : Level} {t : Token} (ht : NeedsLeft t)
    (h : (level.operator? t).any needsLeft = false) : strength t ≠ level.strength := by
  intro hstrength
  rw [needsLeft_at_strength ht hstrength] at h
  cases h

/-- A place passes on the operators that are not of its level. -/
theorem Cut.Faces.lower {level : Level} {rest : List Token} (h : cut.Faces level.strength rest)
    (hother : ∀ s, (rest.head? = some s ∨ rest = [cut.probe] ∧ s = cut.next) →
      (level.operator? s).any needsLeft = false) : cut.Faces (level.strength - 1) rest := by
  intro s hs hoperator
  obtain ⟨k, hplace, hle, hknown⟩ := h s hs hoperator
  refine ⟨k, hplace, by omega, fun hneeds => ?_⟩
  have hne := strength_ne_of_any hneeds (hother s hs)
  have hknown := hknown hneeds
  omega

/-- The rule of a level from its first operand on. -/
theorem reports_operands {level : Level} {operand : Rule Expr} (bound : Nat)
    (h : cut.Reports (room + 1) (cut.Faces (level.strength - 1)) 1 (BehindOperand cut.whole)
      .atProbe operand) :
    cut.Reports (room + 1) (cut.Faces (level.strength - 1)) 1 (BehindOperand cut.whole) .atProbe
      (operand >>= leftNested level.operator? operand .binary bound) := by
  have hend : ∀ s, Ending s → level.operator? s = none := by
    rintro s (hs | hs) <;> simp [Level.operator?, hs]
  refine h.close (fun left => ?_) fun left => mutes_leftNested hend bound left
  refine reports_leftNested hend (fun s op rest hop hrest hbehind => ?_)
    (h.less (by omega) (Nat.le_refl 1)) bound left
  exact Cut.faces_of_atOperand (atOperand_right hrest (by simp [hop]) (.inr hbehind))

/-- What the rule of a level does at an operator of its own that needs an operand to its left. -/
theorem binary_of_operator {level : Level} {operand : Rule Expr} {bound : Nat} {c : Cursor}
    (h : (level.operator? c.peek).any needsLeft = true) :
    binary level bound operand c = (do
      advance
      let _ ← operand
      throw ⟨c.peek, .missingLeftOperand⟩ : Rule Expr) c := by
  show (if (level.operator? c.peek).any needsLeft = true then _ else _ : Rule Expr) c = _
  rw [if_pos h]

theorem binary_of_other {level : Level} {operand : Rule Expr} {bound : Nat} {c : Cursor}
    (h : (level.operator? c.peek).any needsLeft = false) :
    binary level bound operand c =
      (operand >>= leftNested level.operator? operand .binary bound) c := by
  show (if (level.operator? c.peek).any needsLeft = true then _ else _ : Rule Expr) c = _
  rw [if_neg (by simp [h])]

/-- At the end of the shorter text the longer one has an operator of the level in the place of an
operand. -/
theorem heard_of_operator {level : Level} {operand : Rule Expr} {bound : Nat}
    (hop : (level.operator? cut.next).any needsLeft = true)
    (hoperand : OperandFollows cut.next cut.rest → ∀ d : Cursor, d.rest = cut.rest →
      ∃ e d', operand d = .ok e d')
    {c d : Cursor} (hbeside : cut.Beside c d) (hfaces : cut.Faces level.strength c.rest)
    (hprobe : c.rest = [cut.probe]) : cut.Heard (told (binary level bound operand d)) := by
  obtain ⟨k, hplace, hle, -⟩ :=
    hfaces cut.next (.inr ⟨hprobe, rfl⟩) (isOperator_of_needsLeft cut.needs)
  have hstrength := strength_of_isSome (isSome_of_any hop)
  have hpeek := hbeside.peek_of_probe hprobe
  refine ⟨k, hprobe ▸ hplace, fun _ hfollows => ?_, fun hlt => by omega⟩
  obtain ⟨e, d', hrun⟩ := hoperand hfollows { d with rest := d.rest.tail }
    (hbeside.tail_of_probe hprobe)
  have hstray : binary level bound operand d = .error ⟨cut.next, .missingLeftOperand⟩ d' := by
    rw [binary_of_operator (hpeek ▸ hop), hpeek]
    exact bind_of_ok hrun
  rw [hstray]
  exact List.mem_append_right _ (.head _)

/-- An operator of the level in the place of an operand, of which both texts go on. -/
theorem reports_stray {level : Level} {operand : Rule Expr}
    (h : cut.Reports (room + 1) (cut.Faces (level.strength - 1)) 1 (BehindOperand cut.whole)
      .atProbe operand)
    {c : Cursor} {s : Token} {rest : List Token} (hstanding : cut.Standing (room + 1) c)
    (hfaces : cut.Faces level.strength c.rest) (hrest : c.rest = s :: rest)
    (hop : (level.operator? s).any needsLeft = true) :
    cut.ReportsAt c 1 (BehindOperand cut.whole) .atProbe (do
      advance
      let _ ← operand
      throw ⟨s, .missingLeftOperand⟩ : Rule Expr) := by
  have hneeds : NeedsLeft s := ⟨level, hop⟩
  have hsome := isSome_of_any hop
  have hpos := level.strength_pos
  have hexplained : Explained cut.whole ⟨s, .missingLeftOperand⟩ := by
    rw [hrest] at hfaces
    obtain ⟨k, ⟨before, hwhole, hlevel⟩, hle, -⟩ :=
      hfaces s (.inl rfl) (isOperator_of_needsLeft hneeds)
    refine explained_left hneeds hwhole hlevel ?_
    rwa [strength_of_isSome hsome]
  -- Behind the operator there is a place for its right operand, of the level below.
  have hbehind : cut.Faces (level.strength - 1) rest :=
    Cut.faces_of_atOperand (atOperand_right (hrest ▸ hstanding.within) hsome (.inl hneeds))
  refine .advance hrest (fun hprobe => ?_) hbehind hstanding ?_
  · rw [hrest] at hprobe
    obtain ⟨rfl, -⟩ := List.cons.inj hprobe
    simp [Level.operator?, cut.bang] at hop
  · refine (h.less (by omega) (Nat.zero_le 1)).close (fun _ => ?_) fun _ => mutes_throw (by simp)
    exact reports_throw (by simp) hexplained

theorem Cut.other_of_probe (level : Level) {c : Cursor} (hprobe : c.rest = [cut.probe]) :
    (level.operator? c.peek).any needsLeft = false := by
  simp [Level.operator?, peek_of_cons hprobe, cut.bang]

/-- What stands for the end of the shorter text is no operator, and no operand either. -/
theorem binary_atProbe {level : Level} {operand : Rule Expr} {bound : Nat}
    (h : cut.ReportsOperand (room + 1) (level.strength - 1) operand) {c : Cursor}
    (hprobe : c.rest = [cut.probe]) :
    binary level bound operand c =
      .error ⟨⟨.eof, c.endLine⟩, .missingExpression⟩ { c with rest := [] } := by
  rw [binary_of_other (cut.other_of_probe level hprobe)]
  exact bind_of_error (h.atProbe c hprobe)

/-- An operator of the level in the place of an operand before the end of the shorter text. -/
theorem reportsAt_operator {level : Level} {operand : Rule Expr} {bound : Nat}
    (h : cut.ReportsOperand (room + 1) (level.strength - 1) operand)
    {c : Cursor} (hstanding : cut.Standing (room + 1) c) (hfaces : cut.Faces level.strength c.rest)
    (hmore : c.rest ≠ [cut.probe]) (hop : (level.operator? c.peek).any needsLeft = true) :
    cut.ReportsAt c 1 (BehindOperand cut.whole) .atProbe (binary level bound operand) := by
  cases hcons : c.rest with
  | nil => simp [Level.operator?, peek_of_nil hcons] at hop
  | cons s rest =>
    have hpeek := peek_of_cons hcons
    refine (reports_stray h.reports hstanding hfaces hcons (hpeek ▸ hop)).congr ?_
      fun d hbeside => ?_
    · rw [binary_of_operator hop, hpeek]
    · have hsame := hbeside.peek_of_more hmore
      rw [binary_of_operator (hsame ▸ hop), hsame, hpeek]

/-- Where neither text has an operator of the level in the place of an operand. -/
theorem reportsAt_other {level : Level} {operand : Rule Expr} {bound : Nat}
    (h : cut.ReportsOperand (room + 1) (level.strength - 1) operand)
    {c : Cursor} (hstanding : cut.Standing (room + 1) c) (hfaces : cut.Faces level.strength c.rest)
    (hop : (level.operator? c.peek).any needsLeft = false)
    (hnext : c.rest = [cut.probe] → (level.operator? cut.next).any needsLeft = false) :
    cut.ReportsAt c 1 (BehindOperand cut.whole) .atProbe (binary level bound operand) := by
  have hlower : cut.Faces (level.strength - 1) c.rest := by
    refine hfaces.lower ?_
    rintro s (hs | ⟨hprobe, rfl⟩)
    · obtain ⟨rest, hcons⟩ := List.head?_eq_some_iff.mp hs
      exact peek_of_cons hcons ▸ hop
    · exact hnext hprobe
  refine ((reports_operands bound h.reports).here c hstanding hlower).congr (binary_of_other hop)
    fun d hbeside => binary_of_other ?_
  by_cases hprobe : c.rest = [cut.probe]
  · rw [hbeside.peek_of_probe hprobe, hnext hprobe]
  · rw [hbeside.peek_of_more hprobe, hop]

theorem reports_binary (level : Level) {operand : Rule Expr} (bound : Nat)
    (h : cut.ReportsOperand (room + 1) (level.strength - 1) operand)
    (hoperand : (level.operator? cut.next).isSome = true → OperandFollows cut.next cut.rest →
      cut.rest.length < room → ∀ d : Cursor, d.rest = cut.rest → ∃ e d', operand d = .ok e d') :
    cut.ReportsOperand (room + 1) level.strength (binary level bound operand) := by
  refine ⟨⟨fun c => ?_, fun c hstanding hfaces => ?_⟩, fun c => binary_atProbe h⟩
  · cases hop : (level.operator? c.peek).any needsLeft with
    | true =>
      rw [binary_of_operator hop]
      exact h.reports.grows.bind (fun _ => grows_throw _) { c with rest := c.rest.tail }
    | false =>
      rw [binary_of_other hop]
      exact (reports_operands bound h.reports).grows c
  by_cases hprobe : c.rest = [cut.probe]
  · cases hnext : (level.operator? cut.next).any needsLeft with
    | true =>
      have hroom := hstanding.room
      rw [hprobe, List.length_singleton] at hroom
      refine .atProbe hstanding (binary_atProbe h hprobe) fun d hbeside => ?_
      refine heard_of_operator hnext (fun hfollows => ?_) hbeside hfaces hprobe
      exact hoperand (isSome_of_any hnext) hfollows (by omega)
    | false =>
      exact reportsAt_other h hstanding hfaces (cut.other_of_probe level hprobe) fun _ => hnext
  · cases hop : (level.operator? c.peek).any needsLeft with
    | true => exact reportsAt_operator h hstanding hfaces hprobe hop
    | false => exact reportsAt_other h hstanding hfaces hop fun hend => absurd hend hprobe

/-! ### Looser operators -/

theorem reports_equality (h : inner.Reporting cut room) :
    cut.ReportsOperand (room + 1) 5 (equality inner) := by
  have hfactor : cut.ReportsOperand (room + 1) 2 (factor inner) :=
    reports_binary .factor inner.bound
      ⟨(reports_unary h).loosely, fun _ => unary_atProbe h⟩ (h.operand .factor)
  have hterm : cut.ReportsOperand (room + 1) 3 (term inner) :=
    reports_binary .term inner.bound hfactor (h.operand .term)
  have hcomparison : cut.ReportsOperand (room + 1) 4 (comparison inner) :=
    reports_binary .comparison inner.bound hterm (h.operand .comparison)
  exact reports_binary .equality inner.bound hcomparison (h.operand .equality)

/-- Operands between which stands something that is no operator with a level of its own. -/
theorem reports_joined {ω : Type} {operator? : Token → Option ω} {operand : Rule Expr}
    {build : Expr → ω → Nat → Expr → Expr} (bound : Nat)
    (hend : ∀ s, Ending s → operator? s = none)
    (hopens : ∀ s op, operator? s = some op → opensOperand s = true)
    (h : cut.Reports (room + 1) (cut.Faces 5) 1 (BehindOperand cut.whole) .atProbe operand) :
    cut.Reports (room + 1) (cut.Faces 5) 1 (BehindOperand cut.whole) .atProbe
      (operand >>= leftNested operator? operand build bound) := by
  refine h.close (fun left => ?_) fun left => mutes_leftNested hend bound left
  refine reports_leftNested hend (fun s op rest hop hrest _ => ?_)
    (h.less (by omega) (Nat.le_refl 1)) bound left
  exact Cut.faces_of_fresh (fresh_behind hrest (hopens s op hop))

theorem reports_logical {op : LogicalOp} {operand : Rule Expr} (bound : Nat)
    (h : cut.Reports (room + 1) (cut.Faces 5) 1 (BehindOperand cut.whole) .atProbe operand) :
    cut.Reports (room + 1) (cut.Faces 5) 1 (BehindOperand cut.whole) .atProbe
      (logical op bound operand) := by
  refine reports_joined bound (fun s hs => ?_) (fun s op' hop => ?_) h
  · rw [logicalOp?, if_neg (by simp [hs.isWord])]
  · unfold logicalOp? at hop
    split at hop
    · next hword =>
      rw [opensOperand, kind_of_isWord hword]
      cases op <;> decide
    · cases hop

theorem reports_conditional (h : inner.Reporting cut room) :
    cut.Reports (room + 1) (cut.Faces 5) 1 (BehindOperand cut.whole) .atProbe
      (conditional inner) := by
  have heither : cut.Reports (room + 1) (cut.Faces 5) 1 (BehindOperand cut.whole) .atProbe
      (either inner) :=
    reports_logical inner.bound (reports_logical inner.bound (reports_equality h).reports)
  have helse : cut.Reports room (Fresh cut.whole) 1 (BehindOperand cut.whole) .atProbe
      (inner.read .conditional) :=
    (h.read .conditional).entered fun _ => Cut.faces_of_fresh
  refine heither.close (fun condition => ?_) fun condition =>
    mutes_accept (by decide) (mutes_pure _)
  refine .accept (by decide) ?_ (reports_pure fun _ => id)
  refine (h.expression (by omega)).uncounted.close
    (fun thenBranch => ?_) fun thenBranch => mutes_expect _
  refine (reports_expect _).uncounted.use fun _ => ?_
  exact (helse.less (by omega) (Nat.zero_le 1)).close (fun elseBranch => reports_pure fun _ => id)
    fun elseBranch => mutes_pure _

theorem reports_assignTo (target value : Expr) (equals : Token) {pre : List Token → Prop} :
    cut.Reports room pre 0 pre .never (assignTo target equals value) := by
  cases target with
  | «variable» ref => exact reports_freshId.use fun id => reports_pure fun _ hrest => hrest
  | get object name => exact reports_pure fun _ => id
  | _ => exact (reports_note ⟨by simp, by simp⟩).use fun _ => reports_pure fun _ => id

theorem mutes_assignTo (target value : Expr) (equals : Token) {stop : Stop} :
    cut.Mutes stop stop (assignTo target equals value) := by
  cases target with
  | «variable» ref => exact fun _ hstops hsilent => ⟨hsilent, .ok hstops⟩
  | get object name => exact mutes_pure _
  | _ => exact fun _ hstops hsilent =>
      ⟨not_lacks_append hsilent fun hcause => (nomatch hcause), .ok hstops⟩

theorem reports_assignment (h : inner.Reporting cut room) :
    cut.Reports (room + 1) (cut.Faces 5) 1 (BehindOperand cut.whole) .atProbe
      (assignment inner) := by
  have hpure (target : Expr) {room : Nat} :
      cut.Reports room (BehindOperand cut.whole) 0 (BehindOperand cut.whole) .atProbe
        (pure target) := reports_pure fun _ => id
  refine (reports_conditional h).close (fun target => ?_) fun target => ?_
  · refine .peek (pure target) (fun s hidle => ?_) (hpure target) fun s _ => ?_
    · rw [hidle.isSymbol (by decide), if_neg (by decide)]
    · refine .ite (fun hequal => ?_) fun _ => (hpure target).before
      refine .advanceSymbol hequal (by decide) ?_
      refine (h.assignment (by omega)).uncounted.close
        (fun value => (reports_assignTo target value s).loosely) fun value => ?_
      exact mutes_assignTo target value s
  · refine mutes_peek (pure target) (fun s hs => ?_) (mutes_pure target)
    rw [hs.isSymbol (by decide), if_neg (by decide)]

theorem reports_expression (h : inner.Reporting cut room) :
    cut.Reports (room + 1) (cut.Faces 5) 1 (BehindOperand cut.whole) .atProbe
      (expression inner) := by
  refine reports_joined inner.bound (fun s hs => ?_) (fun s op hop => ?_) (reports_assignment h)
  · have hcomma : isSymbol .comma s = false := hs.isSymbol (by decide)
    rw [comma?, hcomma, if_neg (by decide)]
  · unfold comma? at hop
    split at hop
    · next hcomma => exact opens_of_isSymbol hcomma (by decide)
    · cases hop

/-! ## Statements -/

theorem reports_optionalBefore (h : inner.Reporting cut room) {symbol : Symbol}
    (hs : symbol ∉ operators) {left : Nat} (hleft : left ≤ room) :
    cut.Reports left (Fresh cut.whole) 0 (fun _ => True) .atProbe
      (optionalBefore symbol (inner.read .expression)) := by
  refine (reports_atSymbol hs).use fun found => .ite (fun _ => reports_pure fun _ _ => trivial)
    fun _ => ?_
  exact (h.expression (by omega)).uncounted.close
    (fun e => reports_pure fun _ _ => trivial) fun e => mutes_pure _

theorem reports_varDecl (h : inner.Reporting cut room) {pre : List Token → Prop} :
    cut.Reports room pre 1 (Fresh cut.whole) .never (varDecl inner) := by
  have hclose (name : Name) (initial : Option Expr) {left : Nat} {pre : List Token → Prop} :
      cut.Reports left pre 0 (Fresh cut.whole) .never (do
        let _ ← expect .declarationEnd
        return Stmt.varDecl name initial) :=
    (reports_expect _).uncounted.use fun _ => reports_pure fun _ => id
  refine (reports_expectName _).use fun name => ?_
  refine .accept (by decide) ?_ ?_
  · refine ((h.expression (by omega)).map some).uncounted.close
      (fun initial => hclose name initial) fun initial => mutes_expect _
  · exact hclose name none

theorem reports_expressionStatement {rule : Rule Expr} {pre : List Token → Prop}
    (h : cut.Reports room pre 1 (BehindOperand cut.whole) .atProbe rule) :
    cut.Reports room pre 1 (Fresh cut.whole) .never (expressionStatement rule) := by
  refine h.close (fun e => ?_) fun e => mutes_expect _
  exact (reports_expect _).uncounted.use fun _ =>
    reports_pure fun _ => id

theorem reports_breakLoop (word : Token) {pre : List Token → Prop} :
    cut.Reports room pre 1 (Fresh cut.whole) .never (breakLoop word) := by
  have hstray : Harmless (Problem.mk word .strayBreak).cause := ⟨by simp, by simp⟩
  refine reports_loopDepth.use fun _ => .ite (fun _ => reports_throw hstray.1 hstray.explained)
    fun _ => ?_
  exact (reports_expect _).use fun _ => reports_pure fun _ => id

theorem reports_forInitial (h : inner.Reporting cut room) :
    cut.Reports room (Fresh cut.whole) 0 (Fresh cut.whole) .never (forInitial inner) := by
  have hexpression := reports_expressionStatement (h.expression (Nat.le_refl _))
  refine .accept (by decide) (reports_pure fun _ => id) (.acceptWord (by decide) ?_ ?_)
  · exact ((reports_varDecl h).less (by omega) (Nat.zero_le 1)).use fun s =>
      reports_pure fun _ => id
  · exact hexpression.uncounted.use fun s => reports_pure fun _ => id

theorem reports_forStatement (h : inner.Reporting cut room) {pre : List Token → Prop} :
    cut.Reports room pre 1 (Fresh cut.whole) .never (forStatement inner) := by
  have hexpect (landmark : Landmark) {left : Nat} {pre : List Token → Prop} :
      cut.Reports left pre 0 (Fresh cut.whole) .never (expect landmark) :=
    (reports_expect landmark).uncounted
  refine (reports_expect _).use fun _ => ?_
  refine ((reports_forInitial h).less (by omega) (Nat.le_refl _)).use fun initial => ?_
  refine (reports_optionalBefore h (by decide) (by omega)).close (fun condition => ?_)
    fun condition => mutes_expect _
  refine (hexpect _).use fun _ => ?_
  refine (reports_optionalBefore h (by decide) (by omega)).close (fun increment => ?_)
    fun increment => mutes_expect _
  refine (hexpect _).use fun _ => ?_
  exact ((h.statement (by omega)).uncounted.withLoopDepth (· + 1)).use
    fun body => reports_pure fun _ => id

theorem reports_ifStatement (h : inner.Reporting cut room) {pre : List Token → Prop} :
    cut.Reports room pre 1 (Fresh cut.whole) .never (ifStatement inner) := by
  have hstatement {left : Nat} (hleft : left ≤ room) :=
    (h.statement hleft).uncounted
  refine (reports_expect _).use fun _ => ?_
  refine (h.expression (by omega)).uncounted.close
    (fun condition => ?_) fun condition => mutes_expect _
  refine (reports_expect _).uncounted.use fun _ => ?_
  refine (hstatement (by omega)).use fun thenBranch => ?_
  refine .acceptWord (by decide) ?_ (reports_pure fun _ => id)
  exact ((hstatement (by omega)).map some).use fun elseBranch => reports_pure fun _ => id

theorem reports_whileStatement (h : inner.Reporting cut room) {pre : List Token → Prop} :
    cut.Reports room pre 1 (Fresh cut.whole) .never (whileStatement inner) := by
  refine (reports_expect _).use fun _ => ?_
  refine (h.expression (by omega)).uncounted.close
    (fun condition => ?_) fun condition => mutes_expect _
  refine (reports_expect _).uncounted.use fun _ => ?_
  exact ((h.statement (by omega)).uncounted.withLoopDepth (· + 1)).use
    fun body => reports_pure fun _ => id

theorem reports_returnStatement (h : inner.Reporting cut room) (line : Nat) :
    cut.Reports room (Fresh cut.whole) 1 (Fresh cut.whole) .never (returnStatement inner line) := by
  refine (reports_optionalBefore h (by decide) (Nat.le_refl _)).close (fun value => ?_)
    fun value => mutes_expect _
  exact (reports_expect _).use fun _ => reports_pure fun _ => id

theorem reports_printStatement (h : inner.Reporting cut room) :
    cut.Reports room (Fresh cut.whole) 1 (Fresh cut.whole) .never (printStatement inner) := by
  refine (h.expression (Nat.le_refl _)).close (fun e => ?_) fun e => mutes_expect _
  exact (reports_expect _).uncounted.use fun _ =>
    reports_pure fun _ => id

/-- Behind a word that begins a statement. -/
theorem reportsBefore_word {t : Token} {k : Keyword} (ht : t.kind = .keyword k) {rule : Rule α}
    {pre post : List Token → Prop} {stop : Stop}
    (hword : k ∉ valueWords) (h : cut.Reports room (Fresh cut.whole) 1 post stop rule) :
    cut.ReportsBefore t (room + 1) pre 1 post stop (advance >>= fun _ => rule) :=
  .advanceWord ht hword h.uncounted

theorem reports_statement (h : inner.Reporting cut room) :
    cut.Reports (room + 1) (cut.Faces 5) 1 (Fresh cut.whole) .never (statement inner) := by
  have hother : cut.Reports (room + 1) (cut.Faces 5) 1 (Fresh cut.whole) .never
      (expressionStatement (expression inner)) :=
    reports_expressionStatement (reports_expression h)
  refine .peek _ (fun s hidle => ?_) hother fun s _ => ?_
  · rcases hidle with hkind | ⟨symbol, hmem, hkind⟩
    · rw [hkind]
    · rw [hkind]
      cases symbol <;> first | rfl | exact absurd hmem (by decide)
  split
  · next hkind => exact reportsBefore_word hkind (by decide) (reports_breakLoop s)
  · next hkind => exact reportsBefore_word hkind (by decide) (reports_forStatement h)
  · next hkind => exact reportsBefore_word hkind (by decide) (reports_ifStatement h)
  · next hkind => exact reportsBefore_word hkind (by decide) (reports_whileStatement h)
  · next hkind => exact reportsBefore_word hkind (by decide) (reports_returnStatement h s.line)
  · next hkind =>
    refine .advanceSymbol (isSymbol_of_kind hkind) (by decide) ?_
    exact (reports_block h).uncounted.use fun body =>
      reports_pure fun _ hclosed => hclosed.1
  · next hkind => exact reportsBefore_word hkind (by decide) (reports_printStatement h)
  · exact hother.before

/-! ## Declarations -/

theorem reports_withClause {bound : Nat} (hbound : room ≤ bound) {pre : List Token → Prop} :
    cut.Reports room pre 0 (fun _ => True) .atProbe (withClause bound) := by
  refine .acceptWord (by decide) ?_ (reports_pure fun _ _ => trivial)
  have hreference (count : Nat) : cut.Reports (room - 1) (Fresh cut.whole) 1 (fun _ => True)
      .atProbe (reference .ofTrait) := (reports_reference _).leaves fun _ _ => trivial
  exact (reports_commaSeparated (fun _ => id) hreference (by omega) 0).uncounted

theorem mutes_withClause (bound : Nat) {stop : Stop} : cut.Mutes stop stop (withClause bound) :=
  mutes_acceptWord (mutes_pure [])

theorem reports_classMember (h : inner.Reporting cut room) {pre : List Token → Prop} :
    cut.Reports room pre 1 (Fresh cut.whole) .never (classMember inner) := by
  have hmember (ofClass : Bool) {pre : List Token → Prop} :
      cut.Reports room pre 1 (Fresh cut.whole) .never
        (namedFunction inner .method >>= fun f => pure (ofClass, f)) :=
    (reports_namedFunction h .method).use fun f => reports_pure fun _ => id
  exact .acceptWord (by decide) ((hmember true).less (Nat.sub_le _ _) (Nat.zero_le 1))
    (hmember false)

/-- The members of a class or a trait and the brace behind them. -/
theorem reports_members {item : Rule α} {next : List α → Nat → Rule β} {landmark : Landmark}
    (h : cut.Reports room (fun _ => True) 1 (Fresh cut.whole) .never item) (bound : Nat)
    (hnext : ∀ members line, cut.Reports room (Fresh cut.whole) 0 (Fresh cut.whole) .never
      (next members line)) :
    cut.Reports room (Fresh cut.whole) 0 (Fresh cut.whole) .never (do
      let members ← untilBrace item bound
      let line ← expect landmark
      next members line) := by
  have hmembers : cut.Reports room (fun _ => True) 0 (fun _ => True) .atEnd
      (untilBrace item bound) :=
    reports_untilBrace (h.mono (Nat.le_refl _) (Nat.zero_le 1) (fun _ _ => trivial)
      (fun _ _ => trivial) fun _ hnever => hnever.elim) bound
  refine (hmembers.entered fun _ _ => trivial).close (fun members => ?_)
    fun members => mutes_expect _
  exact (reports_expect _).uncounted.use fun line =>
    hnext members line

theorem reports_classDecl (h : inner.Reporting cut room) {pre : List Token → Prop} :
    cut.Reports room pre 1 (Fresh cut.whole) .never (classDecl inner) := by
  have hbound := h.bound
  have hrest (name : Name) (superclass : Option Reference) {left : Nat} (hleft : left ≤ room)
      {pre : List Token → Prop} : cut.Reports left pre 0 (Fresh cut.whole) .never (do
        let traits ← withClause inner.bound
        let _ ← expect .classOpen
        let members ← untilBrace (classMember inner) inner.bound
        let _ ← expect .classClose
        return Stmt.classDecl name superclass traits ((members.partition Prod.fst).2.map Prod.snd)
          ((members.partition Prod.fst).1.map Prod.snd)) := by
    refine (reports_withClause (by omega)).close (fun traits => ?_) fun traits => mutes_expect _
    refine (reports_expect _).uncounted.use fun _ => ?_
    exact reports_members ((reports_classMember h).less (by omega) (Nat.le_refl _)) inner.bound
      fun members _ => reports_pure fun _ => id
  -- Behind the name an operator may stand that is none there.
  refine (reports_expectName _).use fun name => .acceptLoose (by decide) ?_ ?_ ?_
  · exact ((reports_reference _).map some).uncounted.use fun superclass =>
      hrest name superclass (by omega)
  · exact hrest name none (by omega)
  · exact (mutes_withClause _).bind fun traits => mutes_expect _

theorem reports_traitDecl (h : inner.Reporting cut room) {pre : List Token → Prop} :
    cut.Reports room pre 1 (Fresh cut.whole) .never (traitDecl inner) := by
  have hbound := h.bound
  refine (reports_expectName _).use fun name => ?_
  refine (reports_withClause (by omega)).close (fun traits => ?_) fun traits => mutes_expect _
  refine (reports_expect _).uncounted.use fun _ => ?_
  exact reports_members ((reports_namedFunction h .method).less (by omega) (Nat.le_refl _))
    inner.bound fun methods _ => reports_pure fun _ => id

theorem reports_strictDeclaration (h : inner.Reporting cut room) :
    cut.Reports (room + 1) (cut.Faces 5) 0 (Fresh cut.whole) .never (strictDeclaration inner) := by
  refine .acceptWord (by decide) (reports_classDecl h).uncounted ?_
  refine .acceptWord (by decide) (reports_traitDecl h).uncounted ?_
  refine .atNamedFunction (fun t ht => ?_) ?_
  · refine .advanceWord ht (by decide) ?_
    exact (reports_namedFunction h .function).uncounted.use
      fun function => reports_pure fun _ => id
  · refine .acceptWord (by decide) (reports_varDecl h).uncounted ?_
    exact (reports_statement h).uncounted

/-! ## The knot -/

theorem reports_rule (h : inner.Reporting cut room) (category : Category) :
    cut.Reports (room + 1) (category.Enters cut) category.advances (category.Leaves cut)
      category.stop (rule inner category) := by
  cases category with
  | expression => exact reports_expression h
  | assignment => exact reports_assignment h
  | conditional => exact reports_conditional h
  | unary => exact reports_unary h
  | statement => exact reports_statement h
  | declaration =>
    refine ((reports_strictDeclaration h).recover).entered fun rest hrest => ?_
    exact hrest.2 hrest.1

theorem Level.strength_injective {level level' : Level} (h : level.strength = level'.strength) :
    level = level' := by
  cases level <;> cases level' <;> first | rfl | simp [Level.strength] at h

/-- The operands of a level are read by its rule for operands. -/
theorem binds_operand (h : inner.Taking) (loop : Bool) (level : Level) :
    Binds loop inner.bound (level.strength - 1) level.operandNonterminal
      (level.operand inner) := by
  have hunary : Binds loop inner.bound 1 .unary (unary inner) := binds_unary h
  have hfactor : Binds loop inner.bound 2 .factor (factor inner) :=
    binds_binary rfl rfl rfl rfl hunary
  have hterm : Binds loop inner.bound 3 .term (term inner) := binds_binary rfl rfl rfl rfl hfactor
  cases level with
  | factor => exact hunary
  | term => exact hfactor
  | comparison => exact hterm
  | equality => exact binds_binary (n := .comparison) rfl rfl rfl rfl hterm

theorem taking_ruleAt (budget : Nat) : Rules.Taking ⟨budget + 1, ruleAt budget⟩ :=
  fun _ _ _ _ hsize hw hr => takes_ruleAt (Nat.lt_of_succ_lt_succ hsize) hw hr

theorem operand_of_follows {level : Level} {t : Token} {r : List Token} {budget : Nat}
    (ht : (level.operator? t).isSome = true) (h : OperandFollows t r) (hlength : r.length < budget)
    {d : Cursor} (hd : d.rest = r) :
    ∃ e d', level.operand ⟨budget + 1, ruleAt budget⟩ d = .ok e d' := by
  obtain ⟨level', ht', w, rest, rfl, hw, hends⟩ := h
  obtain rfl : level' = level :=
    Level.strength_injective ((strength_of_isSome ht').symm.trans (strength_of_isSome ht))
  rw [List.length_append] at hlength
  -- An operand has a `break` within functions only, so that the loops around do not matter.
  have hderives : Derives (decide (d.loopDepth ≠ 0)) (.of level'.operandNonterminal) w := by
    cases decide (d.loopDepth ≠ 0) with
    | false => exact hw
    | true => exact hw.within
  have htakes := (binds_operand (taking_ruleAt budget) _ level').takes w rest
    (show w.length < budget + 1 by omega) hderives hends d hd (by simp [Cursor.InLoop])
  unfold Ensures at htakes
  cases hrun : level'.operand ⟨budget + 1, ruleAt budget⟩ d with
  | ok e d' => exact ⟨e, d', rfl⟩
  | error p d' =>
    rw [hrun] at htakes
    exact htakes.elim

theorem ruleAt_unary_of_nil (budget : Nat) {c : Cursor} (h : c.rest = []) :
    ruleAt budget .unary c = .error ⟨c.peek, .missingExpression⟩ c := by
  cases budget with
  | zero => rfl
  | succ budget => exact unary_of_nil h

theorem reports_ruleAt {budget : Nat} (hroom : room ≤ budget) (category : Category) :
    cut.Reports room (category.Enters cut) category.advances (category.Leaves cut)
      category.stop (ruleAt budget category) := by
  induction budget generalizing room category with
  | zero =>
    obtain rfl := Nat.le_zero.mp hroom
    exact ⟨grows_failHere _, fun c hstanding => absurd hstanding.room (Nat.not_lt_zero _)⟩
  | succ budget ih =>
    have hinner : Rules.Reporting cut budget ⟨budget + 1, ruleAt budget⟩ :=
      { bound := Nat.le_succ budget
        read := fun category => ih (Nat.le_refl budget) category
        fails := fun c hrest => ruleAt_unary_of_nil budget hrest
        operand := fun level ht hfollows hlength d hd => operand_of_follows ht hfollows hlength hd }
    exact (reports_rule hinner category).less hroom (Nat.le_refl _)

end Grammar

end LoxLang
