import LoxLang.Proofs.Grammar.Completeness

/-!
# What is accepted

With statements and declarations every rule takes up what is derived from its production. Together
with the other direction this makes the texts that are read without a problem those that the
grammar derives.
-/

namespace LoxLang

namespace Grammar

variable {inner : Rules} {loop : Bool} {w r : List Token}

theorem takesUp_map {α β : Type} {rule : Rule α} {f : α → β} (h : TakesUp loop rule w r) :
    TakesUp loop (f <$> rule) w r := by
  rw [map_eq_pure_bind]
  exact h.last fun _ _ => takesUp_pure

/-! ## Statements -/

theorem takes_optionalBefore {symbol : Symbol} {u : List Token}
    (hw : Derives loop (.optional (.of .expression)) w) (hu : Derives loop (.symbol symbol) u)
    (hs : .symbol symbol ∉ expressionTerminals) {rule : Rule Expr}
    (h : Derives loop (.of .expression) w → TakesUp loop rule w (u ++ r)) :
    TakesUp loop (optionalBefore symbol rule) w (u ++ r) := by
  rcases derives_optional.mp hw with rfl | hw
  · obtain ⟨t, rfl, ht⟩ := derives_symbol.mp hu
    exact takes_atSymbol ⟨t, rfl, ht⟩ takesUp_pure
  · refine takes_atSymbol_avoids (avoids_symbol_append hw rfl hs) ?_
    exact (h hw).last fun _ _ => takesUp_pure

theorem takes_varDecl (h : inner.Taking) (hsize : w.length < inner.bound)
    (hw : Derives loop (.seq [.name, .optional (.seq [.symbol .equal, .of .expression]),
      .symbol .semicolon]) w) : TakesUp loop (varDecl inner) w r := by
  obtain ⟨name, w₁, rfl, hname, hw₁⟩ := derives_cons.mp hw
  obtain ⟨initial, close, rfl, hinitial, hclose⟩ := derives_pair.mp hw₁
  have hend : ∀ name initial, TakesUp loop (do
      let _ ← expect .declarationEnd
      return Stmt.varDecl name initial) close r :=
    fun _ _ => (takes_expect hclose).last fun _ _ => takesUp_pure
  refine Takes.use (takes_expectName hname) fun name _ => ?_
  rcases derives_optional.mp hinitial with rfl | hinitial
  · have havoids : Avoids (isSymbol .equal) (close ++ r) :=
      avoids_symbol_append hclose rfl (by decide)
    exact takes_accept_avoids havoids (hend name none)
  · obtain ⟨equal, e, rfl, hequal, he⟩ := derives_pair.mp hinitial
    have hpositive := length_pos_of_derives hequal rfl
    simp only [List.length_append] at hsize
    rw [List.append_assoc]
    have hvalue : TakesUp loop (inner.read .expression) e (close ++ r) :=
      h.expression he (by omega) (ends_of_symbol hclose (by decide))
    exact takes_accept hequal (Takes.use (takesUp_map hvalue) fun e _ => hend name e)

theorem takes_expressionStatement {rule : Rule Expr}
    (h : ∀ e r, e.length < w.length → Derives loop (.of .expression) e → Ends 10 r →
      TakesUp loop rule e r) (hw : Derives loop (.of .exprStmt) w) :
    TakesUp loop (expressionStatement rule) w r := by
  obtain ⟨e, close, rfl, he, hclose⟩ := derives_pair.mp (derives_of.mp hw)
  have hpositive := length_pos_of_derives hclose rfl
  have hlength : e.length < (e ++ close).length := by
    rw [List.length_append]
    omega
  refine Takes.use (h e _ hlength he (ends_of_symbol hclose (by decide))) fun _ _ => ?_
  exact (takes_expect hclose).last fun _ _ => takesUp_pure

theorem takes_forInitial (h : inner.Taking) (hsize : w.length < inner.bound)
    (hw : Derives loop (.choice [.of .varDecl, .of .exprStmt, .symbol .semicolon]) w) :
    TakesUp loop (forInitial inner) w r := by
  obtain ⟨p, mem, hp⟩ := derives_choice.mp hw
  simp only [List.mem_cons, List.not_mem_nil, or_false] at mem
  rcases mem with rfl | rfl | rfl
  · refine takes_accept_avoids (avoids_symbol_append hp rfl (by decide)) ?_
    obtain ⟨word, v, rfl, hword, hv⟩ := derives_cons.mp (derives_of.mp hp)
    rw [List.length_append] at hsize
    refine takes_acceptWord hword ?_
    exact (takes_varDecl h (by omega) hv).last fun _ _ => takesUp_pure
  · refine takes_accept_avoids (avoids_symbol_append hp rfl (by decide)) ?_
    refine takes_acceptWord_avoids (avoids_word_append hp rfl (by decide)) ?_
    refine (takes_expressionStatement (fun e r hlength he hr => ?_) hp).last fun _ _ => takesUp_pure
    exact h.expression he (by omega) hr
  · rw [← List.append_nil w]
    exact takes_accept hp takesUp_pure

/-- The body of a loop. -/
theorem takes_loopBody (h : inner.Taking) (hsize : w.length + 1 < inner.bound)
    (hw : Derives true (.of .statement) w) (hr : Absorbs true w → NoElse r) :
    TakesUp loop (withLoopDepth (· + 1) (inner.read .statement)) w r := by
  have hbody : TakesUp true (inner.read .statement) w r := h true .statement w r hsize hw hr
  exact takes_withLoopDepth hbody fun _ _ => by simp

/-- A statement absorbs an `else` behind it as far as its last part does. -/
theorem absorbs_append {within : Bool} {v : List Token}
    (hwithin : ∀ p u, Derives loop p u → Derives within p u)
    (hw : ∀ v, Derives within (.of .statement) v → Derives loop (.of .statement) (w ++ v))
    (hv : Absorbs within v) : Absorbs loop (w ++ v) := by
  intro u s hu hs
  rw [List.append_assoc]
  exact hw _ (hv u s (hwithin _ _ hu) (hwithin _ _ hs))

/-- A loop up to its body. -/
theorem derives_whileDo {t : Token} {open' e close v : List Token}
    (ht : t.kind = .keyword .whileWord) (hopen : Derives loop (.symbol .leftParen) open')
    (he : Derives loop (.of .expression) e) (hclose : Derives loop (.symbol .rightParen) close)
    (hv : Derives true (.of .statement) v) :
    Derives loop (.of .statement) ((t :: (open' ++ (e ++ close))) ++ v) := by
  have hword : Derives loop (.word .whileWord) [t] := .word ht (by simp)
  have hparts := Derives.cons hword
    (.cons hopen (.cons he (derives_pair.mpr ⟨close, v, rfl, hclose, .loopBody hv⟩)))
  have hwhile : Derives loop (.of .whileStmt) ((t :: (open' ++ (e ++ close))) ++ v) := by
    simpa using Derives.of (n := .whileStmt) hparts
  exact hwhile.alternative rfl (by simp)

theorem takes_whileStatement (h : inner.Taking) (hsize : w.length < inner.bound) {t : Token}
    (ht : t.kind = .keyword .whileWord) (hw : Derives loop (.seq [.symbol .leftParen,
      .of .expression, .symbol .rightParen, .loopBody (.of .statement)]) w)
    (hr : Absorbs loop (t :: w) → NoElse r) : TakesUp loop (whileStatement inner) w r := by
  obtain ⟨open', w₁, rfl, hopen, hw₁⟩ := derives_cons.mp hw
  obtain ⟨e, w₂, rfl, he, hw₂⟩ := derives_cons.mp hw₁
  obtain ⟨close, body, rfl, hclose, hbody⟩ := derives_pair.mp hw₂
  have hbody' := derives_loopBody.mp hbody
  have hnext : Absorbs true body → NoElse r := by
    intro habsorbs
    refine hr ?_
    simpa using absorbs_append (fun _ _ => Derives.within)
      (fun _ => derives_whileDo ht hopen he hclose) habsorbs
  have hpositive := length_pos_of_derives hopen rfl
  have hpositive' := length_pos_of_derives hclose rfl
  simp only [List.length_append] at hsize
  have hends : Ends 10 ((close ++ body) ++ r) := by
    rw [List.append_assoc]
    exact ends_of_symbol hclose (by decide)
  refine Takes.use (takes_expect hopen) fun _ _ => ?_
  refine Takes.use (h.expression he (by omega) hends) fun _ _ => ?_
  refine Takes.use (takes_expect hclose) fun _ _ => ?_
  exact (takes_loopBody h (by omega) hbody' hnext).last fun _ _ => takesUp_pure

theorem derives_forDo {t : Token} {open' initial condition middle increment close v : List Token}
    (ht : t.kind = .keyword .forWord) (hopen : Derives loop (.symbol .leftParen) open')
    (hinitial : Derives loop (.choice [.of .varDecl, .of .exprStmt, .symbol .semicolon]) initial)
    (hcondition : Derives loop (.optional (.of .expression)) condition)
    (hmiddle : Derives loop (.symbol .semicolon) middle)
    (hincrement : Derives loop (.optional (.of .expression)) increment)
    (hclose : Derives loop (.symbol .rightParen) close) (hv : Derives true (.of .statement) v) :
    Derives loop (.of .statement)
      ((t :: (open' ++ (initial ++ (condition ++ (middle ++ (increment ++ close)))))) ++ v) := by
  have hword : Derives loop (.word .forWord) [t] := .word ht (by simp)
  have hparts := Derives.cons hword (.cons hopen (.cons hinitial (.cons hcondition
    (.cons hmiddle (.cons hincrement
      (derives_pair.mpr ⟨close, v, rfl, hclose, .loopBody hv⟩))))))
  have hfor : Derives loop (.of .forStmt)
      ((t :: (open' ++ (initial ++ (condition ++ (middle ++ (increment ++ close)))))) ++ v) := by
    simpa using Derives.of (n := .forStmt) hparts
  exact hfor.alternative rfl (by simp)

theorem takes_forStatement (h : inner.Taking) (hsize : w.length < inner.bound) {t : Token}
    (ht : t.kind = .keyword .forWord) (hw : Derives loop (.seq [.symbol .leftParen,
      .choice [.of .varDecl, .of .exprStmt, .symbol .semicolon], .optional (.of .expression),
      .symbol .semicolon, .optional (.of .expression), .symbol .rightParen,
      .loopBody (.of .statement)]) w)
    (hr : Absorbs loop (t :: w) → NoElse r) : TakesUp loop (forStatement inner) w r := by
  obtain ⟨open', w₁, rfl, hopen, hw₁⟩ := derives_cons.mp hw
  obtain ⟨initial, w₂, rfl, hinitial, hw₂⟩ := derives_cons.mp hw₁
  obtain ⟨condition, w₃, rfl, hcondition, hw₃⟩ := derives_cons.mp hw₂
  obtain ⟨middle, w₄, rfl, hmiddle, hw₄⟩ := derives_cons.mp hw₃
  obtain ⟨increment, w₅, rfl, hincrement, hw₅⟩ := derives_cons.mp hw₄
  obtain ⟨close, body, rfl, hclose, hbody⟩ := derives_pair.mp hw₅
  have hbody' := derives_loopBody.mp hbody
  -- A body that would take an `else` makes the whole loop take it.
  have hnext : Absorbs true body → NoElse r := by
    intro habsorbs
    refine hr ?_
    simpa using absorbs_append (fun _ _ => Derives.within)
      (fun _ => derives_forDo ht hopen hinitial hcondition hmiddle hincrement hclose) habsorbs
  have hpositive := length_pos_of_derives hopen rfl
  have hpositive' := length_pos_of_derives hclose rfl
  simp only [List.length_append] at hsize
  have hcondition' : TakesUp loop (optionalBefore .semicolon (inner.read .expression)) condition
      ((middle ++ (increment ++ (close ++ body))) ++ r) := by
    rw [List.append_assoc]
    refine takes_optionalBefore hcondition hmiddle (by decide) fun he => ?_
    exact h.expression he (by omega) (ends_of_symbol hmiddle (by decide))
  have hincrement' : TakesUp loop (optionalBefore .rightParen (inner.read .expression)) increment
      ((close ++ body) ++ r) := by
    rw [List.append_assoc]
    refine takes_optionalBefore hincrement hclose (by decide) fun he => ?_
    exact h.expression he (by omega) (ends_of_symbol hclose (by decide))
  refine Takes.use (takes_expect hopen) fun _ _ => ?_
  refine Takes.use (takes_forInitial h (by omega) hinitial) fun _ _ => ?_
  refine Takes.use hcondition' fun _ _ => Takes.use (takes_expect hmiddle) fun _ _ => ?_
  refine Takes.use hincrement' fun _ _ => Takes.use (takes_expect hclose) fun _ _ => ?_
  exact (takes_loopBody h (by omega) hbody' hnext).last fun _ _ => takesUp_pure

/-- An `if` up to its first branch. -/
theorem derives_ifThen {t : Token} {open' e close s v : List Token}
    (ht : t.kind = .keyword .ifWord) (hopen : Derives loop (.symbol .leftParen) open')
    (he : Derives loop (.of .expression) e) (hclose : Derives loop (.symbol .rightParen) close)
    (hs : Derives loop (.of .statement) s)
    (hv : Derives loop (.optional (.seq [.word .elseWord, .of .statement])) v) :
    Derives loop (.of .statement) ((t :: (open' ++ (e ++ (close ++ s)))) ++ v) := by
  have hword : Derives loop (.word .ifWord) [t] := .word ht (by simp)
  have hparts := Derives.cons hword
    (.cons hopen (.cons he (.cons hclose (derives_pair.mpr ⟨s, v, rfl, hs, hv⟩))))
  have hif : Derives loop (.of .ifStmt) ((t :: (open' ++ (e ++ (close ++ s)))) ++ v) := by
    simpa using Derives.of (n := .ifStmt) hparts
  exact hif.alternative rfl (by simp)

/-- An `if` up to its condition. -/
theorem takes_ifFront (h : inner.Taking) {open' e close v : List Token}
    (hopen : Derives loop (.symbol .leftParen) open') (he : Derives loop (.of .expression) e)
    (hclose : Derives loop (.symbol .rightParen) close) (hlength : e.length + 1 < inner.bound)
    (hv : ∀ condition, TakesUp loop (do
      let thenBranch ← inner.read .statement
      let elseBranch ← if ← acceptWord .elseWord then some <$> inner.read .statement else pure none
      return Stmt.ifThen condition thenBranch elseBranch) v r) :
    TakesUp loop (ifStatement inner) (open' ++ (e ++ (close ++ v))) r := by
  have hends : Ends 10 ((close ++ v) ++ r) := by
    rw [List.append_assoc]
    exact ends_of_symbol hclose (by decide)
  refine Takes.use (takes_expect hopen) fun _ _ => ?_
  refine Takes.use (h.expression he hlength hends) fun condition _ => ?_
  exact Takes.use (takes_expect hclose) fun _ _ => hv condition

/-- An `if` without an `else`. -/
theorem takes_ifThen (h : inner.Taking) {open' e close v : List Token}
    (hopen : Derives loop (.symbol .leftParen) open') (he : Derives loop (.of .expression) e)
    (hclose : Derives loop (.symbol .rightParen) close) (hv : Derives loop (.of .statement) v)
    (hlength : v.length + e.length + 2 < inner.bound) (hr : NoElse r) :
    TakesUp loop (ifStatement inner) (open' ++ (e ++ (close ++ v))) r := by
  refine takes_ifFront h hopen he hclose (by omega) fun condition => ?_
  have hthen : TakesUp loop (inner.read .statement) v r :=
    h loop .statement v r (by omega) hv fun _ => hr
  exact hthen.last fun _ _ => takes_acceptWord_avoids hr takesUp_pure

theorem takes_ifStatement (h : inner.Taking) (hsize : w.length < inner.bound) {t : Token}
    (ht : t.kind = .keyword .ifWord) (hw : Derives loop (.seq [.symbol .leftParen,
      .of .expression, .symbol .rightParen, .of .statement,
      .optional (.seq [.word .elseWord, .of .statement])]) w)
    (hr : Absorbs loop (t :: w) → NoElse r) : TakesUp loop (ifStatement inner) w r := by
  obtain ⟨open', w₁, rfl, hopen, hw₁⟩ := derives_cons.mp hw
  obtain ⟨e, w₂, rfl, he, hw₂⟩ := derives_cons.mp hw₁
  obtain ⟨close, w₃, rfl, hclose, hw₃⟩ := derives_cons.mp hw₂
  obtain ⟨s, x, rfl, hs, hx⟩ := derives_pair.mp hw₃
  have hpositive := length_pos_of_derives hopen rfl
  have hpositive' := length_pos_of_derives hclose rfl
  simp only [List.length_append] at hsize
  rcases derives_optional.mp hx with rfl | hx
  · rw [List.append_nil] at hr ⊢
    refine takes_ifThen h hopen he hclose hs (by omega) (hr fun u v hu hv => ?_)
    exact derives_ifThen ht hopen he hclose hs (.present (derives_pair.mpr ⟨u, v, rfl, hu, hv⟩))
  obtain ⟨u, v, rfl, hu, hv⟩ := derives_pair.mp hx
  have hword := length_pos_of_derives hu rfl
  have hlast : Absorbs loop v → NoElse r := by
    intro habsorbs
    refine hr ?_
    have hstmt : ∀ v, Derives loop (.of .statement) v → Derives loop (.of .statement)
        ((t :: (open' ++ (e ++ (close ++ (s ++ u))))) ++ v) := by
      intro v hv
      have hif := derives_ifThen ht hopen he hclose hs
        (.present (derives_pair.mpr ⟨u, v, rfl, hu, hv⟩))
      simpa using hif
    simpa using absorbs_append (fun _ _ => id) hstmt habsorbs
  simp only [List.length_append] at hsize
  -- A first branch that takes the `else` up itself leaves this `if` without one.
  by_cases habsorbs : Absorbs loop s
  · refine takes_ifThen h hopen he hclose (habsorbs u v hu hv) ?_ (hr fun u' v' hu' hv' => ?_)
    · simp only [List.length_append]
      omega
    · exact derives_ifThen ht hopen he hclose (habsorbs u v hu hv)
        (.present (derives_pair.mpr ⟨u', v', rfl, hu', hv'⟩))
  · refine takes_ifFront h hopen he hclose (by omega) fun condition => ?_
    have hthen : TakesUp loop (inner.read .statement) s ((u ++ v) ++ r) :=
      h loop .statement s _ (by omega) hs fun hcontra => absurd hcontra habsorbs
    have helse : TakesUp loop (inner.read .statement) v r :=
      h loop .statement v r (by omega) hv hlast
    refine Takes.use hthen fun thenBranch _ => takes_acceptWord hu ?_
    exact (takesUp_map helse).last fun _ _ => takesUp_pure

theorem takes_returnStatement (h : inner.Taking) (hsize : w.length < inner.bound) {line : Nat}
    (hw : Derives loop (.seq [.optional (.of .expression), .symbol .semicolon]) w) :
    TakesUp loop (returnStatement inner line) w r := by
  obtain ⟨e, close, rfl, he, hclose⟩ := derives_pair.mp hw
  have hpositive := length_pos_of_derives hclose rfl
  rw [List.length_append] at hsize
  have hends : Ends 10 (close ++ r) := ends_of_symbol hclose (by decide)
  refine Takes.use (takes_optionalBefore he hclose (by decide)
    fun he => h.expression he (by omega) hends) fun _ _ => ?_
  exact (takes_expect hclose).last fun _ _ => takesUp_pure

theorem takes_printStatement (h : inner.Taking) (hsize : w.length < inner.bound)
    (hw : Derives loop (.seq [.of .expression, .symbol .semicolon]) w) :
    TakesUp loop (printStatement inner) w r := by
  obtain ⟨e, close, rfl, he, hclose⟩ := derives_pair.mp hw
  have hpositive := length_pos_of_derives hclose rfl
  rw [List.length_append] at hsize
  have hends : Ends 10 (close ++ r) := ends_of_symbol hclose (by decide)
  refine Takes.use (h.expression he (by omega) hends) fun _ _ => ?_
  exact (takes_expect hclose).last fun _ _ => takesUp_pure

theorem takes_breakLoop {word : Token} (hloop : loop = true)
    (hw : Derives loop (.symbol .semicolon) w) : TakesUp loop (breakLoop word) w r := by
  refine takes_loopDepth fun depth hdepth => ?_
  rw [if_neg (hdepth.mpr hloop)]
  have hend : TakesUp loop (expect .breakEnd) w r := takes_expect hw
  exact hend.last fun _ _ => takesUp_pure

/-- What begins as an expression does is read as one with its semicolon. -/
theorem takes_statement_expression (hbegins : Begins expressionTerminals w) (hne : w ≠ [])
    {good : Stmt → Prop} (h : Takes loop (expressionStatement (expression inner)) w r good) :
    Takes loop (statement inner) w r good := by
  obtain ⟨t, v, rfl⟩ := List.exists_cons_of_ne_nil hne
  obtain ⟨k, hk, hterminal⟩ := hbegins t rfl
  refine takes_peek_cons ?_
  split
  all_goals first
    | next hkind =>
      simp only [terminal?, hkind, Option.some.injEq] at hterminal
      subst hterminal
      simp [expressionTerminals, operandTerminals] at hk
    | skip
  exact h

theorem takes_statement (h : inner.Taking) (hsize : w.length < inner.bound)
    (hw : Derives loop (.of .statement) w) (hr : Absorbs loop w → NoElse r) :
    TakesUp loop (statement inner) w r := by
  obtain ⟨p, mem, hp⟩ := derives_choice.mp (derives_of.mp hw)
  simp only [List.mem_cons, List.not_mem_nil, or_false] at mem
  rcases mem with rfl | rfl | rfl | rfl | rfl | rfl | rfl | rfl
  · have hne := List.ne_nil_of_length_pos (length_pos_of_derives hp rfl)
    refine takes_statement_expression (begins_of_derives hp) hne ?_
    refine takes_expressionStatement (fun e r hlength he hends => ?_) hp
    exact takes_expression h e r (by omega) he hends
  all_goals
    obtain ⟨a, v, rfl, ha, hv⟩ := derives_cons.mp (derives_of.mp hp)
  case inr.inr.inr.inr.inr.inl =>
    obtain ⟨t, rfl, ht⟩ := derives_symbol.mp ha
    rw [List.length_append, List.length_singleton] at hsize
    refine takes_peek_cons ?_
    simp only [ht]
    exact takes_advance fun _ => (takes_block h (by omega) hv).last fun _ _ => takesUp_pure
  all_goals
    obtain ⟨t, rfl, ht, hbreak⟩ := derives_word.mp ha
    rw [List.length_append, List.length_singleton] at hsize
    have hlength : v.length < inner.bound := by omega
    refine takes_peek_cons ?_
    simp only [ht]
    refine takes_advance fun _ => ?_
  · exact takes_printStatement h hlength hv
  · exact takes_whileStatement h hlength ht hv hr
  · exact takes_forStatement h hlength ht hv hr
  · exact takes_ifStatement h hlength ht hv hr
  · exact takes_returnStatement h hlength hv
  · exact takes_breakLoop (hbreak rfl) (derives_single.mp hv)

/-! ## Declarations -/

theorem takes_reference {role : NameRole} (hw : Derives loop .name w) :
    TakesUp loop (reference role) w r :=
  (takes_expectName hw).last fun _ _ => takesUp_freshId.skip fun _ _ => takesUp_pure

theorem takes_withClause {bound : Nat} {u : List Token} (hsize : w.length < bound)
    (hw : Derives loop (.optional (.seq [.word .withWord, .of .traits])) w)
    (hu : Derives loop (.symbol .leftBrace) u) : TakesUp loop (withClause bound) w (u ++ r) := by
  rcases derives_optional.mp hw with rfl | hw
  · have hwith : Avoids (isWord .withWord) (u ++ r) := avoids_word_append hu rfl (by decide)
    exact takes_acceptWord_avoids hwith takesUp_pure
  · obtain ⟨word, names, rfl, hword, hnames⟩ := derives_pair.mp hw
    rw [List.length_append] at hsize
    have hitem : ∀ count, (∀ most ∈ (none : Option Nat), count ≤ most) →
        TakesAll loop bound (fun _ => True) .name (reference .ofTrait) :=
      fun _ _ _ _ _ hw _ => takes_reference hw
    have hcomma : Avoids (isSymbol .comma) (u ++ r) := avoids_symbol_append hu rfl (by decide)
    refine takes_acceptWord hword ?_
    exact takes_commaSeparated hitem (fun _ _ _ => trivial) trivial hcomma (by omega) (by omega)
      (by simp) (derives_of.mp hnames)

theorem takes_classMember (h : inner.Taking) :
    TakesAll loop inner.bound (fun _ => True) (.seq [.optional (.word .classWord), .of .function])
      (classMember inner) := by
  intro w r hsize hw _
  obtain ⟨word, v, rfl, hword, hv⟩ := derives_pair.mp hw
  rw [List.length_append] at hsize
  have hmethod : ∀ found : Bool, TakesUp loop (do
      return (found, ← namedFunction inner .method)) v r :=
    fun _ => (takes_namedFunction h (by omega) hv).last fun _ _ => takesUp_pure
  rcases derives_optional.mp hword with rfl | hword
  · exact takes_acceptWord_avoids (avoids_word_append hv rfl (by decide)) (hmethod false)
  · exact takes_acceptWord hword (hmethod true)

/-- Members of a class or trait up to its closing brace. -/
theorem takes_members {α : Type} {p : Phrase} {item : Rule α}
    (h : TakesAll loop inner.bound (fun _ => True) p item) (hfilled : p.nullable = false)
    (hstart : .symbol .rightBrace ∉ p.starts) (hsize : w.length < inner.bound)
    (hw : Derives loop (.many none p) w) {u : List Token}
    (hu : Derives loop (.symbol .rightBrace) u) :
    TakesUp loop (untilBrace item inner.bound) w (u ++ r) := by
  obtain ⟨t, rfl, ht⟩ := derives_symbol.mp hu
  exact takes_untilBrace h hfilled hstart (fun _ _ _ => trivial) ht trivial hsize hsize hw

/-- A class behind its name and that of its superclass. -/
theorem takes_classBody (h : inner.Taking) (hsize : w.length < inner.bound)
    {last : List Reference → List (Bool × NamedFunction) → Rule Stmt}
    (hlast : ∀ traits members, TakesUp loop (last traits members) [] r)
    (hw : Derives loop (.seq [.optional (.seq [.word .withWord, .of .traits]),
      .symbol .leftBrace, .many none (.seq [.optional (.word .classWord), .of .function]),
      .symbol .rightBrace]) w) :
    TakesUp loop (do
      let traits ← withClause inner.bound
      let _ ← expect .classOpen
      let members ← untilBrace (classMember inner) inner.bound
      let _ ← expect .classClose
      last traits members) w r := by
  obtain ⟨traits, w₁, rfl, htraits, hw₁⟩ := derives_cons.mp hw
  obtain ⟨open', w₂, rfl, hopen, hw₂⟩ := derives_cons.mp hw₁
  obtain ⟨members, close, rfl, hmembers, hclose⟩ := derives_pair.mp hw₂
  simp only [List.length_append] at hsize
  have htraits' : TakesUp loop (withClause inner.bound) traits
      ((open' ++ (members ++ close)) ++ r) := by
    rw [List.append_assoc]
    exact takes_withClause (by omega) htraits hopen
  refine Takes.use htraits' fun traits _ => Takes.use (takes_expect hopen) fun _ _ => ?_
  refine Takes.use (takes_members (takes_classMember h) rfl (by decide) (by omega) hmembers
    hclose) fun members _ => ?_
  exact (takes_expect hclose).last fun _ _ => hlast traits members

theorem takes_classDecl (h : inner.Taking) (hsize : w.length < inner.bound)
    (hw : Derives loop (.seq [.name, .optional (.seq [.symbol .less, .name]),
      .optional (.seq [.word .withWord, .of .traits]), .symbol .leftBrace,
      .many none (.seq [.optional (.word .classWord), .of .function]), .symbol .rightBrace]) w) :
    TakesUp loop (classDecl inner) w r := by
  obtain ⟨name, w₁, rfl, hname, hw₁⟩ := derives_cons.mp hw
  obtain ⟨superclass, body, rfl, hsuperclass, hbody⟩ := derives_cons.mp hw₁
  simp only [List.length_append] at hsize
  have hlength : body.length < inner.bound := by omega
  refine Takes.use (takes_expectName hname) fun name _ => ?_
  rcases derives_optional.mp hsuperclass with rfl | hsuperclass
  · have havoids : Avoids (isSymbol .less) (body ++ r) :=
      avoids_symbol_append hbody rfl (by decide)
    exact takes_accept_avoids havoids
      (takes_classBody h hlength (fun _ _ => takesUp_pure) hbody)
  · obtain ⟨less, extended, rfl, hless, hextended⟩ := derives_pair.mp hsuperclass
    rw [List.append_assoc]
    have href : TakesUp loop (reference .ofSuperclass) extended (body ++ r) :=
      takes_reference hextended
    refine takes_accept hless (Takes.use (takesUp_map href) fun superclass _ => ?_)
    exact takes_classBody h hlength (fun _ _ => takesUp_pure) hbody

theorem takes_traitDecl (h : inner.Taking) (hsize : w.length < inner.bound)
    (hw : Derives loop (.seq [.name, .optional (.seq [.word .withWord, .of .traits]),
      .symbol .leftBrace, .many none (.of .function), .symbol .rightBrace]) w) :
    TakesUp loop (traitDecl inner) w r := by
  obtain ⟨name, w₁, rfl, hname, hw₁⟩ := derives_cons.mp hw
  obtain ⟨traits, w₂, rfl, htraits, hw₂⟩ := derives_cons.mp hw₁
  obtain ⟨open', w₃, rfl, hopen, hw₃⟩ := derives_cons.mp hw₂
  obtain ⟨methods, close, rfl, hmethods, hclose⟩ := derives_pair.mp hw₃
  simp only [List.length_append] at hsize
  have htraits' : TakesUp loop (withClause inner.bound) traits
      ((open' ++ (methods ++ close)) ++ r) := by
    rw [List.append_assoc]
    exact takes_withClause (by omega) htraits hopen
  have hmethod : TakesAll loop inner.bound (fun _ => True) (.of .function)
      (namedFunction inner .method) := fun _ _ hsize hw _ => takes_namedFunction h hsize hw
  refine Takes.use (takes_expectName hname) fun name _ => Takes.use htraits' fun _ _ => ?_
  refine Takes.use (takes_expect hopen) fun _ _ => ?_
  refine Takes.use (takes_members hmethod rfl (by decide) (by omega) hmethods hclose) fun _ _ => ?_
  exact (takes_expect hclose).last fun _ _ => takesUp_pure

/-- What is decided by `fun` and what stands behind it. -/
theorem takes_atNamedFunction : Takes loop atNamedFunction [] r fun found =>
    found = true ↔ ∃ t t' v n, r = t :: t' :: v ∧ t.kind = .keyword .funWord ∧
      t'.kind = .identifier n := by
  intro c hrest _
  rw [List.nil_append] at hrest
  unfold Ensures atNamedFunction
  rw [hrest]
  split
  · next a c' hrule =>
    split at hrule
    · cases hrule
      exact ⟨hrest, rfl, rfl, fun _ => ⟨_, _, _, _, rfl, rfl, rfl⟩, fun _ => rfl⟩
    · next hnone =>
      cases hrule
      refine ⟨hrest, rfl, rfl, by simp, ?_⟩
      rintro ⟨⟨kind, line⟩, ⟨kind', line'⟩, v, n, rfl, rfl, rfl⟩
      exact absurd rfl (hnone line n line' v)
  · next hrule => split at hrule <;> cases hrule

/-- Tokens that do not begin with a named function. -/
theorem takes_nameless {β : Type} {next : Bool → Rule β} {good : β → Prop}
    (h : Nameless (w ++ r)) (h' : Takes loop (next false) w r good) :
    Takes loop (atNamedFunction >>= next) w r good := by
  refine takes_atNamedFunction.skip fun found hfound => ?_
  have hnot : found = false := by
    refine Bool.eq_false_iff.mpr fun htrue => ?_
    obtain ⟨t, t', v, n, hsame, ht, ht'⟩ := hfound.mp htrue
    obtain ⟨t'', ht'', s, hs⟩ := h t (t' :: v) hsame ht
    obtain rfl := Option.some.inj ht''
    rw [ht'] at hs
    cases hs
  rw [hnot]
  exact h'

theorem nameless_append {p : Phrase} (hw : Derives loop p w) (hp : p.nullable = false)
    (hnameless : p.nameless = true) : Nameless (w ++ r) :=
  (nameless_of_derives hw hnameless).append fun hempty =>
    absurd hempty (List.ne_nil_of_length_pos (length_pos_of_derives hw hp))

theorem takes_strictDeclaration (h : inner.Taking) (hsize : w.length < inner.bound)
    (hw : Derives loop (.of .declaration) w) (hr : NoElse r) :
    TakesUp loop (strictDeclaration inner) w r := by
  obtain ⟨p, mem, hp⟩ := derives_choice.mp (derives_of.mp hw)
  simp only [List.mem_cons, List.not_mem_nil, or_false] at mem
  rcases mem with rfl | rfl | rfl | rfl | rfl
  · obtain ⟨a, v, rfl, ha, hv⟩ := derives_cons.mp (derives_of.mp hp)
    rw [List.length_append] at hsize
    exact takes_acceptWord ha (takes_classDecl h (by omega) hv)
  all_goals refine takes_acceptWord_avoids (avoids_word_append hp rfl (by decide)) ?_
  · obtain ⟨a, v, rfl, ha, hv⟩ := derives_cons.mp (derives_of.mp hp)
    rw [List.length_append] at hsize
    exact takes_acceptWord ha (takes_traitDecl h (by omega) hv)
  all_goals refine takes_acceptWord_avoids (avoids_word_append hp rfl (by decide)) ?_
  · obtain ⟨a, v, rfl, ha, hv⟩ := derives_pair.mp (derives_of.mp hp)
    obtain ⟨b, v', hv', hb, _⟩ := derives_cons.mp (derives_of.mp hv)
    obtain ⟨t, rfl, ht, _⟩ := derives_word.mp ha
    obtain ⟨t', n, rfl, ht'⟩ := derives_name.mp hb
    rw [List.length_append, List.length_singleton] at hsize
    refine takes_atNamedFunction.skip fun found hfound => ?_
    rw [hfound.mpr ⟨t, t', v' ++ r, n, by simp [hv'], ht, ht'⟩, if_pos rfl]
    refine takes_advance fun _ => ?_
    exact (takes_namedFunction h (by omega) hv).last fun _ _ => takesUp_pure
  all_goals refine takes_nameless (nameless_append hp rfl rfl) ?_
  · obtain ⟨a, v, rfl, ha, hv⟩ := derives_cons.mp (derives_of.mp hp)
    rw [List.length_append] at hsize
    exact takes_acceptWord ha (takes_varDecl h (by omega) hv)
  · refine takes_acceptWord_avoids (avoids_word_append hp rfl (by decide)) ?_
    exact takes_statement h hsize hp fun _ => hr

/-! ## The knot -/

theorem takes_rule (h : inner.Taking) (category : Category) (hsize : w.length < inner.bound)
    (hw : Derives loop (.of category.nonterminal) w) (hr : category.Stops loop w r) :
    TakesUp loop (rule inner category) w r := by
  cases category with
  | expression => exact takes_expression h w r hsize hw hr
  | assignment => exact takes_assignment h w r hsize hw hr
  | conditional => exact (binds_conditional h).takes w r hsize hw hr
  | unary => exact (binds_unary h).takes w r hsize hw hr
  | statement => exact takes_statement h hsize hw hr
  | declaration => exact (takes_recover (takes_strictDeclaration h hsize hw hr)).up

/-- With a budget above their number the tokens of a category are taken up. -/
theorem takes_ruleAt {budget : Nat} {category : Category} (hsize : w.length < budget)
    (hw : Derives loop (.of category.nonterminal) w) (hr : category.Stops loop w r) :
    TakesUp loop (ruleAt budget category) w r := by
  induction budget generalizing loop category w r with
  | zero => omega
  | succ budget ih =>
    have htaking : Rules.Taking ⟨budget + 1, ruleAt budget⟩ := by
      intro loop category w r hsize hw hr
      exact ih (Nat.lt_of_succ_lt_succ hsize) hw hr
    exact takes_rule htaking category hsize hw hr

/-! ## Whole texts -/

theorem takes_declarations {budget more : Nat} (hsize : w.length < budget)
    (hmore : w.length < more) (hw : Derives loop (.many none (.of .declaration)) w) :
    TakesUp loop (declarations budget more) w [] := by
  induction more generalizing w with
  | zero => omega
  | succ more ih =>
    refine takes_atEnd.skip fun atEnd hend => ?_
    rcases derives_many.mp hw with rfl | ⟨u, v, rfl, _, hu, hv⟩
    · rw [hend]
      exact takesUp_pure
    have hpositive := length_pos_of_derives hu rfl
    rw [List.length_append] at hsize hmore
    have hmore' : atEnd = false := by
      rw [hend, List.append_nil, List.isEmpty_eq_false_iff, ← List.length_pos_iff, List.length_append]
      omega
    have hnext : NoElse (v ++ []) := by
      rw [List.append_nil]
      exact avoids_word hv (by decide)
    rw [hmore']
    have hfirst : TakesUp loop (ruleAt budget .declaration) u (v ++ []) :=
      takes_ruleAt (by omega) hu hnext
    refine Takes.use hfirst fun _ _ => ?_
    exact (ih (by omega) (by omega) hv).last fun _ _ => takesUp_pure

/-- Declarations are read to the end. What is known of each one is known of all of them, if none has
a problem. -/
theorem Parses.declarations {budget more : Nat} {good : List Token → Option Stmt → Prop}
    (h : Parses loop (ruleAt budget .declaration) good)
    (hpositive : ∀ w found, good w found → 0 < w.length)
    (all : List Token → List Stmt → Prop) (hnil : all [] [])
    (hcons : ∀ w found u body, good w found → all u body → all (w ++ u) (found.toList ++ body))
    {c : Cursor} (hloop : c.InLoop loop) :
    Ensures (declarations budget more) c
      (fun body c' => c'.problems = [] → c.problems = [] ∧ (c.rest.length < more →
        all c.rest body)) fun _ _ => True := by
  induction more generalizing c with
  | zero => exact fun hproblems => ⟨hproblems, fun h => absurd h (Nat.not_lt_zero _)⟩
  | succ more ih =>
    refine Ensures.bind (Q := fun found c' => found = c.rest.isEmpty ∧ c' = c) ⟨rfl, rfl⟩ ?_
    rintro found c' ⟨rfl, rfl⟩
    split
    · next hempty =>
      refine fun hproblems => ⟨hproblems, fun _ => ?_⟩
      rw [List.isEmpty_iff.mp hempty]
      exact hnil
    refine Ensures.bind ((h c'.peek c' rfl hloop).mono (fun _ _ => id) fun _ _ _ => trivial) ?_
    rintro found c'' ⟨hdepth, hread⟩
    have hloop' : c''.InLoop loop := by
      unfold Cursor.InLoop
      rwa [hdepth]
    rw [ensures_bind]
    refine (ih hloop').mono ?_ fun _ _ => id
    rintro body c₃ hrest hproblems
    obtain ⟨hbefore', hbody⟩ := hrest hproblems
    obtain ⟨hbefore, w, hsplit, hfound⟩ := hread hbefore'
    refine ⟨hbefore, fun hlength => ?_⟩
    -- Each declaration takes a token at least, so the budget lasts for those behind it.
    have hlonger := hpositive w found hfound
    rw [hsplit, List.length_append] at hlength
    rw [hsplit]
    exact hcons w found _ body hfound (hbody (by omega))

/-- Declarations that are read without a problem are derived. -/
theorem ensures_declarations {budget more : Nat} {c : Cursor} (hloop : c.InLoop loop) :
    Ensures (declarations budget more) c
      (fun _ c' => c'.problems = [] → c.problems = [] ∧ (c.rest.length < more →
        Derives loop (.many none (.of .declaration)) c.rest)) fun _ _ => True := by
  refine (yields_ruleAt budget loop .declaration).declarations
    (fun _ _ hw => length_pos_of_derives hw rfl)
    (fun w _ => Derives loop (.many none (.of .declaration)) w) .done ?_ hloop
  exact fun _ _ _ _ hw hrest => .again (by simp) hw hrest

/-- The tree of a reading is what the rule finds without a problem. -/
theorem result_eq_ok_iff {α : Type} {rule : Nat → Rule α} {tokens : List Token} {nextId : RefId}
    {tree : α} :
    (read rule tokens nextId).result = .ok tree ↔
      ∃ c, rule (tokens.length + 1) (Cursor.ofTokens tokens nextId) = .ok tree c ∧
        c.problems = [] := by
  unfold read
  cases hrule : rule (tokens.length + 1) (Cursor.ofTokens tokens nextId) with
  | ok a c =>
    simp only [EStateM.Result.ok.injEq]
    split
    · next hproblems =>
      refine ⟨fun h => ⟨c, ⟨Except.ok.inj h, rfl⟩, hproblems⟩, ?_⟩
      rintro ⟨_, ⟨rfl, _⟩, _⟩
      rfl
    · next hproblems =>
      refine ⟨fun h => (nomatch h), ?_⟩
      rintro ⟨_, ⟨_, rfl⟩, hnone⟩
      exact absurd hnone hproblems
  | error problem c => simp

/-- A reading has a tree if the rule ends without a problem. -/
theorem exists_tree_iff {α : Type} {rule : Nat → Rule α} {tokens : List Token} {nextId : RefId} :
    (∃ tree, (read rule tokens nextId).result = .ok tree) ↔
      ∃ a c, rule (tokens.length + 1) (Cursor.ofTokens tokens nextId) = .ok a c ∧
        c.problems = [] :=
  exists_congr fun _ => result_eq_ok_iff

theorem ofTokens_inLoop (tokens : List Token) (nextId : RefId) :
    (Cursor.ofTokens tokens nextId).InLoop false := by
  simp [Cursor.InLoop, Cursor.ofTokens]

/-- What is taken to the end is the tree of a reading. -/
theorem exists_good_tree {α : Type} {rule : Nat → Rule α} {tokens : List Token} {nextId : RefId}
    {good : α → Prop} (h : Takes false (rule (tokens.length + 1))
      (tokens.takeWhile fun t => !t.isEof) [] good) :
    ∃ tree, (read rule tokens nextId).result = .ok tree ∧ good tree := by
  have hends := h _ (List.append_nil _).symm (ofTokens_inLoop tokens nextId)
  unfold Ensures at hends
  cases hrule : rule (tokens.length + 1) (Cursor.ofTokens tokens nextId) with
  | ok a c =>
    rw [hrule] at hends
    exact ⟨a, result_eq_ok_iff.mpr ⟨c, hrule, hends.2.2.1⟩, hends.2.2.2⟩
  | error problem c =>
    rw [hrule] at hends
    exact hends.elim

theorem exists_tree_of_takes {α : Type} {rule : Nat → Rule α} {tokens : List Token}
    {nextId : RefId} (h : TakesUp false (rule (tokens.length + 1))
      (tokens.takeWhile fun t => !t.isEof) []) :
    ∃ tree, (read rule tokens nextId).result = .ok tree := by
  obtain ⟨tree, htree, _⟩ := exists_good_tree h
  exact ⟨tree, htree⟩

/-- An expression is read to the end. -/
theorem Parses.wholeExpression {budget : Nat} {good : List Token → Expr → Prop}
    (h : Parses loop (ruleAt budget .expression) good) {c : Cursor} (hloop : c.InLoop loop) :
    Ensures (wholeExpression budget) c
      (fun e c' => c'.problems = [] → good c.rest e) fun _ _ => True := by
  refine Ensures.bind ((h c.peek c rfl hloop).mono (fun _ _ => id) fun _ _ _ => trivial) ?_
  rintro e c' ⟨_, hread⟩
  refine Ensures.bind (Q := fun found c'' => found = c'.rest.isEmpty ∧ c'' = c') ⟨rfl, rfl⟩ ?_
  rintro found c'' ⟨rfl, rfl⟩
  split
  · next hempty =>
    intro hproblems
    obtain ⟨_, w, hsplit, hw⟩ := hread hproblems
    rw [hsplit, List.isEmpty_iff.mp hempty, List.append_nil]
    exact hw
  · trivial

theorem takes_wholeExpression {budget : Nat} (hsize : w.length < budget)
    (hw : Derives loop (.of .expression) w) : TakesUp loop (wholeExpression budget) w [] := by
  have hends : Ends 10 [] := fun t ht => by cases ht
  have hread : TakesUp loop (ruleAt budget .expression) w [] := takes_ruleAt hsize hw hends
  refine hread.last fun e _ => ?_
  refine takes_atEnd.skip fun atEnd hend => ?_
  rw [hend]
  exact takesUp_pure

/-- The tokens of a program that is read without a problem are derived. -/
theorem derives_of_readProgram {tokens : List Token} {nextId : RefId} {body : List Stmt}
    (h : (readProgram tokens nextId).result = .ok body) :
    Derives false (.of .program) (tokens.takeWhile fun t => !t.isEof) := by
  obtain ⟨c, hrule, hproblems⟩ := result_eq_ok_iff.mp h
  have hread := (ensures_declarations (ofTokens_inLoop tokens nextId)).of_ok hrule hproblems
  exact .of (hread.2 (Nat.lt_succ_of_le (List.takeWhile_sublist _).length_le))

end Grammar

open Grammar

/-- A program is read without a problem exactly if the grammar derives the tokens in front of the
end mark from `program`, and an expression exactly if it derives them from `expression`. Within a
derivation parameters and arguments are at most 255, and no `break` stands outside of the loops of
its function. -/
theorem accepts_iff_derives (tokens : List Token) (nextId : RefId) :
    ((∃ body, (readProgram tokens nextId).result = .ok body) ↔
      Derives false (.of .program) (tokens.takeWhile fun t => !t.isEof)) ∧
    ((∃ e, (readExpression tokens nextId).result = .ok e) ↔
      Derives false (.of .expression) (tokens.takeWhile fun t => !t.isEof)) := by
  have hloop : (Cursor.ofTokens tokens nextId).InLoop false := by
    simp [Cursor.InLoop, Cursor.ofTokens]
  have hlength : (tokens.takeWhile fun t => !t.isEof).length < tokens.length + 1 :=
    Nat.lt_succ_of_le (List.takeWhile_sublist _).length_le
  refine ⟨⟨fun h => ?_, fun h => ?_⟩, ⟨fun h => ?_, fun h => ?_⟩⟩
  · obtain ⟨body, hbody⟩ := h
    exact derives_of_readProgram hbody
  · exact exists_tree_of_takes (takes_declarations hlength hlength (derives_of.mp h))
  · obtain ⟨e, c, hrule, hproblems⟩ := exists_tree_iff.mp h
    exact ((yields_ruleAt _ false .expression).wholeExpression hloop).of_ok hrule hproblems
  · exact exists_tree_of_takes (takes_wholeExpression hlength h)

end LoxLang
