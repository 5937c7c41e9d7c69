import LoxLang.Proofs.Grammar.Restating

/-!
# Texts and trees

With statements and declarations every rule reads again what it has read. So a tree that was read
from a text is read from its own tokens as well, and these say what the text did, unless a `for`
loop or a class is written another way. That a statement takes up an `else` whenever one is there
is what keeps each `else` with its `if`.
-/

namespace LoxLang

namespace Grammar

variable {inner : Rules} {loop : Bool} {w r : List Token}

/-! ## What an `else` belongs to -/

/-- Where a statement with an open end has been read, no `else` is left behind it. -/
def Closes (s : Stmt) (c : Cursor) : Prop :=
  s.OpenEnded → isWord .elseWord c.peek = false

def Rules.Closing (inner : Rules) : Prop :=
  ∀ c, Ensures (inner.read .statement) c Closes fun _ _ => True

/-- Most statements have no open end. -/
theorem closes_pure {s : Stmt} (h : ¬ s.OpenEnded) (c : Cursor) :
    Ensures (pure s : Rule Stmt) c Closes fun _ _ => True :=
  fun hopen => absurd hopen h

theorem Rules.Closing.loopBody (h : inner.Closing) (c : Cursor) :
    Ensures (withLoopDepth (· + 1) (inner.read .statement)) c Closes fun _ _ => True := by
  have hinner := h { c with loopDepth := c.loopDepth + 1 }
  unfold Ensures withLoopDepth at *
  cases hrule : inner.read .statement { c with loopDepth := c.loopDepth + 1 } with
  | ok s c' => rw [hrule] at hinner; exact hinner
  | error problem c' => trivial

theorem closes_forStatement (h : inner.Closing) (c : Cursor) :
    Ensures (forStatement inner) c Closes fun _ _ => True := by
  refine ensures_last (fun _ => ensures_last fun initial => ensures_last fun condition =>
    ensures_last fun _ => ensures_last fun increment => ensures_last fun _ c => ?_) c
  refine (h.loopBody c).bind fun body c' hbody => ?_
  rw [ensures_pure]
  cases initial with
  | some s => exact fun hopen => hopen.elim
  | none =>
    cases increment with
    | some e => exact fun hopen => hopen.elim
    | none => exact hbody

theorem closes_whileStatement (h : inner.Closing) (c : Cursor) :
    Ensures (whileStatement inner) c Closes fun _ _ => True := by
  refine ensures_last (fun _ => ensures_last fun condition => ensures_last fun _ c => ?_) c
  refine (h.loopBody c).bind fun body c' hbody => ?_
  rw [ensures_pure]
  exact hbody

/-- A word that is not accepted is not there. -/
theorem ensures_acceptWord (word : Keyword) (c : Cursor) :
    Ensures (acceptWord word) c
      (fun found c' => found = false → isWord word c'.peek = false) fun _ _ => True := by
  refine Ensures.bind (Q := fun t c' => t = c.peek ∧ c' = c) ⟨rfl, rfl⟩ ?_
  rintro t c' ⟨rfl, rfl⟩
  split
  · exact fun hfound => by cases hfound
  · next hword => exact fun _ => Bool.eq_false_iff.mpr hword

theorem closes_ifStatement (h : inner.Closing) (c : Cursor) :
    Ensures (ifStatement inner) c Closes fun _ _ => True := by
  refine ensures_last (fun _ => ensures_last fun condition => ensures_last fun _ =>
    ensures_last fun thenBranch c => ?_) c
  refine (ensures_acceptWord .elseWord c).bind fun found c' hfound => ?_
  split
  · rw [ensures_bind, ensures_map]
    refine (h c').mono (fun elseBranch c'' helse => ?_) fun _ _ => id
    rw [ensures_pure]
    exact helse
  · next hnot =>
    exact fun _ => hfound (Bool.eq_false_iff.mpr hnot)

theorem closes_statement (h : inner.Closing) (c : Cursor) :
    Ensures (statement inner) c Closes fun _ _ => True := by
  refine ensures_last (fun t c => ?_) c
  split
  · refine ensures_last (fun _ => ensures_last fun depth c => ?_) c
    split
    · trivial
    · exact ensures_last (fun _ => closes_pure id) c
  · exact ensures_last (fun _ => closes_forStatement h) c
  · exact ensures_last (fun _ => closes_ifStatement h) c
  · exact ensures_last (fun _ => closes_whileStatement h) c
  · exact ensures_last (fun _ => ensures_last fun value => ensures_last fun _ => closes_pure id) c
  · exact ensures_last (fun _ => ensures_last fun body => closes_pure id) c
  · exact ensures_last (fun _ => ensures_last fun e => ensures_last fun _ => closes_pure id) c
  · exact ensures_last (fun e => ensures_last fun _ => closes_pure id) c

/-! ## Statements as they are read -/

theorem echoes_optionalBefore {rule : Rule Expr} (symbol : Symbol)
    (h : Parses loop rule (Echoes 10 expression)) :
    Parses loop (optionalBefore symbol rule) fun w value =>
      Mirrors w (value.elim [] Expr.tokens) ∧ ∀ e ∈ value, Rereads 10 expression e := by
  refine (parses_atSymbol _).skip fun _ => parses_ite (fun _ => ?_) fun _ => ?_
  · exact parses_pure ⟨mirrors_nil, by simp⟩
  · refine h.use fun e => parses_pure fun w hw => ?_
    rw [List.append_nil]
    exact ⟨hw.mirrors, by simpa using hw.again⟩

theorem echoes_varDecl (h : inner.Echoing) :
    Parses loop (varDecl inner) fun v s => ∀ w, Derives loop (.word .varWord) w →
      Mirrors (w ++ v) s.tokens ∧ Redeclares loop s := by
  refine (parses_expectName .ofVariable).use fun name => parses_ifAccept .equal ?_ ?_
  · rw [map_eq_pure_bind, bind_assoc]
    refine h.expression.use fun e => ?_
    rw [pure_bind]
    refine (yields_expect .declarationEnd).use fun _ => parses_pure ?_
    intro x hx v hv u hu n hn w hw
    rw [List.append_nil]
    refine ⟨?_, redeclares_var (by simpa using hv.again)⟩
    exact (mirrors_of_word hw).append (hn.append ((mirrors_of_symbol hu).append
      (hv.mirrors.append (mirrors_of_symbol hx))))
  · rw [pure_bind]
    refine (yields_expect .declarationEnd).use fun _ => parses_pure fun x hx n hn w hw => ?_
    rw [List.append_nil]
    refine ⟨?_, redeclares_var (by simp)⟩
    exact (mirrors_of_word hw).append (hn.append (mirrors_of_symbol hx))

theorem echoes_expressionStatement {rule : Rule Expr}
    (h : Parses loop rule (Echoes 10 expression)) :
    Parses loop (expressionStatement rule) fun w s => Mirrors w s.tokens ∧ Restates loop s := by
  refine h.use fun e => (yields_expect .expressionEnd).use fun _ => parses_pure ?_
  intro v hv w hw
  rw [List.append_nil]
  exact ⟨hw.mirrors.append (mirrors_of_symbol hv), hw.again.statement⟩

theorem echoes_forInitial (h : inner.Echoing) :
    Parses loop (forInitial inner) fun _ initial => ∀ s ∈ initial, Redeclares loop s := by
  refine parses_ifAccept .semicolon ?_ (parses_ifWord .varWord (by decide) ?_ ?_)
  · exact parses_pure fun _ _ => by simp
  · refine (echoes_varDecl h).use fun s => parses_pure fun v hv w hw => ?_
    simpa using (hv w hw).2
  · refine (echoes_expressionStatement h.expression).use fun s => parses_pure fun w hw => ?_
    simpa using hw.2.redeclares

/-- The condition of a loop that was written without one. -/
theorem rereads_true (h : inner.Echoing) : Rereads 10 expression (.literal (.bool true)) := by
  let c : Cursor := ⟨[Keyword.trueWord.token], 1, 0, 0, []⟩
  let withoutRepetition : Rules := ⟨0, inner.read⟩
  have hecho : Parses false (expression withoutRepetition) (Echoes 10 expression) :=
    echoes_expression h
  have hrule : expression withoutRepetition c =
      .ok (.literal (.bool true)) { c with rest := [] } := rfl
  have hread := (hecho _ c rfl (by simp [Cursor.InLoop, c])).of_ok hrule
  obtain ⟨_, w, _, hw⟩ := hread.2 rfl
  exact hw.again

theorem echoes_loopBody (h : inner.Echoing) :
    Parses loop (withLoopDepth (· + 1) (inner.read .statement)) fun w s =>
      Mirrors w s.tokens ∧ Restates true s :=
  parses_withLoopDepth (h true .statement) fun _ _ => by simp

theorem echoes_forStatement (h : inner.Echoing) :
    Parses loop (forStatement inner) fun _ s => Restates loop s := by
  refine (yields_expect .forOpen).use fun _ => (echoes_forInitial h).use fun initial => ?_
  refine (echoes_optionalBefore .semicolon h.expression).use fun condition => ?_
  refine (yields_expect .forMiddle).use fun _ => ?_
  refine (echoes_optionalBefore .rightParen h.expression).use fun increment => ?_
  refine (yields_expect .forClose).use fun _ => (echoes_loopBody h).use fun body => parses_pure ?_
  intro _ hbody _ _ _ hincrement _ _ _ hcondition _ hinitial _ _
  refine restates_forLoop hinitial ?_ hincrement.2 hbody.2
  cases condition with
  | none => exact rereads_true h
  | some e => exact hcondition.2 e rfl

theorem echoes_whileStatement (h : inner.Echoing) :
    Parses loop (whileStatement inner) fun v s => ∀ t, t.kind = .keyword .whileWord →
      Mirrors (t :: v) s.tokens ∧ Restates loop s := by
  refine (yields_expect .whileOpen).use fun _ => h.expression.use fun e => ?_
  refine (yields_expect .whileClose).use fun _ => (echoes_loopBody h).use fun body => parses_pure ?_
  intro x hx v hv u hu w hw t ht
  rw [List.append_nil]
  refine ⟨?_, restates_while hu.again hx.2⟩
  exact (mirrors_of_keyword ht).append ((mirrors_of_symbol hw).append
    (hu.mirrors.append ((mirrors_of_symbol hv).append hx.1)))

theorem parsesAt_acceptWord {β : Type} {t : Token} {word : Keyword} {next : Bool → Rule β}
    {good : List Token → β → Prop} (ht : isWord word t = true)
    (h : Parses loop (next true) fun v b => good (t :: v) b) :
    ParsesAt loop t (acceptWord word >>= next) good := by
  unfold acceptWord
  rw [bind_assoc]
  refine parsesAt_peek ?_
  rw [if_pos ht, bind_assoc]
  refine (parsesAt_advance (by simp [kind_of_isWord ht])).use fun _ => ?_
  rw [pure_bind]
  refine h.mono fun v b hb w hw => ?_
  rw [hw]
  exact hb

/-- A word that is not there is not accepted. -/
theorem parsesAt_acceptWord_not {β : Type} {t : Token} {word : Keyword} {next : Bool → Rule β}
    {good : List Token → β → Prop} (ht : ¬ isWord word t = true)
    (h : ParsesAt loop t (next false) good) : ParsesAt loop t (acceptWord word >>= next) good := by
  unfold acceptWord
  rw [bind_assoc]
  refine parsesAt_peek ?_
  rw [if_neg ht, pure_bind]
  exact h

theorem mirrors_condition {t : Token} {e : Expr} {a u b v x : List Token}
    (ht : t.kind = .keyword .ifWord) (ha : Derives loop (.symbol .leftParen) a)
    (hu : Mirrors u e.tokens) (hb : Derives loop (.symbol .rightParen) b) (hv : Mirrors v x) :
    Mirrors (t :: (a ++ (u ++ (b ++ v)))) (Keyword.ifWord.token :: Symbol.leftParen.token ::
      (e.tokens ++ Symbol.rightParen.token :: x)) :=
  (mirrors_of_keyword ht).append ((mirrors_of_symbol ha).append
    (hu.append ((mirrors_of_symbol hb).append hv)))

/-- A first branch with an open end is followed by no `else`: it would have been read with it. -/
theorem echoes_ifStatement (h : inner.Echoing) (hclosing : inner.Closing) :
    Parses loop (ifStatement inner) fun v s => ∀ t, t.kind = .keyword .ifWord →
      Mirrors (t :: v) s.tokens ∧ Restates loop s := by
  refine (yields_expect .ifOpen).use fun _ => h.expression.use fun e => ?_
  refine (yields_expect .ifClose).use fun _ t => ?_
  have hthen : Parses loop (inner.read .statement) fun w s =>
      Mirrors w s.tokens ∧ Restates loop s := h loop .statement
  refine (hthen t).useBefore (fun s t => s.OpenEnded → isWord .elseWord t = false) hclosing
    fun s t hs => ?_
  by_cases helse : isWord .elseWord t = true
  · have hclosed : ¬ s.OpenEnded := fun hopen => by simp [hs hopen] at helse
    refine parsesAt_acceptWord helse ?_
    rw [if_pos rfl, map_eq_pure_bind, bind_assoc]
    refine (h loop .statement).use fun s' => ?_
    rw [pure_bind]
    refine parses_pure ?_
    rintro x ⟨hx, hs'⟩ v ⟨hv, hs⟩ b hb u hu a ha t' ht'
    rw [List.append_nil]
    refine ⟨mirrors_condition ht' ha hu.mirrors hb ?_, restates_ifElse hu.again hs hclosed hs'⟩
    exact hv.append ((mirrors_of_keyword (kind_of_isWord helse)).append hx)
  · refine parsesAt_acceptWord_not helse (parses_pure ?_ t)
    rintro v ⟨hv, hs⟩ b hb u hu a ha t' ht'
    rw [List.append_nil]
    exact ⟨mirrors_condition ht' ha hu.mirrors hb hv, restates_if hu.again hs⟩

theorem echoes_returnStatement (h : inner.Echoing) (line : Nat) :
    Parses loop (returnStatement inner line) fun v s => ∀ t, t.kind = .keyword .returnWord →
      Mirrors (t :: v) s.tokens ∧ Restates loop s := by
  refine (echoes_optionalBefore .semicolon h.expression).use fun value => ?_
  refine (yields_expect .returnEnd).use fun _ => parses_pure ?_
  rintro v hv w ⟨hw, hvalue⟩ t ht
  rw [List.append_nil]
  refine ⟨?_, restates_return hvalue⟩
  have hmirrors := (mirrors_of_keyword ht).append (hw.append (mirrors_of_symbol hv))
  cases value <;> exact hmirrors

theorem echoes_printStatement (h : inner.Echoing) :
    Parses loop (printStatement inner) fun v s => ∀ t, t.kind = .keyword .printWord →
      Mirrors (t :: v) s.tokens ∧ Restates loop s := by
  refine h.expression.use fun e => (yields_expect .printEnd).use fun _ => parses_pure ?_
  intro v hv w hw t ht
  rw [List.append_nil]
  refine ⟨?_, hw.again.print⟩
  exact (mirrors_of_keyword ht).append (hw.mirrors.append (mirrors_of_symbol hv))

/-- A `break` is read within a loop only. -/
theorem echoes_breakLoop (word : Token) :
    Parses loop (breakLoop word) fun v s => ∀ t, t.kind = .keyword .breakWord →
      Mirrors (t :: v) s.tokens ∧ Restates loop s := by
  refine parses_loopDepth fun depth hdepth => parses_ite (fun _ => parses_throw) fun hne => ?_
  obtain rfl := hdepth.mp hne
  refine (yields_expect .breakEnd).use fun _ => parses_pure fun v hv t ht => ?_
  rw [List.append_nil]
  exact ⟨(mirrors_of_keyword ht).append (mirrors_of_symbol hv), restates_break⟩

/-- A statement behind its word. -/
theorem parsesAt_behind {t : Token} {k : Keyword} (ht : t.kind = .keyword k) {rule : Rule Stmt}
    (h : Parses loop rule fun v s => ∀ t, t.kind = .keyword k →
      Mirrors (t :: v) s.tokens ∧ Restates loop s) :
    ParsesAt loop t (do
      advance
      rule) fun w s => Mirrors w s.tokens ∧ Restates loop s := by
  refine (parsesAt_advance (by simp [ht])).use fun _ => h.mono fun v s hs w hw => ?_
  rw [hw]
  exact hs t ht

theorem echoes_statement (h : inner.Echoing) (hclosing : inner.Closing) :
    Parses loop (statement inner) fun w s => Mirrors w s.tokens ∧ Restates loop s := by
  refine parses_peek fun t => ?_
  split
  · next hkind => exact parsesAt_behind hkind (echoes_breakLoop t)
  · next hkind =>
    refine parsesAt_behind hkind ((echoes_forStatement h).mono fun v s hs t ht => ⟨?_, hs⟩)
    exact mirrors_of_mem (List.mem_cons_self ..) (.inl ht)
  · next hkind => exact parsesAt_behind hkind (echoes_ifStatement h hclosing)
  · next hkind => exact parsesAt_behind hkind (echoes_whileStatement h)
  · next hkind => exact parsesAt_behind hkind (echoes_returnStatement h _)
  · next hkind =>
    refine (parsesAt_advance (by simp [hkind])).use fun _ => (echoes_block h).use fun body => ?_
    refine parses_pure fun v hv w hw => ?_
    have hbrace : Derives loop (.symbol .leftBrace) [t] := .symbol hkind
    rw [hw, List.append_nil]
    exact ⟨(mirrors_of_symbol hbrace).append hv.1, restates_block hv.2⟩
  · next hkind => exact parsesAt_behind hkind (echoes_printStatement h)
  · exact echoes_expressionStatement (echoes_expression h) t

/-! ## Declarations as they are read -/

theorem echoes_withClause (bound : Nat) :
    Parses loop (withClause bound) fun w traits => Mirrors w (traitTokens traits) := by
  refine parses_ifWord .withWord (by decide) ?_ (parses_pure mirrors_nil)
  have hitem : ∀ _ : Nat, Parses loop (reference .ofTrait) fun w (ref : Reference) =>
      Mirrors w [ref.name.token] ∧ True := fun _ =>
    (parses_reference .ofTrait).mono fun _ _ hw => ⟨hw, trivial⟩
  have hlist : Parses loop (commaSeparated (fun _ => reference .ofTrait) bound 0) fun w traits =>
      Mirrors w (commaJoined (traits.map fun ref => [ref.name.token])) ∧ traits ≠ [] ∧
        Numbered (fun _ _ => True) 0 traits := parses_commaSeparated_mirrors hitem bound 0
  refine hlist.mono ?_
  rintro v traits ⟨hv, hne, _⟩ w hw
  obtain ⟨ref, rest, rfl⟩ := List.exists_cons_of_ne_nil hne
  exact (mirrors_of_word hw).append hv

theorem echoes_classMember (h : inner.Echoing) :
    Parses loop (classMember inner) fun w m => Mirrors w (memberTokens m) ∧ RereadsNamed m.2 := by
  refine (parses_acceptWord .classWord (by decide)).use fun found => ?_
  refine (echoes_namedFunction h .method).use fun f => parses_pure fun v hv w hw => ?_
  rw [List.append_nil]
  refine ⟨?_, hv.2⟩
  cases found with
  | true => exact (mirrors_of_word hw).append hv.1
  | false =>
    obtain rfl : w = [] := hw
    exact hv.1

theorem redeclares_members {name : Name} {superclass : Option Reference} {traits : List Reference}
    {members : List (Bool × NamedFunction)} (h : ∀ m ∈ members, RereadsNamed m.2) :
    Redeclares loop (.classDecl name superclass traits ((members.partition Prod.fst).2.map Prod.snd)
      ((members.partition Prod.fst).1.map Prod.snd)) := by
  refine redeclares_class fun f hf => ?_
  rw [List.partition_eq_filter_filter, List.mem_append, List.mem_map, List.mem_map] at hf
  rcases hf with ⟨m, hm, rfl⟩ | ⟨m, hm, rfl⟩
  · exact h m (List.mem_filter.mp hm).1
  · exact h m (List.mem_filter.mp hm).1

/-- A class behind its name and that of its superclass. -/
theorem parses_classBody {last : List Reference → List (Bool × NamedFunction) → Rule Stmt}
    (h : inner.Echoing) (hlast : ∀ traits members, Parses loop (last traits members) fun _ s =>
      (∀ m ∈ members, RereadsNamed m.2) → Redeclares loop s) :
    Parses loop (do
      let traits ← withClause inner.bound
      let _ ← expect .classOpen
      let members ← untilBrace (classMember inner) inner.bound
      let _ ← expect .classClose
      last traits members) fun _ s => Redeclares loop s := by
  refine (echoes_withClause _).use fun traits => (yields_expect .classOpen).use fun _ => ?_
  refine (parses_untilBrace_mirrors (echoes_classMember h) _).use fun members => ?_
  refine (yields_expect .classClose).use fun _ => (hlast traits members).mono ?_
  exact fun _ s hs _ _ _ hmembers _ _ _ _ => hs hmembers.2

theorem echoes_classDecl (h : inner.Echoing) :
    Parses loop (classDecl inner) fun _ s => Redeclares loop s := by
  refine (parses_expectName .ofClass).use fun name => parses_ifAccept .less ?_ ?_
  · rw [map_eq_pure_bind, bind_assoc]
    refine (parses_reference .ofSuperclass).use fun ref => ?_
    rw [pure_bind]
    refine (parses_classBody h fun traits members => ?_).mono fun _ s hs _ _ _ _ _ _ => hs
    exact parses_pure fun hmembers => redeclares_members hmembers
  · rw [pure_bind]
    refine (parses_classBody h fun traits members => ?_).mono fun _ s hs _ _ => hs
    exact parses_pure fun hmembers => redeclares_members hmembers

theorem echoes_traitDecl (h : inner.Echoing) :
    Parses loop (traitDecl inner) fun v s => ∀ w, Derives loop (.word .traitWord) w →
      Mirrors (w ++ v) s.tokens ∧ Redeclares loop s := by
  refine (parses_expectName .ofTrait).use fun name => (echoes_withClause _).use fun traits => ?_
  refine (yields_expect .traitOpen).use fun _ => ?_
  refine (parses_untilBrace_mirrors (echoes_namedFunction h .method) _).use fun methods => ?_
  refine (yields_expect .traitClose).use fun _ => parses_pure ?_
  rintro x hx v ⟨hv, hmethods⟩ u hu b hb n hn w hw
  rw [List.append_nil]
  refine ⟨?_, redeclares_trait hmethods⟩
  have htokens : methodTokens [] methods = methods.flatMap NamedFunction.tokens :=
    methodTokens_eq_flatMap [] methods
  rw [Stmt.tokens, htokens]
  exact (mirrors_of_word hw).append (hn.append (hb.append ((mirrors_of_symbol hu).append
    (hv.append (mirrors_of_symbol hx)))))

theorem echoes_strictDeclaration (h : inner.Echoing) (hclosing : inner.Closing) :
    Parses loop (strictDeclaration inner) fun w s => Mirrors w s.tokens ∧ Redeclares loop s := by
  refine parses_ifWord .classWord (by decide) ?_ (parses_ifWord .traitWord (by decide) ?_ ?_)
  · refine (echoes_classDecl h).mono fun v s hs w hw => ⟨?_, hs⟩
    obtain ⟨t, rfl, ht, _⟩ := derives_word.mp hw
    exact mirrors_of_mem (List.mem_cons_self ..) (.inr ht)
  · exact echoes_traitDecl h
  refine parses_atNamedFunction (fun t ht => ?_) (parses_ifWord .varWord (by decide) ?_ ?_)
  · rw [if_pos rfl]
    refine (parsesAt_advance (by simp [ht])).use fun _ => ?_
    refine (echoes_namedFunction h .function).use fun f => parses_pure fun v hv w hw => ?_
    rw [hw, List.append_nil]
    exact ⟨(mirrors_of_keyword ht).append hv.1, redeclares_fun hv.2⟩
  · exact echoes_varDecl h
  · exact (echoes_statement h hclosing).mono fun w s hs => ⟨hs.1, hs.2.redeclares⟩

/-! ## The knot -/

theorem closing_ruleAt (budget : Nat) (bound : Nat) : Rules.Closing ⟨bound, ruleAt budget⟩ := by
  induction budget generalizing bound with
  | zero => exact fun _ => trivial
  | succ budget ih => exact closes_statement (ih (budget + 1))

/-- With any budget what is found for a category is read again. -/
theorem echoes_ruleAt (budget : Nat) (loop : Bool) (category : Category) :
    Parses loop (ruleAt budget category) (category.Echoes loop) := by
  induction budget generalizing loop category with
  | zero => exact parses_failHere
  | succ budget ih =>
    have hinner : Rules.Echoing ⟨budget + 1, ruleAt budget⟩ := ih
    have hclosing := closing_ruleAt budget (budget + 1)
    cases category with
    | expression => exact echoes_expression hinner
    | assignment => exact echoes_assignment hinner
    | conditional => exact echoes_conditional hinner
    | unary => exact echoes_unary hinner
    | statement => exact echoes_statement hinner hclosing
    | declaration =>
      refine (parses_recover (echoes_strictDeclaration hinner hclosing)).mono ?_
      rintro w found ⟨s, hs, hecho⟩
      exact ⟨s, hs, hecho⟩

/-! ## Whole texts -/

/-- Declarations are read again to the end. -/
theorem takes_declarations_tokens {body : List Stmt} (h : ∀ s ∈ body, Redeclares loop s)
    {budget more : Nat} (hbudget : (bodyTokens body).length < budget)
    (hmore : (bodyTokens body).length < more) :
    Takes loop (declarations budget more) (bodyTokens body) []
      fun body' => bareBody body' = bareBody body := by
  induction more generalizing body with
  | zero => omega
  | succ more ih =>
    refine takes_atEnd.skip fun atEnd hend => ?_
    cases body with
    | nil =>
      rw [hend]
      exact takes_pure rfl
    | cons s rest =>
      obtain ⟨hs, hrest⟩ := List.forall_mem_cons.mp h
      have hpositive := List.length_pos_iff.mpr hs.filled
      have hmore' : atEnd = false := by
        rw [hend, List.append_nil, List.isEmpty_eq_false_iff, bodyTokens]
        exact List.append_ne_nil_of_left_ne_nil hs.filled _
      -- No declaration begins with an `else`, which the one before it might take.
      have hnext : NoElse (bodyTokens rest ++ []) := by
        rw [List.append_nil]
        cases rest with
        | nil => exact fun t ht => by cases ht
        | cons s' rest =>
          have hs' := hrest s' (by simp)
          exact Avoids.append (fun t ht => hs'.begins.isWord ht (by decide)) hs'.filled
      simp only [bodyTokens, List.length_append] at hbudget hmore
      have hfirst : Takes loop (ruleAt budget .declaration) s.tokens (bodyTokens rest ++ [])
          fun found => found.map Stmt.bare = some s.bare := hs.takes (by omega) hnext
      rw [hmore']
      refine Takes.use hfirst fun found hfound => ?_
      obtain ⟨s', rfl, hs'⟩ := Option.map_eq_some_iff.mp hfound
      refine (ih hrest (by omega) (by omega)).last fun rest' hrest' => takes_pure ?_
      rw [Option.toList_some, List.singleton_append, bareBody, bareBody, hs', hrest']

/-- What was read to the end is mirrored and read again. -/
theorem echoes_declarations {budget more : Nat} {c : Cursor} (hloop : c.InLoop loop) :
    Ensures (declarations budget more) c
      (fun body c' => c'.problems = [] → c.problems = [] ∧ (c.rest.length < more →
        Mirrors c.rest (bodyTokens body) ∧ ∀ s ∈ body, Redeclares loop s)) fun _ _ => True := by
  have hboth := (echoes_ruleAt budget loop .declaration).and (yields_ruleAt budget loop .declaration)
  refine hboth.declarations (fun w _ hw => length_pos_of_derives hw.2 rfl)
    (fun w body => Mirrors w (bodyTokens body) ∧ ∀ s ∈ body, Redeclares loop s)
    ⟨mirrors_nil, by simp⟩ ?_ hloop
  rintro w found u body ⟨⟨s, rfl, hw, hs⟩, -⟩ ⟨hmirrors, hall⟩
  exact ⟨hw.append hmirrors, List.forall_mem_cons.mpr ⟨hs, hall⟩⟩

theorem takes_wholeExpression_tokens {e : Expr} (h : Rereads 10 expression e) {budget : Nat}
    (hbudget : e.tokens.length < budget) :
    Takes loop (wholeExpression budget) e.tokens [] fun e' => e'.bare = e.bare := by
  have hends : Ends 10 [] := fun t ht => by cases ht
  have hread : Takes loop (ruleAt budget .expression) e.tokens [] fun e' => e'.bare = e.bare :=
    h.takes hbudget hends
  refine hread.last fun e' he' => takes_atEnd.skip fun atEnd hend => ?_
  rw [hend]
  exact takes_pure he'

end Grammar

open Grammar

/-- A tree that is read from a text is written as a text that is read as the same tree, up to
references and lines; and where the text has neither loops nor classes that are written another
way, the tree is written as it stood there, up to lines and the spelling of literals. -/
theorem reads_written_back (tokens : List Token) (nextId : RefId) :
    (∀ body, (readProgram tokens nextId).result = .ok body →
      (∀ nextId', ∃ body', (readProgram (programTokens body) nextId').result = .ok body' ∧
        bareBody body' = bareBody body) ∧
      (Rewritable (tokens.takeWhile fun t => !t.isEof) →
        (bodyTokens body).map Token.meaning =
          (tokens.takeWhile fun t => !t.isEof).map Token.meaning)) ∧
    (∀ e, (readExpression tokens nextId).result = .ok e →
      (∀ nextId', ∃ e', (readExpression (expressionTokens e) nextId').result = .ok e' ∧
        e'.bare = e.bare) ∧
      (Rewritable (tokens.takeWhile fun t => !t.isEof) →
        e.tokens.map Token.meaning =
          (tokens.takeWhile fun t => !t.isEof).map Token.meaning)) := by
  have hloop := ofTokens_inLoop tokens nextId
  have hlength : (tokens.takeWhile fun t => !t.isEof).length < tokens.length + 1 :=
    Nat.lt_succ_of_le (List.takeWhile_sublist _).length_le
  refine ⟨fun body hbody => ?_, fun e he => ?_⟩
  · obtain ⟨c, hrule, hproblems⟩ := result_eq_ok_iff.mp hbody
    have hread := (echoes_declarations hloop).of_ok hrule hproblems
    obtain ⟨hmirrors, hall⟩ := hread.2 hlength
    refine ⟨fun nextId' => exists_good_tree ?_, hmirrors⟩
    have hbudget : (bodyTokens body).length < (programTokens body).length + 1 := by
      simp only [programTokens, List.length_append]
      omega
    -- None of the tokens that are written is an end mark, so that all of them are read.
    have htokens := takeWhile_unmarked (unmarked_body body) 1
    rw [programTokens] at hbudget ⊢
    rw [htokens]
    exact takes_declarations_tokens hall hbudget hbudget
  · obtain ⟨c, hrule, hproblems⟩ := result_eq_ok_iff.mp he
    have hechoes := echoes_ruleAt (tokens.length + 1) false .expression
    have hecho := (hechoes.wholeExpression hloop).of_ok hrule hproblems
    refine ⟨fun nextId' => exists_good_tree ?_, hecho.mirrors⟩
    have hbudget : e.tokens.length < (expressionTokens e).length + 1 := by
      simp only [expressionTokens, List.length_append]
      omega
    have htokens := takeWhile_unmarked e.unmarked 1
    rw [expressionTokens] at hbudget ⊢
    rw [htokens]
    exact takes_wholeExpression_tokens hecho.again hbudget

/-- The tokens of `if (a) if (b) c.d = -e('g') ? h : i, j; else return;`. -/
def nestedElse : List Token :=
  [Keyword.ifWord.token, Symbol.leftParen.token, ⟨.identifier "a", 1⟩, Symbol.rightParen.token,
    Keyword.ifWord.token, Symbol.leftParen.token, ⟨.identifier "b", 1⟩, Symbol.rightParen.token,
    ⟨.identifier "c", 2⟩, Symbol.dot.token, ⟨.identifier "d", 2⟩, Symbol.equal.token,
    Symbol.minus.token, ⟨.identifier "e", 2⟩, Symbol.leftParen.token, ⟨.text .single "g", 2⟩,
    Symbol.rightParen.token, Symbol.questionMark.token, ⟨.identifier "h", 2⟩,
    Symbol.colon.token, ⟨.identifier "i", 2⟩, Symbol.comma.token, ⟨.identifier "j", 2⟩,
    Symbol.semicolon.token, Keyword.elseWord.token, Keyword.returnWord.token,
    Symbol.semicolon.token, ⟨.eof, 3⟩]

theorem reads_written_back_nestedElse :
    ∃ body, (readProgram nestedElse 0).result = .ok body ∧
      (∃ body', (readProgram (programTokens body) 7).result = .ok body' ∧
        bareBody body' = bareBody body) ∧
      (bodyTokens body).map Token.meaning =
        (nestedElse.takeWhile fun t => !t.isEof).map Token.meaning := by
  have haccepted : (readProgram nestedElse 0).result.isOk = true := by decide +kernel
  cases hread : (readProgram nestedElse 0).result with
  | error problems =>
    rw [hread] at haccepted
    cases haccepted
  | ok body =>
    obtain ⟨hagain, hsame⟩ := (reads_written_back nestedElse 0).1 body hread
    refine ⟨body, rfl, hagain 7, hsame ?_⟩
    simp [Rewritable, nestedElse, Token.isEof, Keyword.token, Symbol.token]

end LoxLang
