import LoxLang.Proofs.Grammar.Reading

/-!
# What trees rules read

Every rule of the grammar reads a formed tree whose occurrences have references of their own.
The rules come back to each other through `Rules`, so that each lemma assumes of the categories
within a rule what `reads_ruleAt` concludes by induction on the budget.
-/

namespace LoxLang

namespace Grammar

/-- A formed expression with its references. -/
abbrev GoodExpr : Nat → Nat → Expr → Prop :=
  Good Expr.Formed fun e => idsOf e.occurrences

/-- A formed statement in which a `break` is for a loop around it only if there is one. -/
def Placed (loop : Prop) (s : Stmt) : Prop :=
  s.Formed ∧ (s.Breaks → loop)

/-- A formed statement with its references. -/
abbrev GoodStmt (loop : Prop) : Nat → Nat → Stmt → Prop :=
  Good (Placed loop) fun s => idsOf s.occurrences

/-- A formed statement that declares nothing, with its references. -/
abbrev GoodPart (loop : Prop) : Nat → Nat → Stmt → Prop :=
  Good (fun s => Placed loop s ∧ s.declared? = none) fun s => idsOf s.occurrences

/-- What is in order of what is found for a category. -/
def Category.Good (loop : Prop) : (category : Category) → Nat → Nat → category.Found → Prop
  | expression => GoodExpr
  | assignment => GoodExpr
  | conditional => GoodExpr
  | unary => GoodExpr
  | statement => GoodPart loop
  | declaration => fun low high found => low ≤ high ∧ ∀ s ∈ found, GoodStmt loop low high s

/-- Rules that read what is in order of each category. -/
def Rules.Sound (inner : Rules) : Prop :=
  ∀ (loop : Prop) (category : Category), Reads loop (inner.read category) (category.Good loop)

variable {inner : Rules} {loop : Prop}

/-! ## Lists of trees -/

theorem idsOf_arguments (arguments : List Expr) :
    idsOf (occurrencesInArguments arguments) = arguments.flatMap fun e => idsOf e.occurrences := by
  induction arguments with
  | nil => rfl
  | cons e rest ih => rw [occurrencesInArguments, idsOf_append, ih, List.flatMap_cons]

theorem idsOf_methods (methods : List NamedFunction) :
    idsOf (occurrencesInMethods methods) = methods.flatMap fun f => idsOf f.occurrences := by
  induction methods with
  | nil => rfl
  | cons f rest ih => rw [occurrencesInMethods, idsOf_append, ih, List.flatMap_cons]

theorem idsOf_body (body : List Stmt) :
    idsOf (occurrencesInBody body) = body.flatMap fun s => idsOf s.occurrences := by
  induction body with
  | nil => rfl
  | cons s rest ih => rw [occurrencesInBody, idsOf_append, ih, List.flatMap_cons]

theorem formedBody_iff {body : List Stmt} : FormedBody body ↔ ∀ s ∈ body, s.Formed := by
  induction body with
  | nil => simp [FormedBody]
  | cons s rest ih => simp [FormedBody, ih]

/-- Formed statements in a row, each with a `break` for a loop around only if there is one. -/
def PlacedBody (loop : Prop) (body : List Stmt) : Prop :=
  FormedBody body ∧ ∀ s ∈ body, s.Breaks → loop

theorem placedBody_iff {body : List Stmt} : PlacedBody loop body ↔ ∀ s ∈ body, Placed loop s := by
  unfold PlacedBody Placed
  rw [formedBody_iff]
  exact ⟨fun h s hs => ⟨h.1 s hs, h.2 s hs⟩,
    fun h => ⟨fun s hs => (h s hs).1, fun s hs => (h s hs).2⟩⟩

theorem placed_block {body : List Stmt} (h : PlacedBody loop body) :
    Placed loop (.block body) := by
  refine ⟨h.1, ?_⟩
  rintro (_ | ⟨mem, hbreaks⟩)
  exact h.2 _ mem hbreaks

/-- Statements in a row with their references. -/
abbrev GoodBody (loop : Prop) : Nat → Nat → List Stmt → Prop :=
  Grammar.Good (PlacedBody loop) fun body => idsOf (occurrencesInBody body)

/-- Of declarations with a problem nothing is left. -/
theorem goodBody_of_found {low high : Nat} {found : List (Option Stmt)}
    (h : GoodList (fun o : Option Stmt => ∀ s ∈ o, Placed loop s)
      (fun o => o.toList.flatMap fun s => idsOf s.occurrences) low high found) :
    GoodBody loop low high (found.flatMap Option.toList) := by
  refine ⟨placedBody_iff.mpr ?_, ?_⟩
  · intro s hs
    obtain ⟨o, ho, hs⟩ := List.mem_flatMap.mp hs
    exact h.1 o ho s (Option.mem_toList.mp hs)
  · simp only [idsOf_body, List.flatMap_assoc]
    exact h.2

theorem reads_found {rule : Rule (Option Stmt)}
    (h : Reads loop rule (Category.declaration.Good loop)) :
    Reads loop rule (Grammar.Good (fun o : Option Stmt => ∀ s ∈ o, Placed loop s)
      (fun o => o.toList.flatMap fun s => idsOf s.occurrences)) := by
  refine h.mono ?_
  rintro low high found ⟨hle, hfound⟩
  cases found with
  | none => exact ⟨by simp, Spans.nil hle⟩
  | some s => simpa [Grammar.Good] using hfound s rfl

/-! ## Functions -/

theorem reads_checkArity (cause : Cause) (count : Nat) :
    Reads loop (checkArity cause count) Anything := by
  refine reads_ite (reads_peek.skip fun token => reads_note _) ?_
  exact reads_pure fun _ _ _ => trivial

theorem reads_parameter (count : Nat) :
    Reads loop (parameter count) (Grammar.Good Name.Plain fun _ => []) := by
  refine (reads_checkArity _ _).skip fun _ => ?_
  exact (reads_expectName _).ordered.mono fun _ _ _ ⟨hle, hplain⟩ => ⟨hplain, Spans.nil hle⟩

theorem reads_block (h : inner.Sound) : Reads loop (block inner) (GoodBody loop) := by
  refine (reads_untilBrace (reads_found (h loop .declaration)) inner.bound).use
    fun found low middle hfound => (reads_expect _).skip fun _ => ?_
  refine reads_pure fun _ _ hle hmiddle => ?_
  exact (goodBody_of_found hfound).widen (Nat.le_trans hmiddle hle)

/-- A function with its references. -/
abbrev GoodFunction : Nat → Nat → Function → Prop :=
  Grammar.Good Function.Formed fun f => idsOf f.occurrences

theorem reads_function (h : inner.Sound) (callable : Callable) :
    Reads loop (function inner callable) GoodFunction := by
  have hbody : ∀ params : List Name, (∀ param ∈ params, param.Plain) →
      Reads loop (do
        let _ ← expect .parametersClose
        let _ ← expect (.bodyOpen callable)
        let body ← withLoopDepth (fun _ => 0) (block inner)
        return Function.mk params body) GoodFunction := by
    intro params hparams
    refine (reads_expect _).skip fun _ => (reads_expect _).skip fun _ => ?_
    have hblock : Reads False (block inner) (GoodBody False) := reads_block h
    refine (reads_withLoopDepth hblock (by simp)).use fun body low middle hbody => ?_
    refine reads_pure fun _ _ hle hmiddle => ⟨⟨hparams, hbody.1.2, hbody.1.1⟩, ?_⟩
    exact hbody.2.widen (Nat.le_refl low) (Nat.le_trans hmiddle hle)
  refine (reads_expect _).skip fun _ => (reads_atSymbol _).skip fun _ => ?_
  refine reads_ite (hbody [] (by simp)) ?_
  refine (reads_commaSeparated reads_parameter inner.bound 0).use fun params low middle hparams => ?_
  exact (hbody params hparams.1).mono fun _ _ _ hgood hmiddle =>
    hgood.after hparams.2.le hmiddle

/-- A function with its name and its references. -/
abbrev GoodNamed : Nat → Nat → NamedFunction → Prop :=
  Grammar.Good NamedFunction.Formed fun f => idsOf f.occurrences

theorem reads_namedFunction (h : inner.Sound) (callable : Callable) :
    Reads loop (namedFunction inner callable) GoodNamed := by
  refine (reads_expectName _).ordered.use fun name low middle ⟨hle, hname⟩ => ?_
  refine (reads_function h callable).use fun f low' high hf => ?_
  refine reads_pure fun _ _ hle' hhigh hmiddle => ?_
  have hgood := (hf.after hle hmiddle).widen (Nat.le_trans hhigh hle')
  exact ⟨⟨hname, hgood.1⟩, hgood.2⟩

/-! ## Expressions -/

/-- An occurrence with its reference. -/
abbrev GoodReference : Nat → Nat → Reference → Prop :=
  Grammar.Good Reference.Plain fun ref => [ref.id]

theorem reads_reference (role : NameRole) : Reads loop (reference role) GoodReference := by
  refine (reads_expectName role).ordered.use fun name low middle ⟨hle, hname⟩ => ?_
  refine reads_freshId.use fun id low' high hid => reads_pure fun _ _ hlast hhigh hmiddle => ?_
  exact ⟨hname, hid.widen (Nat.le_trans hle hmiddle) (Nat.le_trans hhigh hlast)⟩

theorem reads_literal (l : Literal) : Reads loop (pure (.literal l)) GoodExpr :=
  reads_pure fun _ _ hle => ⟨trivial, Spans.nil hle⟩

theorem reads_primary (h : inner.Sound) : Reads loop (primary inner) GoodExpr := by
  refine reads_peek.ordered.use fun token low middle ⟨hle, hplain⟩ => ?_
  refine Reads.mono ?_ fun _ _ _ hgood (hmiddle : middle ≤ _) => Good.after hgood hle hmiddle
  split
  · refine reads_advance.skip fun _ => (reads_function h _).use fun f low middle hf => ?_
    exact reads_pure fun _ _ hle hmiddle => hf.widen (Nat.le_trans hmiddle hle)
  · exact reads_advance.skip fun _ => reads_literal _
  · exact reads_advance.skip fun _ => reads_literal _
  · exact reads_advance.skip fun _ => reads_literal _
  · exact reads_advance.skip fun _ => reads_literal _
  · exact reads_advance.skip fun _ => reads_literal _
  · refine reads_advance.skip fun _ => reads_freshId.use fun id low middle hid => ?_
    refine reads_pure fun _ _ hle hmiddle => ⟨trivial, ?_⟩
    exact hid.widen (Nat.le_refl low) (Nat.le_trans hmiddle hle)
  · refine reads_advance.skip fun _ => (reads_expect _).skip fun _ => ?_
    refine (reads_expectName _).skip fun name => reads_freshId.use fun id low middle hid => ?_
    refine reads_pure fun _ _ hle hmiddle => ⟨trivial, ?_⟩
    exact hid.widen (Nat.le_refl low) (Nat.le_trans hmiddle hle)
  · next name hkind =>
    refine reads_advance.skip fun _ => reads_freshId.use fun id low middle hid => ?_
    refine reads_pure fun _ _ hle hmiddle => ⟨hplain name hkind, ?_⟩
    exact hid.widen (Nat.le_refl low) (Nat.le_trans hmiddle hle)
  · refine reads_advance.skip fun _ => (h loop .expression).use fun e low middle he => ?_
    refine (reads_expect _).skip fun _ => reads_pure fun _ _ hle hmiddle => ?_
    exact Good.widen (a := Expr.grouping e) he (Nat.le_trans hmiddle hle)
  · exact reads_failHere

theorem reads_argument (h : inner.Sound) (count : Nat) :
    Reads loop (argument inner count) GoodExpr :=
  (reads_checkArity _ _).skip fun _ => h loop .assignment

/-- The arguments of a call with their references. -/
abbrev GoodArguments : Nat → Nat → List Expr → Prop :=
  Grammar.Good FormedArguments fun args => idsOf (occurrencesInArguments args)

theorem goodArguments_of_list {low high : Nat} {args : List Expr}
    (h : GoodList Expr.Formed (fun e => idsOf e.occurrences) low high args) :
    GoodArguments low high args := by
  refine ⟨formedArguments_iff.mpr h.1, ?_⟩
  simp only [idsOf_arguments]
  exact h.2

theorem reads_arguments (h : inner.Sound) :
    Reads loop (arguments inner) fun low high found => GoodArguments low high found.1 := by
  have hclose : ∀ (args : List Expr) (low middle : Nat), GoodArguments low middle args →
      Reads loop (do
        let line ← expect .argumentsClose
        return (args, line)) fun low' high found => middle ≤ low' →
          GoodArguments low high found.1 := by
    intro args low middle hargs
    refine (reads_expect _).skip fun _ => reads_pure fun _ _ hle hmiddle => ?_
    exact hargs.widen (Nat.le_trans hmiddle hle)
  refine (reads_atSymbol _).skip fun _ => reads_ite ?_ ?_
  · refine (reads_pure fun _ _ hle => ?_ : Reads loop (pure []) GoodArguments).use hclose
    exact ⟨trivial, Spans.nil hle⟩
  · refine (reads_commaSeparated (reads_argument h) inner.bound 0).use fun args low middle hargs => ?_
    exact hclose args low middle (goodArguments_of_list hargs)

/-- What is read behind an expression that has been read. -/
def Behind (e : Expr) (low' high : Nat) (whole : Expr) : Prop :=
  ∀ low middle, GoodExpr low middle e → middle ≤ low' → GoodExpr low high whole

theorem reads_behind (e : Expr) : Reads loop (pure e) (Behind e) :=
  reads_pure fun _ _ hle _ _ he hmiddle => he.widen (Nat.le_trans hmiddle hle)

theorem Reads.use_behind {rule : Rule Expr} {next : Expr → Rule Expr} (h : Reads loop rule GoodExpr)
    (h' : ∀ e, Reads loop (next e) (Behind e)) : Reads loop (rule >>= next) GoodExpr :=
  h.use fun e low middle he => (h' e).mono fun _ _ _ hgood hmiddle => hgood low middle he hmiddle

theorem reads_suffixes (h : inner.Sound) (budget : Nat) (e : Expr) :
    Reads loop (suffixes inner budget e) (Behind e) := by
  induction budget generalizing e with
  | zero => exact reads_behind e
  | succ budget ih =>
    refine reads_peek.skip fun token => ?_
    split
    · refine reads_advance.skip fun _ => (reads_arguments h).use fun found low' high hfound => ?_
      obtain ⟨args, line⟩ := found
      refine (ih (.call e args line)).mono fun _ _ _ hgood hhigh low middle he hmiddle => ?_
      refine hgood low high ⟨⟨he.1, hfound.1⟩, ?_⟩ hhigh
      simp only [Expr.occurrences, idsOf_append]
      exact he.2.append hfound.2 hmiddle
    · refine reads_advance.skip fun _ => (reads_expectName _).skip fun name => ?_
      exact ih (.get e name)
    · exact reads_behind e

theorem reads_call (h : inner.Sound) : Reads loop (call inner) GoodExpr :=
  (reads_primary h).use_behind fun e => reads_suffixes h inner.bound e

theorem reads_unary (h : inner.Sound) : Reads loop (unary inner) GoodExpr := by
  refine reads_peek.skip fun token => ?_
  split
  · refine reads_advance.skip fun _ => (h loop .unary).use fun e low middle he => ?_
    refine reads_pure fun _ _ hle hmiddle => ?_
    exact Good.widen (a := Expr.unary _ _ e) he (Nat.le_trans hmiddle hle)
  · exact reads_call h

/-- A node made of two expressions and an operator. -/
def JoinsParts {ω : Type} (build : Expr → ω → Nat → Expr → Expr) : Prop :=
  ∀ left op line right,
    ((build left op line right).Formed ↔ left.Formed ∧ right.Formed) ∧
      (build left op line right).occurrences = left.occurrences ++ right.occurrences

theorem joinsParts_binary : JoinsParts .binary :=
  fun _ _ _ _ => ⟨Iff.rfl, rfl⟩

theorem joinsParts_logical : JoinsParts .logical :=
  fun _ _ _ _ => ⟨Iff.rfl, rfl⟩

theorem reads_leftNested {ω : Type} {operator? : Token → Option ω} {operand : Rule Expr}
    {build : Expr → ω → Nat → Expr → Expr} (h : Reads loop operand GoodExpr)
    (joins : JoinsParts build) (budget : Nat) (e : Expr) :
    Reads loop (leftNested operator? operand build budget e) (Behind e) := by
  induction budget generalizing e with
  | zero => exact reads_behind e
  | succ budget ih =>
    refine reads_peek.skip fun token => ?_
    split
    · exact reads_behind e
    · next op _ =>
      refine reads_advance.skip fun _ => h.use fun right low' high hright => ?_
      refine (ih _).mono fun _ _ _ hgood hhigh low middle he hmiddle => ?_
      obtain ⟨hformed, hoccurrences⟩ := joins e op token.line right
      refine hgood low high ⟨hformed.mpr ⟨he.1, hright.1⟩, ?_⟩ hhigh
      simp only [hoccurrences, idsOf_append]
      exact he.2.append hright.2 hmiddle

theorem reads_binary {operand : Rule Expr} (level : Level) (bound : Nat)
    (h : Reads loop operand GoodExpr) : Reads loop (binary level bound operand) GoodExpr := by
  refine reads_peek.skip fun token => reads_ite ?_ ?_
  · exact reads_advance.skip fun _ => h.skip fun _ => reads_throw
  · exact h.use_behind fun e => reads_leftNested h joinsParts_binary bound e

theorem reads_logical {operand : Rule Expr} (op : LogicalOp) (bound : Nat)
    (h : Reads loop operand GoodExpr) : Reads loop (logical op bound operand) GoodExpr :=
  h.use_behind fun e => reads_leftNested h joinsParts_logical bound e

theorem reads_either (h : inner.Sound) : Reads loop (either inner) GoodExpr :=
  reads_logical _ _ (reads_logical _ _ (reads_binary _ _ (reads_binary _ _ (reads_binary _ _
    (reads_binary _ _ (reads_unary h))))))

theorem reads_conditional (h : inner.Sound) : Reads loop (conditional inner) GoodExpr := by
  refine (reads_either h).use_behind fun condition => (reads_accept _).skip fun _ => ?_
  refine reads_ite ?_ (reads_behind condition)
  refine (h loop .expression).use fun thenBranch low₁ high₁ hthen => ?_
  refine (reads_expect _).skip fun _ => (h loop .conditional).use fun elseBranch low₂ high₂ helse => ?_
  refine reads_pure fun _ _ hle hhigh₂ hhigh₁ low middle hcondition hmiddle => ?_
  refine ⟨⟨hcondition.1, hthen.1, helse.1⟩, ?_⟩
  simp only [Expr.occurrences, idsOf_append]
  have hids := (hcondition.2.append hthen.2 hmiddle).append helse.2 hhigh₁
  exact hids.widen (Nat.le_refl low) (Nat.le_trans hhigh₂ hle)

/-- The value of an assignment is read before the assignment takes its reference, which comes
first in the order of the source. -/
theorem reads_assignTo (target value : Expr) (equals : Token) {low low' middle high : Nat}
    (htarget : GoodExpr low middle target) (hvalue : GoodExpr low' high value) :
    Reads loop (assignTo target equals value) fun start last e =>
      high ≤ start → middle ≤ low' → GoodExpr low last e := by
  unfold assignTo
  split
  · next ref =>
    refine reads_freshId.use fun id start last hid => reads_pure fun _ _ hle hlast hhigh hmiddle => ?_
    refine ⟨⟨htarget.1, hvalue.1⟩, ?_⟩
    have hids := (hvalue.2.append hid hhigh).perm List.perm_append_comm
    refine hids.widen ?_ (Nat.le_trans hlast hle)
    exact Nat.le_trans htarget.2.le hmiddle
  · next object name =>
    refine reads_pure fun _ _ hle hhigh hmiddle => ⟨⟨htarget.1, hvalue.1⟩, ?_⟩
    simp only [Expr.occurrences, idsOf_append]
    exact (htarget.2.append hvalue.2 hmiddle).widen (Nat.le_refl low) (Nat.le_trans hhigh hle)
  · refine (reads_note _).skip fun _ => reads_pure fun _ _ hle hhigh hmiddle => ?_
    refine htarget.widen (Nat.le_trans hmiddle ?_)
    exact Nat.le_trans hvalue.2.le (Nat.le_trans hhigh hle)

theorem reads_assignment (h : inner.Sound) : Reads loop (assignment inner) GoodExpr := by
  refine (reads_conditional h).use fun target low middle htarget => reads_peek.skip fun token => ?_
  refine reads_ite ?_ ?_
  · refine reads_advance.skip fun _ => (h loop .assignment).use fun value low' high hvalue => ?_
    exact reads_assignTo target value token htarget hvalue
  · exact reads_pure fun _ _ hle hmiddle => htarget.widen (Nat.le_trans hmiddle hle)

theorem reads_expression (h : inner.Sound) : Reads loop (expression inner) GoodExpr :=
  (reads_assignment h).use_behind fun e =>
    reads_leftNested (reads_assignment h) joinsParts_binary inner.bound e

/-! ## Statements -/

/-- An optional expression with its references. -/
abbrev GoodOptional : Nat → Nat → Option Expr → Prop :=
  Grammar.Good (fun o => ∀ e ∈ o, e.Formed) fun o => o.toList.flatMap fun e => idsOf e.occurrences

theorem goodOptional_none {low high : Nat} (h : low ≤ high) : GoodOptional low high none :=
  ⟨by simp, Spans.nil h⟩

theorem goodOptional_some {low high : Nat} {e : Expr} (h : GoodExpr low high e) :
    GoodOptional low high (some e) := by
  refine ⟨by simpa using h.1, ?_⟩
  simpa using h.2

theorem reads_someOf {rule : Rule Expr} (h : Reads loop rule GoodExpr) :
    Reads loop (some <$> rule) GoodOptional := by
  rw [map_eq_pure_bind]
  refine h.use fun e low middle he => reads_pure fun _ _ hle hmiddle => ?_
  exact (goodOptional_some he).widen (Nat.le_trans hmiddle hle)

theorem reads_optionalBefore {rule : Rule Expr} (symbol : Symbol) (h : Reads loop rule GoodExpr) :
    Reads loop (optionalBefore symbol rule) GoodOptional := by
  refine (reads_atSymbol _).skip fun _ => reads_ite ?_ ?_
  · exact reads_pure fun _ _ hle => goodOptional_none hle
  · refine h.use fun e low middle he => reads_pure fun _ _ hle hmiddle => ?_
    exact (goodOptional_some he).widen (Nat.le_trans hmiddle hle)

theorem goodStmt_varDecl {low high : Nat} {name : Name} {initial : Option Expr}
    (hname : name.Plain) (h : GoodOptional low high initial) :
    GoodStmt loop low high (.varDecl name initial) := by
  cases initial with
  | none => exact ⟨⟨hname, nofun⟩, Spans.nil h.2.le⟩
  | some e =>
    refine ⟨⟨⟨hname, h.1 e rfl⟩, nofun⟩, ?_⟩
    simpa [Stmt.occurrences] using h.2

theorem reads_varDecl (h : inner.Sound) : Reads loop (varDecl inner) (GoodStmt loop) := by
  refine (reads_expectName _).ordered.use fun name low middle ⟨hle, hname⟩ => ?_
  have hend : ∀ (initial : Option Expr) (low' high : Nat), GoodOptional low' high initial →
      Reads loop (do
        let _ ← expect .declarationEnd
        return Stmt.varDecl name initial) fun start last s => high ≤ start → middle ≤ low' →
          GoodStmt loop low last s := by
    intro initial low' high hinitial
    refine (reads_expect _).skip fun _ => reads_pure fun _ _ hlast hhigh hmiddle => ?_
    have hgood := (hinitial.after hle hmiddle).widen (Nat.le_trans hhigh hlast)
    exact goodStmt_varDecl hname hgood
  refine (reads_accept _).skip fun _ => reads_ite ?_ ?_
  · exact (reads_someOf (h loop .expression)).use hend
  · refine (reads_pure fun _ _ hle => ?_ : Reads loop (pure none) GoodOptional).use hend
    exact goodOptional_none hle

theorem reads_expressionStatement {rule : Rule Expr} (h : Reads loop rule GoodExpr) :
    Reads loop (expressionStatement rule) (GoodPart loop) := by
  refine h.use fun e low middle he => (reads_expect _).skip fun _ => ?_
  refine reads_pure fun _ _ hle hmiddle => ?_
  have hgood := he.widen (Nat.le_trans hmiddle hle)
  exact ⟨⟨⟨hgood.1, nofun⟩, rfl⟩, hgood.2⟩

theorem GoodPart.stmt {low high : Nat} {s : Stmt} (h : GoodPart loop low high s) :
    GoodStmt loop low high s :=
  ⟨h.1.1, h.2⟩

theorem reads_breakLoop (word : Token) : Reads loop (breakLoop word) (GoodPart loop) := by
  refine reads_loopDepth.ordered.use fun depth low middle ⟨hle, hdepth⟩ => ?_
  split
  · exact reads_throw
  · next hzero =>
    refine (reads_expect _).skip fun _ => reads_pure fun _ _ hlast hmiddle => ?_
    refine ⟨⟨⟨trivial, fun _ => hdepth hzero⟩, rfl⟩, Spans.nil ?_⟩
    exact Nat.le_trans hle (Nat.le_trans hmiddle hlast)

/-- The clauses of a `for` loop with their references. -/
abbrev GoodInitial (loop : Prop) : Nat → Nat → Option Stmt → Prop :=
  Grammar.Good (fun o => ∀ s ∈ o, Placed loop s)
    fun o => o.toList.flatMap fun s => idsOf s.occurrences

theorem reads_forInitial (h : inner.Sound) : Reads loop (forInitial inner) (GoodInitial loop) := by
  have hsome : ∀ (s : Stmt) (low middle : Nat), GoodStmt loop low middle s →
      Reads loop (pure (some s)) fun low' high o => middle ≤ low' → GoodInitial loop low high o := by
    intro s low middle hs
    refine reads_pure fun _ _ hle hmiddle => ?_
    have hgood := hs.widen (Nat.le_trans hmiddle hle)
    refine ⟨by simpa using hgood.1, ?_⟩
    simpa using hgood.2
  refine (reads_accept _).skip fun _ => reads_ite ?_ ((reads_acceptWord _).skip fun _ => ?_)
  · exact reads_pure fun _ _ hle => ⟨by simp, Spans.nil hle⟩
  · refine reads_ite ((reads_varDecl h).use hsome) ?_
    exact (reads_expressionStatement (h loop .expression)).use fun s low middle hs =>
      hsome s low middle hs.stmt

/-- The body of a loop and its increment make up one round. -/
theorem goodPart_round {low middle low' high : Nat} {increment : Option Expr} {body : Stmt}
    (hincrement : GoodOptional low middle increment) (hbody : GoodPart True low' high body)
    (hle : middle ≤ low') :
    GoodPart True low high (loopRound increment body) := by
  cases increment with
  | none => exact ⟨hbody.1, hbody.2.widen (Nat.le_trans hincrement.2.le hle) (Nat.le_refl high)⟩
  | some e =>
    refine ⟨⟨⟨⟨hbody.1.1.1, hincrement.1 e rfl, trivial⟩, fun _ => trivial⟩, rfl⟩, ?_⟩
    have hids := (hincrement.2.append hbody.2 hle).perm List.perm_append_comm
    simpa [loopRound, Stmt.occurrences, occurrencesInBody, idsOf_append] using hids

theorem idsOf_getD (condition : Option Expr) :
    idsOf (condition.getD (.literal (.bool true))).occurrences =
      condition.toList.flatMap fun e => idsOf e.occurrences := by
  cases condition with
  | none => rfl
  | some e => simp

theorem goodPart_forLoop {low₀ high₀ low₁ high₁ low₂ high₂ low₃ high₃ : Nat}
    {initial : Option Stmt} {condition increment : Option Expr} {body : Stmt}
    (hinitial : GoodInitial loop low₀ high₀ initial) (hcondition : GoodOptional low₁ high₁ condition)
    (hincrement : GoodOptional low₂ high₂ increment) (hbody : GoodPart True low₃ high₃ body)
    (h₀ : high₀ ≤ low₁) (h₁ : high₁ ≤ low₂) (h₂ : high₂ ≤ low₃) :
    GoodPart loop low₀ high₃ (forLoop initial condition increment body) := by
  have hround := goodPart_round hincrement hbody h₂
  have hformed : (condition.getD (.literal (.bool true))).Formed := by
    cases condition with
    | none => exact trivial
    | some e => exact hcondition.1 e rfl
  have hloop : (Stmt.whileDo (condition.getD (.literal (.bool true)))
      (loopRound increment body)).Formed := ⟨hformed, hround.1.1.1, hround.1.2⟩
  have hids := hinitial.2.append (hcondition.2.append hround.2 h₁) h₀
  cases initial with
  | none =>
    refine ⟨⟨⟨hloop, nofun⟩, rfl⟩, ?_⟩
    simpa [forLoop, Stmt.occurrences, idsOf_append, idsOf_getD] using hids
  | some s =>
    have hblock : PlacedBody loop [s, .whileDo (condition.getD (.literal (.bool true)))
        (loopRound increment body)] := by
      refine placedBody_iff.mpr fun st hst => ?_
      rcases List.mem_cons.mp hst with rfl | hst
      · exact hinitial.1 st rfl
      · rw [List.mem_singleton.mp hst]
        exact ⟨hloop, nofun⟩
    refine ⟨⟨placed_block hblock, rfl⟩, ?_⟩
    simpa [forLoop, Stmt.occurrences, occurrencesInBody, idsOf_append, idsOf_getD] using hids

theorem reads_forStatement (h : inner.Sound) : Reads loop (forStatement inner) (GoodPart loop) := by
  refine (reads_expect _).skip fun _ => ?_
  refine (reads_forInitial h).use fun initial low₀ high₀ hinitial => ?_
  refine (reads_optionalBefore _ (h loop .expression)).use fun condition low₁ high₁ hcondition => ?_
  refine (reads_expect _).skip fun _ => ?_
  refine (reads_optionalBefore _ (h loop .expression)).use fun increment low₂ high₂ hincrement => ?_
  refine (reads_expect _).skip fun _ => ?_
  refine (reads_withLoopDepth (h True .statement) fun _ _ => trivial).use
    fun body low₃ high₃ hbody => ?_
  refine reads_pure fun _ _ hle h₃ h₂ h₁ h₀ => ?_
  have hloop := goodPart_forLoop hinitial hcondition hincrement hbody h₀ h₁ h₂
  exact hloop.widen (Nat.le_trans h₃ hle)

theorem reads_ifStatement (h : inner.Sound) : Reads loop (ifStatement inner) (GoodPart loop) := by
  refine (reads_expect _).skip fun _ => (h loop .expression).use fun condition low₀ high₀ hcondition => ?_
  refine (reads_expect _).skip fun _ => (h loop .statement).use fun thenBranch low₁ high₁ hthen => ?_
  refine (reads_acceptWord _).skip fun _ => reads_ite ?_ ?_
  · rw [map_eq_pure_bind, bind_assoc]
    refine (h loop .statement).use fun elseBranch low₂ high₂ helse => ?_
    rw [pure_bind]
    refine reads_pure fun _ _ hle h₂ h₁ h₀ => ?_
    refine ⟨⟨⟨⟨hcondition.1, hthen.1.1.1, hthen.1.2, helse.1.1.1, helse.1.2⟩, ?_⟩, rfl⟩, ?_⟩
    · rintro (_ | _ | hbreaks | hbreaks)
      · exact hthen.1.1.2 hbreaks
      · exact helse.1.1.2 hbreaks
    simp only [Stmt.occurrences, idsOf_append]
    have hids := (hcondition.2.append hthen.2 h₀).append helse.2 h₁
    exact hids.widen (Nat.le_refl low₀) (Nat.le_trans h₂ hle)
  · rw [pure_bind]
    refine reads_pure fun _ _ hle h₁ h₀ => ?_
    refine ⟨⟨⟨⟨hcondition.1, hthen.1.1.1, hthen.1.2⟩, ?_⟩, rfl⟩, ?_⟩
    · rintro (_ | _ | hbreaks)
      exact hthen.1.1.2 hbreaks
    simp only [Stmt.occurrences, idsOf_append]
    exact (hcondition.2.append hthen.2 h₀).widen (Nat.le_refl low₀) (Nat.le_trans h₁ hle)

theorem reads_whileStatement (h : inner.Sound) :
    Reads loop (whileStatement inner) (GoodPart loop) := by
  refine (reads_expect _).skip fun _ => (h loop .expression).use fun condition low₀ high₀ hcondition => ?_
  refine (reads_expect _).skip fun _ => ?_
  refine (reads_withLoopDepth (h True .statement) fun _ _ => trivial).use
    fun body low₁ high₁ hbody => ?_
  refine reads_pure fun _ _ hle h₁ h₀ => ?_
  refine ⟨⟨⟨⟨hcondition.1, hbody.1.1.1, hbody.1.2⟩, nofun⟩, rfl⟩, ?_⟩
  simp only [Stmt.occurrences, idsOf_append]
  exact (hcondition.2.append hbody.2 h₀).widen (Nat.le_refl low₀) (Nat.le_trans h₁ hle)

theorem reads_returnStatement (h : inner.Sound) (line : Nat) :
    Reads loop (returnStatement inner line) (GoodPart loop) := by
  refine (reads_optionalBefore _ (h loop .expression)).use fun value low middle hvalue => ?_
  refine (reads_expect _).skip fun _ => reads_pure fun _ _ hle hmiddle => ?_
  have hgood := hvalue.widen (Nat.le_trans hmiddle hle)
  cases value with
  | none => exact ⟨⟨⟨trivial, nofun⟩, rfl⟩, Spans.nil hgood.2.le⟩
  | some e =>
    refine ⟨⟨⟨hgood.1 e rfl, nofun⟩, rfl⟩, ?_⟩
    simpa [Stmt.occurrences] using hgood.2

theorem reads_printStatement (h : inner.Sound) :
    Reads loop (printStatement inner) (GoodPart loop) := by
  refine (h loop .expression).use fun e low middle he => (reads_expect _).skip fun _ => ?_
  refine reads_pure fun _ _ hle hmiddle => ?_
  have hgood : GoodExpr low _ e := Good.widen he (Nat.le_trans hmiddle hle)
  exact ⟨⟨⟨hgood.1, nofun⟩, rfl⟩, hgood.2⟩

theorem reads_statement (h : inner.Sound) : Reads loop (statement inner) (GoodPart loop) := by
  refine reads_peek.skip fun token => ?_
  split
  · exact reads_advance.skip fun _ => reads_breakLoop token
  · exact reads_advance.skip fun _ => reads_forStatement h
  · exact reads_advance.skip fun _ => reads_ifStatement h
  · exact reads_advance.skip fun _ => reads_whileStatement h
  · exact reads_advance.skip fun _ => reads_returnStatement h _
  · refine reads_advance.skip fun _ => (reads_block h).use fun body low middle hbody => ?_
    refine reads_pure fun _ _ hle hmiddle => ?_
    have hgood := hbody.widen (Nat.le_trans hmiddle hle)
    exact ⟨⟨placed_block hgood.1, rfl⟩, hgood.2⟩
  · exact reads_advance.skip fun _ => reads_printStatement h
  · exact reads_expressionStatement (reads_expression h)

/-! ## Declarations -/

/-- Occurrences in a row with their references. -/
abbrev GoodReferences : Nat → Nat → List Reference → Prop :=
  GoodList Reference.Plain fun ref => [ref.id]

theorem reads_withClause (bound : Nat) : Reads loop (withClause bound) GoodReferences := by
  refine (reads_acceptWord _).skip fun _ => reads_ite ?_ ?_
  · exact reads_commaSeparated (fun _ => reads_reference .ofTrait) bound 0
  · exact reads_pure fun _ _ hle => GoodList.nil hle

theorem idsOf_references (refs : List Reference) :
    idsOf (refs.map Reference.occurrence) = refs.flatMap fun ref => [ref.id] := by
  induction refs with
  | nil => rfl
  | cons ref rest ih => simpa [idsOf, Reference.occurrence] using ih

/-- Methods in a row with their references. -/
abbrev GoodMethods : Nat → Nat → List NamedFunction → Prop :=
  Grammar.Good FormedMethods fun methods => idsOf (occurrencesInMethods methods)

theorem goodMethods_of_list {low high : Nat} {methods : List NamedFunction}
    (h : GoodList NamedFunction.Formed (fun f => idsOf f.occurrences) low high methods) :
    GoodMethods low high methods := by
  refine ⟨formedMethods_iff.mpr h.1, ?_⟩
  simp only [idsOf_methods]
  exact h.2

/-- A member of a class with its references. -/
abbrev GoodMember : Nat → Nat → Bool × NamedFunction → Prop :=
  Grammar.Good (fun member => member.2.Formed) fun member => idsOf member.2.occurrences

theorem reads_classMember (h : inner.Sound) : Reads loop (classMember inner) GoodMember := by
  refine (reads_acceptWord _).skip fun ofClass => ?_
  refine (reads_namedFunction h _).use fun f low middle hf => reads_pure fun _ _ hle hmiddle => ?_
  have hgood := hf.widen (Nat.le_trans hmiddle hle)
  exact ⟨hgood.1, hgood.2⟩

/-- The members of a class, those of the class itself behind the others. -/
theorem goodMembers {low high : Nat} {members : List (Bool × NamedFunction)}
    (h : GoodList (fun member => member.2.Formed) (fun member => idsOf member.2.occurrences)
      low high members) :
    FormedMethods ((members.partition Prod.fst).2.map Prod.snd) ∧
      FormedMethods ((members.partition Prod.fst).1.map Prod.snd) ∧
      Spans low high (idsOf (occurrencesInMethods ((members.partition Prod.fst).2.map Prod.snd)) ++
        idsOf (occurrencesInMethods ((members.partition Prod.fst).1.map Prod.snd))) := by
  rw [List.partition_eq_filter_filter]
  refine ⟨?_, ?_, ?_⟩
  · refine formedMethods_iff.mpr fun f hf => ?_
    obtain ⟨member, hmember, rfl⟩ := List.mem_map.mp hf
    exact h.1 member ((List.mem_filter.mp hmember).1)
  · refine formedMethods_iff.mpr fun f hf => ?_
    obtain ⟨member, hmember, rfl⟩ := List.mem_map.mp hf
    exact h.1 member ((List.mem_filter.mp hmember).1)
  · simp only [idsOf_methods, List.flatMap_map, ← List.flatMap_append]
    refine h.2.perm (List.Perm.flatMap_right _ ?_)
    exact ((List.perm_append_comm).trans (List.filter_append_perm Prod.fst members)).symm

theorem reads_classDecl (h : inner.Sound) : Reads loop (classDecl inner) (GoodStmt loop) := by
  refine (reads_expectName _).ordered.use fun name low middle ⟨hle, hname⟩ => ?_
  have hrest : ∀ (superclass : Option Reference) (low₀ high₀ : Nat),
      GoodReferences low₀ high₀ superclass.toList →
      Reads loop (do
        let traits ← withClause inner.bound
        let _ ← expect .classOpen
        let members ← untilBrace (classMember inner) inner.bound
        let _ ← expect .classClose
        return Stmt.classDecl name superclass traits ((members.partition Prod.fst).2.map Prod.snd)
          ((members.partition Prod.fst).1.map Prod.snd)) fun start last s => high₀ ≤ start →
            middle ≤ low₀ →
            GoodStmt loop low last s := by
    intro superclass low₀ high₀ hsuperclass
    refine (reads_withClause _).use fun traits low₁ high₁ htraits => (reads_expect _).skip fun _ => ?_
    refine (reads_untilBrace (reads_classMember h) inner.bound).use
      fun members low₂ high₂ hmembers => (reads_expect _).skip fun _ => ?_
    refine reads_pure fun _ _ hlast h₂ h₁ h₀ hmiddle => ?_
    obtain ⟨hmethods, hclassMethods, hspans⟩ := goodMembers hmembers
    have hheads : ∀ ref ∈ superclass.toList ++ traits, ref.Plain := fun ref href =>
      (List.mem_append.mp href).elim (hsuperclass.1 ref) (htraits.1 ref)
    refine ⟨⟨⟨hname, hheads, hmethods, hclassMethods⟩, nofun⟩, ?_⟩
    simp only [Stmt.occurrences, idsOf_append, idsOf_references, List.append_assoc]
    have hids := hsuperclass.2.append (htraits.2.append hspans h₁) h₀
    exact hids.widen (Nat.le_trans hle hmiddle) (Nat.le_trans h₂ hlast)
  refine (reads_accept _).skip fun _ => reads_ite ?_ ?_
  · rw [map_eq_pure_bind, bind_assoc]
    refine (reads_reference _).use fun ref low₀ high₀ href => ?_
    rw [pure_bind]
    exact hrest (some ref) low₀ high₀ href.single
  · have hnone : Reads loop (pure none) fun low high (superclass : Option Reference) =>
        GoodReferences low high superclass.toList := reads_pure fun _ _ hle => GoodList.nil hle
    exact hnone.use hrest

theorem reads_traitDecl (h : inner.Sound) : Reads loop (traitDecl inner) (GoodStmt loop) := by
  refine (reads_expectName _).ordered.use fun name low middle ⟨hle, hname⟩ => ?_
  refine (reads_withClause _).use fun traits low₁ high₁ htraits => (reads_expect _).skip fun _ => ?_
  refine (reads_untilBrace (reads_namedFunction h _) inner.bound).use
    fun methods low₂ high₂ hmethods => (reads_expect _).skip fun _ => ?_
  refine reads_pure fun _ _ hlast h₂ h₁ hmiddle => ?_
  have hmethods := goodMethods_of_list hmethods
  refine ⟨⟨⟨hname, htraits.1, hmethods.1⟩, nofun⟩, ?_⟩
  simp only [Stmt.occurrences, idsOf_append, idsOf_references]
  have hids := htraits.2.append hmethods.2 h₁
  exact hids.widen (Nat.le_trans hle hmiddle) (Nat.le_trans h₂ hlast)

/-- Looking ahead leaves the cursor where it is. -/
theorem atNamedFunction_eq (c : Cursor) : ∃ found, atNamedFunction c = .ok found c := by
  unfold atNamedFunction
  split
  · exact ⟨true, rfl⟩
  · exact ⟨false, rfl⟩

theorem reads_atNamedFunction : Reads loop atNamedFunction Anything := by
  intro c low _ _ _
  obtain ⟨found, hfound⟩ := atNamedFunction_eq c
  unfold Ensures
  rw [hfound]
  exact ⟨.refl c, fun _ _ => trivial⟩

theorem reads_strictDeclaration (h : inner.Sound) :
    Reads loop (strictDeclaration inner) (GoodStmt loop) := by
  refine (reads_acceptWord _).skip fun _ => reads_ite (reads_classDecl h) ?_
  refine (reads_acceptWord _).skip fun _ => reads_ite (reads_traitDecl h) ?_
  refine reads_atNamedFunction.skip fun _ => reads_ite ?_ ?_
  · refine reads_advance.skip fun _ => (reads_namedFunction h _).use fun f low middle hf => ?_
    refine reads_pure fun _ _ hle hmiddle => ?_
    have hgood := hf.widen (Nat.le_trans hmiddle hle)
    exact ⟨⟨hgood.1, nofun⟩, hgood.2⟩
  · refine (reads_acceptWord _).skip fun _ => reads_ite (reads_varDecl h) ?_
    exact (reads_statement h).mono fun _ _ _ => GoodPart.stmt

/-! ## The knot -/

theorem reads_rule (h : inner.Sound) (category : Category) :
    Reads loop (rule inner category) (category.Good loop) := by
  cases category with
  | expression => exact reads_expression h
  | assignment => exact reads_assignment h
  | conditional => exact reads_conditional h
  | unary => exact reads_unary h
  | statement => exact reads_statement h
  | declaration => exact reads_recover (reads_strictDeclaration h)

/-- With any budget a category is read in order. -/
theorem reads_ruleAt (budget : Nat) (loop : Prop) (category : Category) :
    Reads loop (ruleAt budget category) (category.Good loop) := by
  induction budget generalizing loop category with
  | zero => exact reads_failHere
  | succ budget ih => exact reads_rule (fun loop category => ih loop category) category

theorem reads_declarations (loop : Prop) (budget more : Nat) :
    Reads loop (declarations budget more) (GoodBody loop) := by
  induction more with
  | zero => exact reads_pure fun _ _ hle => ⟨placedBody_iff.mpr (by simp), Spans.nil hle⟩
  | succ more ih =>
    refine reads_atEnd.skip fun _ => reads_ite ?_ ?_
    · exact reads_pure fun _ _ hle => ⟨placedBody_iff.mpr (by simp), Spans.nil hle⟩
    · refine (reads_found (reads_ruleAt budget loop .declaration)).use
        fun found low middle hfound => ?_
      refine ih.use fun rest low' high hrest => reads_pure fun _ _ hle hhigh hmiddle => ?_
      refine ⟨placedBody_iff.mpr fun s hs => ?_, ?_⟩
      · rcases List.mem_append.mp hs with hs | hs
        · exact hfound.1 s (Option.mem_toList.mp hs)
        · exact placedBody_iff.mp hrest.1 s hs
      · have hids := hfound.2.append hrest.2 hmiddle
        simp only [idsOf_body, List.flatMap_append] at hids ⊢
        exact hids.widen (Nat.le_refl low) (Nat.le_trans hhigh hle)

theorem reads_wholeExpression (loop : Prop) (budget : Nat) :
    Reads loop (wholeExpression budget) GoodExpr := by
  refine (reads_ruleAt budget loop .expression).use fun e low middle he => reads_atEnd.skip fun _ => ?_
  refine reads_ite (reads_pure fun _ _ hle hmiddle => ?_) reads_failHere
  exact Good.widen he (Nat.le_trans hmiddle hle)

variable {α : Type}

/-- A text of plain tokens: the references of its tree are all new, and later trees have later
ones. -/
theorem read_of_reads {rule : Nat → Rule α} {good : Nat → Nat → α → Prop}
    (h : ∀ budget, Reads False (rule budget) good) {tokens : List Token}
    (plain : ∀ t ∈ tokens, PlainToken t) (nextId : Nat) :
    nextId ≤ (read rule tokens nextId).nextId ∧
      ∀ tree, (read rule tokens nextId).result = .ok tree →
        good nextId (read rule tokens nextId).nextId tree := by
  have hreads := h (tokens.length + 1) (Cursor.ofTokens tokens nextId) nextId
    (fun t ht => plain t (List.takeWhile_subset _ ht)) (fun hdepth => hdepth rfl) (Nat.le_refl _)
  unfold Ensures at hreads
  unfold read
  cases hrule : rule (tokens.length + 1) (Cursor.ofTokens tokens nextId) with
  | ok a c =>
    rw [hrule] at hreads
    obtain ⟨later, hgood⟩ := hreads
    simp only
    split
    · refine ⟨later.nextId, fun tree htree => ?_⟩
      cases htree
      exact hgood _ (Nat.le_refl _)
    · exact ⟨later.nextId, fun tree htree => by simp at htree⟩
  | error problem c =>
    rw [hrule] at hreads
    exact ⟨hreads.nextId, fun tree htree => by simp at htree⟩

end Grammar

theorem readProgram_good {tokens : List Token} (plain : ∀ t ∈ tokens, Grammar.PlainToken t)
    (nextId : Nat) :
    nextId ≤ (readProgram tokens nextId).nextId ∧
      ∀ program, (readProgram tokens nextId).result = .ok program →
        Grammar.GoodBody False nextId (readProgram tokens nextId).nextId program :=
  Grammar.read_of_reads (fun budget => Grammar.reads_declarations False budget budget) plain nextId

theorem readExpression_good {tokens : List Token} (plain : ∀ t ∈ tokens, Grammar.PlainToken t)
    (nextId : Nat) :
    nextId ≤ (readExpression tokens nextId).nextId ∧
      ∀ e, (readExpression tokens nextId).result = .ok e →
        Grammar.GoodExpr nextId (readExpression tokens nextId).nextId e :=
  Grammar.read_of_reads (Grammar.reads_wholeExpression False) plain nextId

end LoxLang
