import LoxLang.Proofs.Grammar.Acceptance
import LoxLang.Proofs.Grammar.Mirrors

/-!
# What rules read they read again

What a rule has read is written with tokens that say the same, and the same rule reads these as
the same tree, whatever stands behind them that does not continue it (`Echoes`). Like the rules
themselves, the lemmas go from the operands to the levels of operators; of the categories within a
rule each assumes what `echoes_ruleAt` concludes by induction on the budget. No form of the trees
that can be read has to be described this way: what is written is read by the rule that has read
it in the first place.
-/

namespace LoxLang

namespace Grammar

/-- Rules whose parts are read with a budget. -/
def Rules.within (budget : Nat) : Rules :=
  ⟨budget + 1, ruleAt budget⟩

/-- A rule reads an expression from its own tokens, if what stands behind them does not continue
it. -/
def Rereads (level : Nat) (rule : Rules → Rule Expr) (e : Expr) : Prop :=
  ∀ loop budget r, e.tokens.length ≤ budget → Ends level r →
    Takes loop (rule (.within budget)) e.tokens r fun e' => e'.bare = e.bare

/-- An expression that a rule has read from `w` says what `w` does, and the rule reads it again. -/
structure Echoes (level : Nat) (rule : Rules → Rule Expr) (w : List Token) (e : Expr) : Prop where
  mirrors : Mirrors w e.tokens
  again : Rereads level rule e

variable {inner : Rules} {loop : Bool} {level : Nat} {rule : Rules → Rule Expr}

/-- A category is read by its rule with one less to spend. -/
theorem takes_read {category : Category} {w r : List Token} {good : category.Found → Prop}
    {budget : Nat} (hbudget : w.length < budget)
    (h : ∀ budget, w.length ≤ budget →
      Takes loop (Grammar.rule (.within budget) category) w r good) :
    Takes loop ((Rules.within budget).read category) w r good := by
  obtain ⟨budget, rfl⟩ := Nat.exists_eq_add_one.mpr (Nat.zero_lt_of_lt hbudget)
  exact h budget (Nat.le_of_lt_succ hbudget)

/-! ## Names and symbols -/

theorem parses_expectName (role : NameRole) :
    Parses loop (expectName role) fun w n => Mirrors w [n.token] := by
  refine parses_peek fun t => ?_
  split
  · next name hkind =>
    refine (parsesAt_advance (by simp [hkind])).use fun _ => parses_pure fun w hw => ?_
    rw [hw]
    exact mirrors_of_meaning (by simp [Token.meaning, Name.token, hkind])
  · exact parses_failHere t

theorem takes_expectName_token {role : NameRole} (n : Name) (r : List Token) :
    Takes loop (expectName role) [n.token] r fun n' => n'.bare = n.bare := by
  refine takes_peek_cons ?_
  exact takes_advance fun _ => takes_pure rfl

theorem takes_expect_token (landmark : Landmark) (r : List Token) :
    TakesUp loop (expect landmark) [landmark.symbol.token] r :=
  takes_expect (.symbol rfl)

theorem parses_reference (role : NameRole) :
    Parses loop (reference role) fun w ref => Mirrors w [ref.name.token] := by
  refine (parses_expectName role).use fun n => parses_freshId.use fun _ => parses_pure ?_
  intro v hv w hw
  rw [hv, List.append_nil, List.append_nil]
  exact hw

theorem takes_reference_token {role : NameRole} (ref : Reference) (r : List Token) :
    Takes loop (reference role) [ref.name.token] r fun ref' => ref'.bare = ref.bare := by
  refine (takes_expectName_token ref.name r).last fun n hn => ?_
  refine takesUp_freshId.skip fun _ _ => takes_pure ?_
  simp [Reference.bare, hn]

/-! ## Lists -/

/-- What is said of the items of a list, each with the number of those before it. -/
def Numbered {α : Type} (good : Nat → α → Prop) : Nat → List α → Prop
  | _, [] => True
  | count, a :: rest => good count a ∧ Numbered good (count + 1) rest

theorem Numbered.mono {α : Type} {good good' : Nat → α → Prop} {count : Nat} {as : List α}
    (h : Numbered good count as) (imp : ∀ count, ∀ a ∈ as, good count a → good' count a) :
    Numbered good' count as := by
  induction as generalizing count with
  | nil => trivial
  | cons a rest ih =>
    refine ⟨imp count a (by simp) h.1, ih h.2 fun count b hb => ?_⟩
    exact imp count b (List.mem_cons_of_mem _ hb)

theorem numbered_of_forall {α : Type} {good : Nat → α → Prop} {count : Nat} {as : List α}
    (h : ∀ count, ∀ a ∈ as, good count a) : Numbered good count as := by
  induction as generalizing count with
  | nil => trivial
  | cons a rest ih =>
    exact ⟨h count a (by simp), ih fun count b hb => h count b (List.mem_cons_of_mem _ hb)⟩

/-- Items with commas between them mirror what they were read from. -/
theorem parses_commaSeparated_mirrors {α : Type} {item : Nat → Rule α} {tokens : α → List Token}
    {good : Nat → α → Prop}
    (h : ∀ count, Parses loop (item count) fun w a => Mirrors w (tokens a) ∧ good count a)
    (budget count : Nat) :
    Parses loop (commaSeparated item budget count) fun w as =>
      Mirrors w (commaJoined (as.map tokens)) ∧ as ≠ [] ∧ Numbered good count as := by
  induction budget generalizing count with
  | zero => exact parses_failHere
  | succ budget ih =>
    refine (h count).use fun a => parses_ifAccept .comma ?_ ?_
    · refine (ih (count + 1)).use fun as => parses_pure ?_
      rintro w ⟨hw, hne, hrest⟩ v hv u ⟨hu, ha⟩
      obtain ⟨b, bs, rfl⟩ := List.exists_cons_of_ne_nil hne
      rw [List.append_nil]
      exact ⟨hu.append ((mirrors_of_symbol hv).append hw), by simp, ha, hrest⟩
    · refine parses_pure fun u hu => ?_
      rw [List.append_nil]
      exact ⟨hu.1, by simp, hu.2, trivial⟩

/-- Items with commas between them are read one by one. -/
theorem takes_commaJoined {α γ : Type} {item : Nat → Rule α} {tokens : α → List Token}
    (bare : α → γ) (stops : List Token → Prop) {budget count : Nat} {as : List α}
    {r : List Token} (hcomma : ∀ r, stops (Symbol.comma.token :: r)) (hr : stops r)
    (havoids : Avoids (isSymbol .comma) r) (hne : as ≠ []) (hbudget : as.length ≤ budget)
    (h : Numbered (fun count a => ∀ r, stops r →
      Takes loop (item count) (tokens a) r fun a' => bare a' = bare a) count as) :
    Takes loop (commaSeparated item budget count) (commaJoined (as.map tokens)) r
      fun as' => as'.map bare = as.map bare := by
  -- Each item takes its own tokens, since a comma or what follows the last one ends it.
  induction budget generalizing count as with
  | zero => exact absurd (List.length_eq_zero_iff.mp (Nat.le_zero.mp hbudget)) hne
  | succ budget ih =>
    obtain ⟨a, rest, rfl⟩ := List.exists_cons_of_ne_nil hne
    obtain ⟨ha, hrest⟩ := h
    cases rest with
    | nil =>
      refine (ha r hr).last fun a' ha' => takes_accept_avoids havoids (takes_pure ?_)
      simp [ha']
    | cons b rest =>
      refine Takes.use (ha _ (hcomma _)) fun a' ha' => ?_
      refine takes_accept (v := [Symbol.comma.token]) (.symbol rfl) ?_
      have hlength : (b :: rest).length ≤ budget := Nat.le_of_succ_le_succ hbudget
      refine (ih (by simp) hlength hrest).last fun rest' hrest' => takes_pure ?_
      simp only [List.map_cons] at hrest' ⊢
      rw [ha', hrest']

theorem length_commaJoined (items : List (List Token)) (h : ∀ item ∈ items, item ≠ []) :
    items.length ≤ (commaJoined items).length := by
  induction items using commaJoined.induct with
  | case1 => exact Nat.le_refl 0
  | case2 item => exact List.length_pos_iff.mpr (h item (by simp))
  | case3 item rest hrest ih =>
    have hlength := ih fun item hitem => h item (List.mem_cons_of_mem _ hitem)
    rw [commaJoined.eq_3 _ _ hrest]
    simp only [List.length_cons, List.length_append] at hlength ⊢
    omega

theorem length_le_commaJoined {items : List (List Token)} {item : List Token}
    (h : item ∈ items) : item.length ≤ (commaJoined items).length := by
  induction items using commaJoined.induct with
  | case1 => cases h
  | case2 first =>
    obtain rfl := List.mem_singleton.mp h
    exact Nat.le_refl _
  | case3 first rest hrest ih =>
    rw [commaJoined.eq_3 _ _ hrest, List.length_append, List.length_cons]
    rcases List.mem_cons.mp h with rfl | h
    · exact Nat.le_add_right _ _
    · have := ih h
      omega

/-- Items with commas between them begin as the first one does. -/
theorem commaJoined_cons (item : List Token) (rest : List (List Token)) :
    ∃ v, commaJoined (item :: rest) = item ++ v := by
  cases rest with
  | nil => exact ⟨[], (List.append_nil item).symm⟩
  | cons next rest => exact ⟨_, rfl⟩

theorem length_le_flatMap {α : Type} (tokens : α → List Token) {as : List α} {a : α}
    (h : a ∈ as) : (tokens a).length ≤ (as.flatMap tokens).length := by
  obtain ⟨before, behind, rfl⟩ := List.append_of_mem h
  simp only [List.flatMap_append, List.flatMap_cons, List.length_append]
  omega

theorem length_flatMap {α : Type} {tokens : α → List Token} {as : List α}
    (h : ∀ a ∈ as, tokens a ≠ []) : as.length ≤ (as.flatMap tokens).length := by
  induction as with
  | nil => exact Nat.le_refl 0
  | cons a rest ih =>
    obtain ⟨ha, hrest⟩ := List.forall_mem_cons.mp h
    have hpositive := List.length_pos_iff.mpr ha
    have hlength := ih hrest
    simp only [List.flatMap_cons, List.length_append, List.length_cons]
    omega

/-- Items up to a brace mirror what they were read from. -/
theorem parses_untilBrace_mirrors {α : Type} {item : Rule α} {tokens : α → List Token}
    {good : α → Prop} (h : Parses loop item fun w a => Mirrors w (tokens a) ∧ good a)
    (budget : Nat) :
    Parses loop (untilBrace item budget) fun w as =>
      Mirrors w (as.flatMap tokens) ∧ ∀ a ∈ as, good a := by
  induction budget with
  | zero => exact parses_pure ⟨mirrors_nil, by simp⟩
  | succ budget ih =>
    refine (parses_atSymbol _).skip fun _ => parses_atEnd.skip fun _ => ?_
    refine parses_ite (fun _ => parses_pure ⟨mirrors_nil, by simp⟩) fun _ => ?_
    refine h.use fun a => ih.use fun as => parses_pure ?_
    rintro v ⟨hv, has⟩ u ⟨hu, ha⟩
    rw [List.append_nil]
    exact ⟨hu.append hv, List.forall_mem_cons.mpr ⟨ha, has⟩⟩

/-- Items up to a brace are read one by one. -/
theorem takes_untilBrace_flatMap {α γ : Type} {item : Rule α} {tokens : α → List Token}
    (bare : α → γ) (stops : List Token → Prop) {budget : Nat} {as : List α} {r : List Token}
    (hopens : ∀ a ∈ as, tokens a ≠ [] ∧ Avoids (isSymbol .rightBrace) (tokens a))
    (hnext : ∀ a ∈ as, ∀ r, stops (tokens a ++ r)) (hr : stops (Symbol.rightBrace.token :: r))
    (hbudget : as.length < budget)
    (h : ∀ a ∈ as, ∀ r, stops r → Takes loop item (tokens a) r fun a' => bare a' = bare a) :
    Takes loop (untilBrace item budget) (as.flatMap tokens) (Symbol.rightBrace.token :: r)
      fun as' => as'.map bare = as.map bare := by
  induction budget generalizing as with
  | zero => omega
  | succ budget ih =>
    cases as with
    | nil =>
      refine takes_atSymbol ⟨_, rfl, rfl⟩ (takes_atEnd.skip fun _ _ => ?_)
      exact takes_pure rfl
    | cons a rest =>
      obtain ⟨hopen, hopens⟩ := List.forall_mem_cons.mp hopens
      obtain ⟨ha, hrest⟩ := List.forall_mem_cons.mp h
      -- An item is followed by the next one or by the brace.
      have hstops : stops (rest.flatMap tokens ++ Symbol.rightBrace.token :: r) := by
        cases rest with
        | nil => exact hr
        | cons b rest =>
          rw [List.flatMap_cons, List.append_assoc]
          exact hnext b (by simp) _
      rw [List.flatMap_cons]
      refine takes_atSymbol_avoids ?_ (takes_atEnd.skip fun atEnd hend => ?_)
      · rw [List.append_assoc]
        exact hopen.2.append hopen.1
      have hmore : atEnd = false := by
        rw [hend]
        simp
      rw [hmore]
      refine Takes.use (ha _ hstops) fun a' ha' => ?_
      have hnext' : ∀ b ∈ rest, ∀ r, stops (tokens b ++ r) :=
        fun b hb => hnext b (List.mem_cons_of_mem _ hb)
      refine (ih hopens hnext' (Nat.lt_of_succ_lt_succ hbudget) hrest).last fun rest' hrest' => ?_
      refine takes_pure ?_
      rw [List.map_cons, List.map_cons, ha', hrest']

/-! ## What is read again -/

/-- A statement that is read again from its own tokens within as many loops, unless behind them an
`else` stands that would belong to it. -/
structure Restates (loop : Bool) (s : Stmt) : Prop where
  opens : Opens statementTerminals s.tokens
  again : ∀ budget r, s.tokens.length ≤ budget → (s.OpenEnded → NoElse r) →
    Takes loop (statement (.within budget)) s.tokens r fun s' => s'.bare = s.bare

/-- A declaration or statement that is read again from its own tokens. -/
structure Redeclares (loop : Bool) (s : Stmt) : Prop where
  filled : s.tokens ≠ []
  begins : Begins declarationTerminals s.tokens
  again : ∀ budget r, s.tokens.length ≤ budget → NoElse r →
    Takes loop (strictDeclaration (.within budget)) s.tokens r fun s' => s'.bare = s.bare

/-- What is found for a category says what was read for it, and is read again. -/
def Category.Echoes (loop : Bool) : (category : Category) → List Token → category.Found → Prop
  | expression => Grammar.Echoes 10 Grammar.expression
  | assignment => Grammar.Echoes 9 Grammar.assignment
  | conditional => Grammar.Echoes 8 Grammar.conditional
  | unary => Grammar.Echoes 1 Grammar.unary
  | statement => fun w s => Mirrors w s.tokens ∧ Restates loop s
  | declaration => fun w found => ∃ s, found = some s ∧ Mirrors w s.tokens ∧ Redeclares loop s

/-- Rules that find what is read again. -/
def Rules.Echoing (inner : Rules) : Prop :=
  ∀ loop category, Parses loop (inner.read category) (category.Echoes loop)

theorem Rules.Echoing.expression (h : inner.Echoing) :
    Parses loop (inner.read .expression) (Echoes 10 expression) :=
  h loop .expression

/-- What stands between parentheses or before a semicolon is read again as an expression. -/
theorem Rereads.takes {r : List Token} {e : Expr} (h : Rereads 10 expression e) {budget : Nat}
    (hbudget : e.tokens.length < budget) (hr : Ends 10 r) :
    Takes loop ((Rules.within budget).read .expression) e.tokens r fun e' => e'.bare = e.bare :=
  takes_read hbudget fun _ hle => h loop _ r hle hr

/-! ## Functions -/

theorem parses_parameter_mirrors (count : Nat) :
    Parses loop (parameter count) fun w n => Mirrors w [n.token] ∧ count < maxArity := by
  refine (parses_checkArity _ _).use fun _ => (parses_expectName _).mono ?_
  rintro v n hv u ⟨rfl, hcount⟩
  exact ⟨hv, hcount⟩

/-- The tokens of a statement, if there is one. -/
def foundTokens (found : Option Stmt) : List Token :=
  found.elim [] Stmt.tokens

theorem bodyTokens_flatMap (found : List (Option Stmt)) :
    bodyTokens (found.flatMap Option.toList) = found.flatMap foundTokens := by
  rw [bodyTokens_eq_flatMap, List.flatMap_assoc]
  congr 1
  funext f
  cases f <;> simp [foundTokens]

theorem bareBody_flatMap (found : List (Option Stmt)) :
    bareBody (found.flatMap Option.toList) =
      (found.map (Option.map Stmt.bare)).flatMap Option.toList := by
  rw [bareBody_eq_map, List.map_flatMap, List.flatMap_map]
  congr 1
  funext f
  cases f <;> rfl

theorem flatMap_toList_some (body : List Stmt) : (body.map some).flatMap Option.toList = body := by
  simp [List.flatMap_map]

/-- A declaration is read again where problems are recovered from. -/
theorem Redeclares.takes {s : Stmt} (h : Redeclares loop s) {budget : Nat} {r : List Token}
    (hbudget : s.tokens.length < budget) (hr : NoElse r) :
    Takes loop ((Rules.within budget).read .declaration) s.tokens r
      fun found => found.map Stmt.bare = some s.bare := by
  refine takes_read hbudget fun budget hle => ?_
  refine (takes_recover (h.again budget r hle hr)).mono ?_
  rintro found ⟨s', rfl, hs'⟩
  exact congrArg some hs'

/-- The statements of a block are read again up to its brace. -/
theorem takes_block_tokens {body : List Stmt} (h : ∀ s ∈ body, Redeclares loop s) {budget : Nat}
    (hbudget : (bodyTokens body).length < budget) (r : List Token) :
    Takes loop (block (.within budget)) (bodyTokens body ++ [Symbol.rightBrace.token]) r
      fun body' => bareBody body' = bareBody body := by
  -- The rule finds an optional statement for each declaration; in what is written back all of them
  -- are there.
  have hall : ∀ f ∈ body.map some, ∃ s, f = some s ∧ Redeclares loop s := by
    intro f hf
    obtain ⟨s, hs, rfl⟩ := List.mem_map.mp hf
    exact ⟨s, rfl, h s hs⟩
  have hopens : ∀ f ∈ body.map some,
      foundTokens f ≠ [] ∧ Begins declarationTerminals (foundTokens f) := by
    intro f hf
    obtain ⟨s, rfl, hs⟩ := hall f hf
    exact ⟨hs.filled, hs.begins⟩
  have htokens : bodyTokens body = (body.map some).flatMap foundTokens := by
    rw [← bodyTokens_flatMap, flatMap_toList_some]
  have hcount := length_flatMap fun f hf => (hopens f hf).1
  rw [htokens] at hbudget ⊢
  refine Takes.use (takes_untilBrace_flatMap (Option.map Stmt.bare) NoElse
    (fun f hf => ⟨(hopens f hf).1, ?_⟩) (fun f hf r => ?_) ?_ ?_ fun f hf r hr => ?_)
    fun found hfound => ?_
  · exact fun t ht => (hopens f hf).2.isSymbol ht (by decide)
  · exact Avoids.append (fun t ht => (hopens f hf).2.isWord ht (by decide)) (hopens f hf).1
  · exact avoids_cons rfl
  · exact Nat.lt_succ_of_le (Nat.le_of_lt (Nat.lt_of_le_of_lt hcount hbudget))
  · have hlength := length_le_flatMap foundTokens hf
    obtain ⟨s, rfl, hs⟩ := hall f hf
    exact hs.takes (Nat.lt_of_le_of_lt hlength hbudget) hr
  · refine (takes_expect_token .blockClose r).last fun _ _ => takes_pure ?_
    rw [bareBody_flatMap, hfound, ← bareBody_flatMap, flatMap_toList_some]

/-- The statements of a block with its brace, each of which is read again. -/
def EchoesBlock (loop : Bool) (w : List Token) (body : List Stmt) : Prop :=
  Mirrors w (bodyTokens body ++ [Symbol.rightBrace.token]) ∧ ∀ s ∈ body, Redeclares loop s

theorem echoes_block (h : inner.Echoing) : Parses loop (block inner) (EchoesBlock loop) := by
  have hitem : Parses loop (inner.read .declaration) fun w found =>
      Mirrors w (foundTokens found) ∧ ∀ s ∈ found, Redeclares loop s := by
    refine (h loop .declaration).mono ?_
    rintro w found ⟨s, rfl, hw, hs⟩
    exact ⟨hw, by simpa using hs⟩
  refine (parses_untilBrace_mirrors hitem inner.bound).use fun found => ?_
  refine (yields_expect .blockClose).use fun _ => parses_pure ?_
  rintro v hv w ⟨hw, hfound⟩
  rw [List.append_nil, EchoesBlock, bodyTokens_flatMap]
  refine ⟨hw.append (mirrors_of_symbol hv), fun s hs => ?_⟩
  obtain ⟨f, hf, hsome⟩ := List.mem_flatMap.mp hs
  exact hfound f hf s (Option.mem_toList.mp hsome)

/-- A function that is read again, whatever stands behind it. -/
structure EchoesFunction (w : List Token) (f : Function) : Prop where
  mirrors : Mirrors w f.tokens
  again : ∀ loop callable budget r, f.tokens.length ≤ budget →
    Takes loop (function (.within budget) callable) f.tokens r fun f' => f'.bare = f.bare

/-- The parameters of a function between its parentheses. -/
theorem takes_parameters {params : List Name} {budget : Nat} {r : List Token}
    (hr : Avoids (isSymbol .comma) r) (hne : params ≠ [])
    (hcount : Numbered (fun count _ => count < maxArity) 0 params)
    (hbudget : params.length ≤ budget) :
    Takes loop (commaSeparated parameter budget 0) (parameterTokens params) r
      fun params' => params'.map Name.bare = params.map Name.bare := by
  refine takes_commaJoined Name.bare (fun _ => True) (fun _ => trivial) trivial hr hne hbudget ?_
  refine hcount.mono fun count n _ hroom r _ => ?_
  exact (takesUp_checkArity hroom).skip fun _ _ => takes_expectName_token n r

theorem length_parameterTokens (params : List Name) :
    params.length ≤ (parameterTokens params).length := by
  have hlength := length_commaJoined (params.map fun param => [param.token]) (by simp)
  simpa [parameterTokens] using hlength

theorem takes_function_tokens {params : List Name} {body : List Stmt} {callable : Callable}
    {budget : Nat} (r : List Token)
    (hparams : Numbered (fun count _ => count < maxArity) 0 params)
    (hbody : ∀ s ∈ body, Redeclares false s)
    (hbudget : (Function.mk params body).tokens.length ≤ budget) :
    Takes loop (function (.within budget) callable) (Function.mk params body).tokens r
      fun f => f.bare = (Function.mk params body).bare := by
  have hlength := length_parameterTokens params
  simp only [Function.tokens, List.length_cons, List.length_append] at hbudget
  have hrest : ∀ params' : List Name, params'.map Name.bare = params.map Name.bare →
      Takes loop (do
        let _ ← expect .parametersClose
        let _ ← expect (.bodyOpen callable)
        let body ← withLoopDepth (fun _ => 0) (block (.within budget))
        return Function.mk params' body)
        (Symbol.rightParen.token :: Symbol.leftBrace.token ::
          (bodyTokens body ++ [Symbol.rightBrace.token])) r
        fun f => f.bare = (Function.mk params body).bare := by
    intro params' hparams'
    refine Takes.use (takes_expect_token .parametersClose _) fun _ _ => ?_
    refine Takes.use (takes_expect_token (.bodyOpen callable) _) fun _ _ => ?_
    have hblock := takes_block_tokens hbody (show _ < budget by omega) r
    refine (takes_withLoopDepth hblock fun _ _ => by simp).last
      fun body' hbody' => takes_pure ?_
    rw [Function.bare, Function.bare, hparams', hbody']
  rw [Function.tokens]
  refine Takes.use (takes_expect_token (.parametersOpen callable) _) fun _ _ => ?_
  -- Without parameters the closing parenthesis comes at once; else the first name stands before it.
  cases params with
  | nil => exact takes_atSymbol ⟨_, rfl, rfl⟩ (hrest [] rfl)
  | cons param params =>
    obtain ⟨v, hv⟩ := commaJoined_cons [param.token] (params.map fun param => [param.token])
    have hopen : Avoids (isSymbol .rightParen) (parameterTokens (param :: params)) := by
      rw [parameterTokens, List.map_cons, hv]
      exact avoids_cons rfl
    have hne : parameterTokens (param :: params) ≠ [] := by
      rw [parameterTokens, List.map_cons, hv]
      simp
    refine takes_atSymbol_avoids ?_ ?_
    · exact (hopen.append hne).append (List.append_ne_nil_of_left_ne_nil hne _)
    · refine Takes.use (takes_parameters (avoids_cons rfl) (by simp) hparams ?_) hrest
      show _ ≤ budget + 1
      omega

/-- A function is read again with its parameters and its body. -/
theorem echoes_function (h : inner.Echoing) (callable : Callable) :
    Parses loop (function inner callable) EchoesFunction := by
  have hrest : ∀ params : List Name, Parses loop (do
      let _ ← expect .parametersClose
      let _ ← expect (.bodyOpen callable)
      let body ← withLoopDepth (fun _ => 0) (block inner)
      return Function.mk params body) fun v f => ∀ u, Mirrors u (parameterTokens params) →
        Numbered (fun count _ => count < maxArity) 0 params →
          ∀ t, Derives loop (.symbol .leftParen) t → EchoesFunction (t ++ (u ++ v)) f := by
    intro params
    have hbody : Parses false (block inner) (EchoesBlock false) := echoes_block h
    refine (yields_expect .parametersClose).use fun _ => ?_
    refine (yields_expect (.bodyOpen callable)).use fun _ => ?_
    refine (parses_withLoopDepth hbody fun _ _ => by simp).use fun body => parses_pure ?_
    rintro v ⟨hv, hagain⟩ b hb c hc u hu hparams t ht
    rw [List.append_nil]
    refine ⟨?_, fun loop callable budget r hbudget => ?_⟩
    · exact (mirrors_of_symbol ht).append
        (hu.append ((mirrors_of_symbol hc).append ((mirrors_of_symbol hb).append hv)))
    · exact takes_function_tokens r hparams hagain hbudget
  refine (yields_expect (.parametersOpen callable)).use fun _ => ?_
  refine (parses_atSymbol _).skip fun _ => parses_ite (fun _ => ?_) fun _ => ?_
  · refine (hrest []).mono fun v f hf t ht => ?_
    exact hf [] mirrors_nil trivial t ht
  · refine (parses_commaSeparated_mirrors parses_parameter_mirrors _ 0).use fun params => ?_
    refine (hrest params).mono ?_
    rintro v f hf u ⟨hu, _, hparams⟩ t ht
    exact hf u hu hparams t ht

/-- A function with its name is read again. -/
def RereadsNamed (f : NamedFunction) : Prop :=
  ∀ loop callable budget r, f.tokens.length ≤ budget →
    Takes loop (namedFunction (.within budget) callable) f.tokens r fun f' => f'.bare = f.bare

theorem echoes_namedFunction (h : inner.Echoing) (callable : Callable) :
    Parses loop (namedFunction inner callable) fun w f => Mirrors w f.tokens ∧ RereadsNamed f := by
  refine (parses_expectName _).use fun name => (echoes_function h callable).use fun f => ?_
  refine parses_pure fun v hv w hw => ?_
  rw [List.append_nil]
  refine ⟨hw.append hv.mirrors, fun loop callable budget r hbudget => ?_⟩
  have hlength : f.tokens.length ≤ budget := by
    simp only [NamedFunction.tokens, List.length_cons] at hbudget
    omega
  refine Takes.use (takes_expectName_token name _) fun name' hname => ?_
  refine (hv.again loop callable budget r hlength).last fun f' hf => takes_pure ?_
  rw [NamedFunction.bare, NamedFunction.bare, hname, hf]

/-! ## Operands -/

/-- An operand that begins like one. -/
def EchoesOperand (level : Nat) (rule : Rules → Rule Expr) (w : List Token) (e : Expr) : Prop :=
  Echoes level rule w e ∧ Begins operandTerminals e.tokens

/-- A literal is written as one token that is the same literal. -/
theorem parsesAt_literal_echoes {t : Token} (l : Literal) (h : l.token.meaning = t.meaning) :
    ParsesAt loop t (do
      advance
      return Expr.literal l) (EchoesOperand 0 primary) := by
  have hne : t.kind ≠ .eof := by
    intro heof
    rw [Token.meaning.eq_def t, heof] at h
    rcases l with _ | _ | ⟨_ | _⟩ | _ <;> cases h
  refine (parsesAt_advance hne).use fun _ => parses_pure fun w hw => ?_
  rw [hw]
  refine ⟨⟨mirrors_of_meaning h, fun loop budget r _ _ => ?_⟩, (opens_literal l).begins⟩
  refine takes_peek_cons ?_
  rcases l with _ | _ | ⟨_ | _⟩ | _ <;> exact takes_advance fun _ => takes_pure rfl

theorem echoes_lambda {t : Token} (hkind : t.kind = .keyword .funWord) {v : List Token}
    {f : Function} (hf : EchoesFunction v f) :
    EchoesOperand 0 primary ([t] ++ v) (.lambda t.line f) := by
  refine ⟨⟨?_, fun loop budget r hbudget _ => ?_⟩, (opens_lambda f).begins⟩
  · exact (mirrors_of_keyword hkind).append hf.mirrors
  have hlength : f.tokens.length ≤ budget := Nat.le_of_succ_le hbudget
  refine takes_peek_cons (takes_advance fun _ => ?_)
  refine (hf.again loop .function budget r hlength).last fun f' hf' => takes_pure ?_
  simp only [Expr.bare, hf']

theorem echoes_grouping {u v w : List Token} (hu : Derives loop (.symbol .leftParen) u) {e : Expr}
    (he : Echoes 10 expression v e) (hw : Derives loop (.symbol .rightParen) w) :
    EchoesOperand 0 primary (u ++ (v ++ w)) (.grouping e) := by
  refine ⟨⟨?_, fun loop budget r hbudget _ => ?_⟩, ?_⟩
  · exact (mirrors_of_symbol hu).append (he.mirrors.append (mirrors_of_symbol hw))
  · have hlength : e.tokens.length < budget := by
      simp only [Expr.tokens, List.length_cons, List.length_append, List.length_nil] at hbudget
      omega
    refine takes_peek_cons (takes_advance fun _ => ?_)
    refine Takes.use (he.again.takes hlength (ends_cons (by decide))) fun e' he' => ?_
    refine (takes_expect_token .groupClose r).last fun _ _ => takes_pure ?_
    rw [Expr.bare, Expr.bare, he']
  · rintro t ht
    obtain rfl := Option.some.inj ht
    exact ⟨.symbol .leftParen, by decide, rfl⟩

theorem echoes_primary (h : inner.Echoing) :
    Parses loop (primary inner) (EchoesOperand 0 primary) := by
  refine parses_peek fun t => ?_
  split
  · next hkind =>
    refine (parsesAt_advance (by simp [hkind])).use fun _ => ?_
    refine (echoes_function h .function).use fun f => parses_pure fun v hv w hw => ?_
    rw [hw, List.append_nil]
    exact echoes_lambda hkind hv
  · next hkind => exact parsesAt_literal_echoes _ (by rw [Token.meaning.eq_def t, hkind]; rfl)
  · next hkind => exact parsesAt_literal_echoes _ (by rw [Token.meaning.eq_def t, hkind]; rfl)
  · next hkind => exact parsesAt_literal_echoes _ (by rw [Token.meaning.eq_def t, hkind]; rfl)
  · next hkind => exact parsesAt_literal_echoes _ (by rw [Token.meaning.eq_def t, hkind]; rfl)
  · next hkind => exact parsesAt_literal_echoes _ (by rw [Token.meaning.eq_def t, hkind]; rfl)
  · next hkind =>
    refine (parsesAt_advance (by simp [hkind])).use fun _ => parses_freshId.use fun id => ?_
    refine parses_pure fun v hv w hw => ?_
    rw [hw, hv]
    refine ⟨⟨mirrors_of_keyword hkind, fun loop budget r _ _ => ?_⟩, ?_⟩
    · refine takes_peek_cons (takes_advance fun _ => takesUp_freshId.skip fun _ _ => ?_)
      exact takes_pure rfl
    · exact (opens_single (k := .word .thisWord) rfl (by decide) (by decide)).begins
  · next hkind =>
    refine (parsesAt_advance (by simp [hkind])).use fun _ => ?_
    refine (yields_expect .superDot).use fun _ => ?_
    refine (parses_expectName _).use fun n => parses_freshId.use fun id => parses_pure ?_
    intro v hv w hw u hu s hs
    rw [hs, hv, List.append_nil, List.append_nil]
    refine ⟨⟨?_, fun loop budget r _ _ => ?_⟩, ?_⟩
    · exact (mirrors_of_keyword hkind).append ((mirrors_of_symbol hu).append hw)
    · refine takes_peek_cons (takes_advance fun _ => ?_)
      refine Takes.use (takes_expect_token .superDot _) fun _ _ => ?_
      refine (takes_expectName_token n r).last fun n' hn' => ?_
      refine takesUp_freshId.skip fun _ _ => takes_pure ?_
      rw [Expr.bare, Expr.bare, hn']
    · rintro t' ht'
      obtain rfl := Option.some.inj ht'
      exact ⟨.word .superWord, by decide, rfl⟩
  · next name hkind =>
    refine (parsesAt_advance (by simp [hkind])).use fun _ => parses_freshId.use fun id => ?_
    refine parses_pure fun v hv w hw => ?_
    rw [hw, hv]
    refine ⟨⟨mirrors_of_meaning ?_, fun loop budget r _ _ => ?_⟩, (opens_name _).begins⟩
    · simp [Token.meaning, Name.token, hkind]
    · refine takes_peek_cons (takes_advance fun _ => takesUp_freshId.skip fun _ _ => ?_)
      exact takes_pure rfl
  · next hkind =>
    refine (parsesAt_advance (by simp [hkind])).use fun _ => h.expression.use fun e => ?_
    refine (yields_expect .groupClose).use fun _ => parses_pure fun v hv w hw u hu => ?_
    rw [hu, List.append_nil]
    exact echoes_grouping (.symbol hkind) hw hv
  · exact parses_failHere t

/-! ## Calls and properties -/

theorem parses_argument_echoes (h : inner.Echoing) (count : Nat) :
    Parses loop (argument inner count) fun w e => Echoes 9 assignment w e ∧ count < maxArity := by
  refine (parses_checkArity _ _).use fun _ => (h loop .assignment).mono ?_
  rintro v e he u ⟨rfl, hcount⟩
  exact ⟨he, hcount⟩

/-- Arguments of a call, as far as they are read again. -/
abbrev RereadArguments : List Expr → Prop :=
  Numbered (fun count e => count < maxArity ∧ Rereads 9 assignment e) 0

theorem takes_arguments_tokens {args : List Expr} {budget : Nat} (r : List Token)
    (hargs : RereadArguments args) (hbudget : (commaJoined (argumentTokens args)).length < budget) :
    Takes loop (arguments (.within budget))
      (commaJoined (argumentTokens args) ++ [Symbol.rightParen.token]) r
      fun found => bareArguments found.1 = bareArguments args := by
  have hrest : ∀ args' : List Expr, args'.map Expr.bare = args.map Expr.bare →
      Takes loop (do
        let line ← expect .argumentsClose
        return (args', line)) [Symbol.rightParen.token] r
        fun found => bareArguments found.1 = bareArguments args := by
    intro args' hargs'
    refine (takes_expect_token .argumentsClose r).last fun line _ => takes_pure ?_
    rw [bareArguments_eq_map, bareArguments_eq_map, hargs']
  rw [argumentTokens_eq_map] at hbudget ⊢
  cases args with
  | nil => exact takes_atSymbol ⟨_, rfl, rfl⟩ (hrest [] rfl)
  | cons e args =>
    have hopens : Avoids (isSymbol .rightParen) (commaJoined ((e :: args).map Expr.tokens)) ∧
        commaJoined ((e :: args).map Expr.tokens) ≠ [] := by
      obtain ⟨v, hv⟩ := commaJoined_cons e.tokens (args.map Expr.tokens)
      have hopens := e.opens_tokens.append v
      rw [List.map_cons, hv]
      exact ⟨fun t ht => hopens.begins.isSymbol ht (by decide), hopens.filled⟩
    refine takes_atSymbol_avoids ?_ ?_
    · exact (hopens.1.append hopens.2).append (List.append_ne_nil_of_left_ne_nil hopens.2 _)
    · refine Takes.use (takes_commaJoined Expr.bare (Ends 9) (fun _ => ends_cons (by decide))
        (ends_cons (by decide)) (avoids_cons rfl) (by simp) ?_ ?_) hrest
      · have hcount := length_commaJoined ((e :: args).map Expr.tokens) fun item hitem => by
          obtain ⟨e, _, rfl⟩ := List.mem_map.mp hitem
          exact e.opens_tokens.filled
        rw [List.length_map] at hcount
        show _ ≤ budget + 1
        omega
      · refine hargs.mono ?_
        rintro count e he ⟨hroom, hagain⟩ r hr
        have hlength := length_le_commaJoined (List.mem_map_of_mem (f := Expr.tokens) he)
        refine (takesUp_checkArity hroom).skip fun _ _ => ?_
        exact takes_read (by omega) fun _ hle => hagain loop _ r hle hr

/-- The arguments of a call, behind the opening parenthesis. -/
theorem parses_arguments_echoes (h : inner.Echoing) :
    Parses loop (arguments inner) fun w found =>
      Mirrors w (commaJoined (argumentTokens found.1) ++ [Symbol.rightParen.token]) ∧
        RereadArguments found.1 := by
  have hitem : ∀ count, Parses loop (argument inner count) fun w e =>
      Mirrors w e.tokens ∧ count < maxArity ∧ Rereads 9 assignment e :=
    fun count => (parses_argument_echoes h count).mono
      fun w e he => ⟨he.1.mirrors, he.2, he.1.again⟩
  have hclose : ∀ args : List Expr, Parses loop (do
      let line ← expect .argumentsClose
      return (args, line)) fun w found => Mirrors w [Symbol.rightParen.token] ∧ found.1 = args :=
    fun args => (yields_expect .argumentsClose).use fun line => parses_pure fun w hw =>
      ⟨(List.append_nil w).symm ▸ mirrors_of_symbol hw, rfl⟩
  refine (parses_atSymbol _).skip fun _ => parses_ite (fun _ => ?_) fun _ => ?_
  · refine (hclose []).mono ?_
    rintro w ⟨args, line⟩ ⟨hw, rfl⟩
    exact ⟨hw, trivial⟩
  · refine (parses_commaSeparated_mirrors hitem inner.bound 0).use fun args => ?_
    refine (hclose args).mono ?_
    rintro v ⟨args, line⟩ ⟨hv, rfl⟩ w ⟨hw, _, hargs⟩
    rw [argumentTokens_eq_map]
    exact ⟨hw.append hv, hargs⟩

/-! ## Behind an operand -/

/-- What makes another expression with an operand that stands before it: it is read again behind
every operand that is the same. -/
structure Extends (level : Nat) (step : Rules → Nat → Expr → Rule Expr) (e : Expr)
    (w : List Token) (whole : Expr) (v : List Token) : Prop where
  tokens : whole.tokens = e.tokens ++ v
  mirrors : Mirrors w v
  ends : ∀ r, Ends (level + 1) r → Ends level (v ++ r)
  again : ∀ loop budget most e' r, v.length ≤ budget → v.length < most → Ends (level + 1) r →
    e'.bare = e.bare →
      Takes loop (step (.within budget) most e') v r fun whole' => whole'.bare = whole.bare

variable {step : Rules → Nat → Expr → Rule Expr} {e whole : Expr} {u v w x : List Token}

theorem extends_nil (h : ∀ loop budget most e r, Ends (level + 1) r →
    Takes loop (step (.within budget) (most + 1) e) [] r (· = e)) :
    Extends level step e [] e [] where
  tokens := (List.append_nil _).symm
  mirrors := mirrors_nil
  ends _ hr := hr.mono (Nat.le_succ level)
  again loop budget most e' r _ hmost hr he' := by
    obtain ⟨most, rfl⟩ := Nat.exists_eq_add_one.mpr hmost
    exact (h loop budget most e' r hr).mono fun whole' hsame => hsame ▸ he'

/-- One more part between the operand and the rest. -/
theorem Extends.behind {e₁ : Expr} (h : Extends level step e₁ w whole v)
    (tokens : e₁.tokens = e.tokens ++ x) (mirrors : Mirrors u x) (filled : x ≠ [])
    (ends : ∀ r, Ends level (x ++ r))
    (again : ∀ loop budget most e' r {good : Expr → Prop}, x.length ≤ budget → Ends level (v ++ r) →
      e'.bare = e.bare → (∀ e₁', e₁'.bare = e₁.bare →
        Takes loop (step (.within budget) most e₁') v r good) →
      Takes loop (step (.within budget) (most + 1) e') (x ++ v) r good) :
    Extends level step e (u ++ w) whole (x ++ v) where
  tokens := by rw [h.tokens, tokens, List.append_assoc]
  mirrors := mirrors.append h.mirrors
  ends r _ := by
    rw [List.append_assoc]
    exact ends _
  again loop budget most e' r hbudget hmost hr he' := by
    have hpositive := List.length_pos_iff.mpr filled
    rw [List.length_append] at hbudget hmost
    obtain ⟨most, rfl⟩ := Nat.exists_eq_add_one.mpr (Nat.zero_lt_of_lt hmost)
    refine again loop budget most e' r (by omega) (h.ends r hr) he' fun e₁' he₁' => ?_
    exact h.again loop budget most e₁' r (by omega) (by omega) hr he₁'

/-- An operand with what stands behind it. -/
theorem Extends.echoes {operand : Rules → Rule Expr} (h : Extends level step e w whole v)
    (he : Echoes level operand u e) :
    Echoes (level + 1) (fun rules => operand rules >>= step rules rules.bound) (u ++ w) whole where
  mirrors := by
    rw [h.tokens]
    exact he.mirrors.append h.mirrors
  again loop budget r hbudget hr := by
    rw [h.tokens, List.length_append] at hbudget
    rw [h.tokens]
    refine Takes.use (he.again loop budget _ (by omega) (h.ends r hr)) fun e' he' => ?_
    refine h.again loop budget _ e' r (by omega) ?_ hr he'
    show v.length < budget + 1
    omega

theorem ends_zero (r : List Token) : Ends 0 r := by
  intro t _
  unfold strength
  split <;> omega

theorem extends_call {args : List Expr} {line : Nat} (hargs : RereadArguments args)
    (hu : Mirrors u (Symbol.leftParen.token ::
      (commaJoined (argumentTokens args) ++ [Symbol.rightParen.token])))
    (h : Extends 0 suffixes (.call e args line) w whole v) :
    ∃ v, Extends 0 suffixes e (u ++ w) whole v := by
  refine ⟨_, h.behind rfl hu (by simp) (fun _ => ends_zero _) ?_⟩
  intro loop budget most e' r good hbudget _ he' hrest
  have hlength : (commaJoined (argumentTokens args)).length < budget := by
    simp only [List.length_cons, List.length_append, List.length_nil] at hbudget
    omega
  refine takes_peek_cons (takes_advance fun _ => ?_)
  refine Takes.use (takes_arguments_tokens _ hargs hlength) fun found hfound => hrest _ ?_
  rw [Expr.bare, Expr.bare, he', hfound]

theorem extends_get {name : Name} (hu : Mirrors u [Symbol.dot.token, name.token])
    (h : Extends 0 suffixes (.get e name) w whole v) :
    ∃ v, Extends 0 suffixes e (u ++ w) whole v := by
  refine ⟨_, h.behind rfl hu (by simp) (fun _ => ends_zero _) ?_⟩
  intro loop budget most e' r good _ _ he' hrest
  refine takes_peek_cons (takes_advance fun _ => ?_)
  refine Takes.use (takes_expectName_token name _) fun name' hname => hrest _ ?_
  rw [Expr.bare, Expr.bare, he', hname]

/-- Calls and property accesses are read again in their order. -/
theorem extends_suffixes (h : inner.Echoing) (bound : Nat) (e : Expr) :
    Parses loop (suffixes inner bound e) fun w whole => ∃ v, Extends 0 suffixes e w whole v := by
  have hstop : ∀ e, Extends 0 suffixes e [] e [] := fun e =>
    extends_nil fun loop budget most e r hr => takes_suffixes_end (Nat.succ_pos most) hr
  induction bound generalizing e with
  | zero => exact parses_pure ⟨[], hstop e⟩
  | succ bound ih =>
    refine parses_peek fun t => ?_
    split
    · next hkind =>
      refine (parsesAt_advance (by simp [hkind])).use fun _ => ?_
      refine (parses_arguments_echoes h).use fun found => (ih (.call e found.1 found.2)).mono ?_
      rintro w whole ⟨v, hv⟩ u ⟨hu, hargs⟩ p rfl
      have hparen : Derives loop (.symbol .leftParen) [t] := .symbol hkind
      rw [← List.append_assoc]
      exact extends_call hargs ((mirrors_of_symbol hparen).append hu) hv
    · next hkind =>
      refine (parsesAt_advance (by simp [hkind])).use fun _ => ?_
      refine (parses_expectName _).use fun name => (ih (.get e name)).mono ?_
      rintro w whole ⟨v, hv⟩ u hu p rfl
      have hdot : Derives loop (.symbol .dot) [t] := .symbol hkind
      rw [← List.append_assoc]
      exact extends_get ((mirrors_of_symbol hdot).append hu) hv
    · exact parses_pure ⟨[], hstop e⟩ t

theorem echoes_call (h : inner.Echoing) : Parses loop (call inner) (EchoesOperand 1 call) := by
  refine (echoes_primary h).use fun e => (extends_suffixes h inner.bound e).mono ?_
  rintro w whole ⟨v, hv⟩ u ⟨he, hbegins⟩
  refine ⟨hv.echoes he, ?_⟩
  rw [hv.tokens]
  obtain ⟨t, rest, hopen⟩ := List.exists_cons_of_ne_nil e.opens_tokens.filled
  rw [hopen] at hbegins ⊢
  exact hbegins

theorem kind_of_unaryOp {t : Token} {op : UnaryOp} (h : unaryOp? t = some op) :
    t.kind = .symbol op.symbol := by
  unfold unaryOp? at h
  split at h <;> cases h <;> assumption

theorem echoes_unary (h : inner.Echoing) : Parses loop (unary inner) (Echoes 1 unary) := by
  refine parses_peek fun t => ?_
  split
  · next op hop =>
    have hkind := kind_of_unaryOp hop
    refine (parsesAt_advance (by simp [hkind])).use fun _ => (h loop .unary).use fun e => ?_
    refine parses_pure fun v (hv : Echoes 1 unary v e) w hw => ?_
    have hsign : Derives loop (.symbol op.symbol) [t] := .symbol hkind
    rw [hw, List.append_nil]
    refine ⟨(mirrors_of_symbol hsign).append hv.mirrors, fun loop budget r hbudget hr => ?_⟩
    have hsame : unaryOp? op.symbol.token = some op := by cases op <;> rfl
    refine takes_peek_cons ?_
    rw [hsame]
    have hinner : Takes loop ((Rules.within budget).read .unary) e.tokens r
        fun e' => e'.bare = e.bare :=
      takes_read hbudget fun _ hle => hv.again loop _ r hle hr
    refine takes_advance fun _ => hinner.last fun e' he' => takes_pure ?_
    rw [Expr.bare, Expr.bare, he']
  · refine (echoes_call h).mono ?_ t
    rintro w e ⟨he, hbegins⟩
    refine ⟨he.mirrors, fun loop budget r hbudget hr => ?_⟩
    exact takes_unary hbegins e.opens_tokens.filled (he.again loop budget r hbudget hr)

/-! ## Operators -/

/-- How the operators of a level are recognized, written and make one expression of two. -/
structure Joins {ω : Type} (level : Nat) (operator? : Token → Option ω) (sign : ω → Token)
    (build : Expr → ω → Nat → Expr → Expr) : Prop where
  mirrors : ∀ {t op}, operator? t = some op → Mirrors [t] [sign op]
  stable : ∀ {t op}, operator? t = some op →
    operator? (sign op) = some op ∧ level < strength (sign op)
  ends : ∀ {t}, level + 1 < strength t → operator? t = none
  tokens : ∀ left op line right,
    (build left op line right).tokens = left.tokens ++ sign op :: right.tokens
  bare : ∀ {left left' op right right'} line line', left'.bare = left.bare →
    right'.bare = right.bare →
      (build left' op line' right').bare = (build left op line right).bare

theorem extends_leftNested {ω : Type} {operator? : Token → Option ω} {sign : ω → Token}
    {build : Expr → ω → Nat → Expr → Expr} {operand : Rules → Rule Expr}
    (joins : Joins level operator? sign build) (hlevel : level ≤ 9)
    (h : Parses loop (operand inner) (Echoes level operand)) (bound : Nat) (e : Expr) :
    Parses loop (leftNested operator? (operand inner) build bound e) fun w whole =>
      ∃ v, Extends level (fun rules => leftNested operator? (operand rules) build) e w whole v := by
  have hstop : ∀ e,
      Extends level (fun rules => leftNested operator? (operand rules) build) e [] e [] :=
    fun e => extends_nil fun loop budget most e r hr => takes_peek_ends hr (by omega) fun t ht => by
      rw [joins.ends ht]
      exact takes_pure rfl
  induction bound generalizing e with
  | zero => exact parses_pure ⟨[], hstop e⟩
  | succ bound ih =>
    refine parses_peek fun t => ?_
    split
    · exact parses_pure ⟨[], hstop e⟩ t
    · next op hop =>
      obtain ⟨hsame, hstrength⟩ := joins.stable hop
      have hne : t.kind ≠ .eof := by
        intro heof
        rw [joins.ends (by simp only [strength, heof]; omega)] at hop
        cases hop
      refine (parsesAt_advance hne).use fun _ => h.use fun right => (ih _).mono ?_
      rintro w whole ⟨v, hv⟩ u hu p rfl
      rw [← List.append_assoc]
      -- The operand in front may be any that comes to the same tree; it goes on with the same
      -- operator.
      refine ⟨_, hv.behind (joins.tokens ..) ((joins.mirrors hop).append hu.mirrors) (by simp)
        (fun r => ends_cons hstrength) ?_⟩
      intro loop budget most e' r good hbudget hr he' hrest
      have hlength : right.tokens.length ≤ budget := Nat.le_of_succ_le hbudget
      refine takes_peek_cons ?_
      rw [hsame]
      refine takes_advance fun _ => ?_
      refine Takes.use (hu.again loop budget _ hlength hr) fun right' hright => ?_
      exact hrest _ (joins.bare _ _ he' hright)

theorem echoes_joined {ω : Type} {operator? : Token → Option ω} {sign : ω → Token}
    {build : Expr → ω → Nat → Expr → Expr} {operand : Rules → Rule Expr}
    (joins : Joins level operator? sign build) (hlevel : level ≤ 9)
    (h : Parses loop (operand inner) (Echoes level operand)) :
    Parses loop (operand inner >>= leftNested operator? (operand inner) build inner.bound)
      (Echoes (level + 1) fun rules =>
        operand rules >>= leftNested operator? (operand rules) build rules.bound) := by
  refine h.use fun e => (extends_leftNested joins hlevel h inner.bound e).mono ?_
  rintro w whole ⟨v, hv⟩ u he
  exact hv.echoes he

theorem kind_of_operator {l : Level} {t : Token} {op : BinaryOp} (h : l.operator? t = some op) :
    t.kind = .symbol op.symbol := by
  unfold Level.operator? at h
  split at h <;> cases h <;> assumption

theorem operator?_token {l : Level} {t : Token} {op : BinaryOp} (h : l.operator? t = some op) :
    l.operator? op.symbol.token = some op := by
  rw [← h]
  unfold Level.operator?
  rw [kind_of_operator h]
  rfl

theorem joins_binary (l : Level) (hlevel : l.strength = level + 1) :
    Joins level l.operator? (fun op => op.symbol.token) .binary where
  mirrors hop := mirrors_of_meaning (by simp [Token.meaning, Symbol.token, kind_of_operator hop])
  stable hop := by
    refine ⟨operator?_token hop, ?_⟩
    rw [strength_of_operator (operator?_token hop)]
    omega
  ends := by
    intro t ht
    cases hop : l.operator? t with
    | none => rfl
    | some op =>
      have := strength_of_operator hop
      omega
  tokens _ _ _ _ := rfl
  bare _ _ hleft hright := by rw [Expr.bare, Expr.bare, hleft, hright]

theorem joins_logical (op : LogicalOp)
    (hlevel : ∀ line, strength ⟨.keyword op.keyword, line⟩ = level + 1) :
    Joins level (logicalOp? op) (fun op => op.keyword.token) .logical where
  mirrors := by
    intro t op' hop
    unfold logicalOp? at hop
    split at hop
    · next hword => cases hop; exact mirrors_of_keyword (kind_of_isWord hword)
    · cases hop
  stable := by
    intro t op' hop
    unfold logicalOp? at hop
    split at hop
    · cases hop
      refine ⟨if_pos (isWord_of_kind rfl), ?_⟩
      rw [Keyword.token, hlevel]
      omega
    · cases hop
  ends := by
    intro t ht
    refine if_neg fun hword => ?_
    obtain ⟨kind, line⟩ := t
    obtain rfl := kind_of_isWord hword
    rw [hlevel] at ht
    omega
  tokens _ _ _ _ := rfl
  bare _ _ hleft hright := by rw [Expr.bare, Expr.bare, hleft, hright]

theorem joins_comma : Joins 9 comma? (fun op => op.symbol.token) .binary where
  mirrors := by
    intro t op hop
    unfold comma? at hop
    split at hop
    · next hsymbol =>
      cases hop
      exact mirrors_of_meaning (by
        simp [Token.meaning, Symbol.token, kind_of_isSymbol hsymbol, BinaryOp.symbol])
    · cases hop
  stable := by
    intro t op hop
    unfold comma? at hop
    split at hop
    · cases hop
      exact ⟨rfl, by decide⟩
    · cases hop
  ends := by
    intro t ht
    refine if_neg fun hsymbol => ?_
    simp [strength, kind_of_isSymbol hsymbol] at ht
  tokens _ _ _ _ := rfl
  bare _ _ hleft hright := by rw [Expr.bare, Expr.bare, hleft, hright]

/-- A level of operators that both look at and skip no operator in front. -/
theorem echoes_binary {l : Level} {operand : Rules → Rule Expr} (hlevel : l.strength = level + 1)
    (h : Parses loop (operand inner) (Echoes level operand)) :
    Parses loop (binary l inner.bound (operand inner))
      (Echoes (level + 1) fun rules => binary l rules.bound (operand rules)) := by
  have hstrong : level ≤ 9 := by
    have : l.strength ≤ 5 := by cases l <;> decide
    omega
  refine parses_peek fun t => ?_
  split
  · next hop =>
    cases hoperator : l.operator? t with
    | none => simp [hoperator] at hop
    | some op =>
      refine (parsesAt_advance (by simp [kind_of_operator hoperator])).use fun _ => ?_
      exact h.use fun _ => parses_throw
  · refine (echoes_joined (joins_binary l hlevel) hstrong h).mono ?_ t
    intro w e he
    refine ⟨he.mirrors, fun loop budget r hbudget hr => ?_⟩
    refine takes_binary e.opens_tokens.begins e.opens_tokens.filled ?_
    exact he.again loop budget r hbudget hr

theorem echoes_either (h : inner.Echoing) : Parses loop (either inner) (Echoes 7 either) := by
  have hfactor : Parses loop (factor inner) (Echoes 2 factor) := echoes_binary rfl (echoes_unary h)
  have hterm : Parses loop (term inner) (Echoes 3 term) := echoes_binary rfl hfactor
  have hcomparison : Parses loop (comparison inner) (Echoes 4 comparison) := echoes_binary rfl hterm
  have hequality : Parses loop (equality inner) (Echoes 5 equality) := echoes_binary rfl hcomparison
  have hboth : Parses loop (both inner) (Echoes 6 both) :=
    echoes_joined (joins_logical .both fun _ => rfl) (by decide) hequality
  exact echoes_joined (joins_logical .either fun _ => rfl) (by decide) hboth

theorem echoes_conditional (h : inner.Echoing) :
    Parses loop (conditional inner) (Echoes 8 conditional) := by
  refine (echoes_either h).use fun condition => parses_ifAccept .questionMark ?_ ?_
  · refine h.expression.use fun first => (yields_expect .conditionalMiddle).use fun _ => ?_
    refine (h loop .conditional).use fun second => parses_pure ?_
    intro x (hx : Echoes 8 conditional x second) v hv u hu q hq w hw
    rw [List.append_nil]
    refine ⟨?_, fun loop budget r hbudget hr => ?_⟩
    · exact hw.mirrors.append ((mirrors_of_symbol hq).append
        (hu.mirrors.append ((mirrors_of_symbol hv).append hx.mirrors)))
    simp only [Expr.tokens, List.length_append, List.length_cons] at hbudget
    refine Takes.use (hw.again loop budget _ (by omega) (ends_cons (by decide)))
      fun condition' hcondition => ?_
    refine takes_accept (v := [Symbol.questionMark.token]) (.symbol rfl) ?_
    refine Takes.use (hu.again.takes (by omega) (ends_cons (by decide))) fun first' hfirst => ?_
    refine Takes.use (takes_expect_token .conditionalMiddle _) fun _ _ => ?_
    have hsecond : Takes loop ((Rules.within budget).read .conditional) second.tokens r
        fun second' => second'.bare = second.bare :=
      takes_read (by omega) fun _ hle => hx.again loop _ r hle hr
    refine hsecond.last fun second' hsecond => takes_pure ?_
    rw [Expr.bare, Expr.bare, hcondition, hfirst, hsecond]
  · refine parses_pure fun w hw => ?_
    rw [List.append_nil]
    refine ⟨hw.mirrors, fun loop budget r hbudget hr => ?_⟩
    refine (hw.again loop budget r hbudget (hr.mono (by decide))).last fun e he => ?_
    exact takes_accept_avoids (avoids_of_ends hr (by decide)) (takes_pure he)

/-! ## Assignments -/

/-- What an assignment makes of its target and its value. -/
inductive Assigns (value : Expr) : Expr → Expr → Prop
  | name (ref : Reference) (id : RefId) :
    Assigns value (.variable ref) (.assign ⟨id, ref.name⟩ value)
  | property (object : Expr) (name : Name) :
    Assigns value (.get object name) (.set object name value)

theorem parses_assignTo_assigns (target value : Expr) (equals : Token) :
    Parses loop (assignTo target equals value) fun w e => w = [] ∧ Assigns value target e := by
  unfold assignTo
  split
  · refine parses_freshId.use fun id => parses_pure ?_
    rintro w rfl
    exact ⟨rfl, .name _ id⟩
  · exact parses_pure ⟨rfl, .property _ _⟩
  · have hnote : Parses loop (note ⟨equals, .invalidTarget⟩) fun _ _ => False := parses_note
    exact hnote.use fun _ => parses_pure fun _ hw => hw.elim

theorem Assigns.tokens {value target e : Expr} (h : Assigns value target e) :
    e.tokens = target.tokens ++ Symbol.equal.token :: value.tokens := by
  cases h with
  | name ref id => rfl
  | property object name => simp [Expr.tokens]

/-- A target without its references and lines is one of the same kind. -/
theorem Assigns.takes {value target e value' target' : Expr} (h : Assigns value target e)
    (hvalue : value'.bare = value.bare) (htarget : target'.bare = target.bare) (equals : Token)
    (r : List Token) :
    Takes loop (assignTo target' equals value') [] r fun e' => e'.bare = e.bare := by
  cases h with
  | name ref id =>
    cases target' <;> simp only [Expr.bare, reduceCtorEq, Expr.variable.injEq] at htarget
    next ref' =>
      refine takesUp_freshId.skip fun id' _ => takes_pure ?_
      simp only [Reference.bare, Reference.mk.injEq, true_and] at htarget
      simp only [Expr.bare, Reference.bare, htarget, hvalue]
  | property object name =>
    cases target' <;> simp only [Expr.bare, reduceCtorEq, Expr.get.injEq] at htarget
    next object' name' =>
      refine takes_pure ?_
      simp only [Expr.bare, htarget, hvalue]

theorem echoes_assignment (h : inner.Echoing) :
    Parses loop (assignment inner) (Echoes 9 assignment) := by
  refine (echoes_conditional h).use fun target => parses_peek fun t => ?_
  split
  · next hequal =>
    have hkind := kind_of_isSymbol hequal
    refine (parsesAt_advance (by simp [hkind])).use fun _ => ?_
    refine (h loop .assignment).use fun value => ?_
    refine (parses_assignTo_assigns target value t).mono ?_
    rintro _ e ⟨rfl, he⟩ v (hv : Echoes 9 assignment v value) q rfl w hw
    have hsign : Derives loop (.symbol .equal) [t] := .symbol hkind
    rw [List.append_nil]
    refine ⟨?_, fun loop budget r hbudget hr => ?_⟩
    · rw [he.tokens]
      exact hw.mirrors.append ((mirrors_of_symbol hsign).append hv.mirrors)
    rw [he.tokens] at hbudget ⊢
    simp only [List.length_append, List.length_cons] at hbudget
    refine Takes.use (hw.again loop budget _ (by omega) (ends_cons (by decide)))
      fun target' htarget => takes_peek_cons ?_
    rw [if_pos (isSymbol_of_kind rfl)]
    have hvalue : Takes loop ((Rules.within budget).read .assignment) value.tokens r
        fun value' => value'.bare = value.bare :=
      takes_read (by omega) fun _ hle => hv.again loop _ r hle hr
    exact takes_advance fun _ => hvalue.last fun value' hvalue => he.takes hvalue htarget _ r
  · refine parses_pure (fun w hw => ?_) t
    rw [List.append_nil]
    refine ⟨hw.mirrors, fun loop budget r hbudget hr => ?_⟩
    refine (hw.again loop budget r hbudget (hr.mono (by decide))).last fun e he => ?_
    -- Without a sign it is a conditional, behind which none follows when it is read again.
    have havoids : Avoids (isSymbol .equal) r := avoids_of_ends hr (by decide)
    refine takes_peek_avoids havoids isSymbol_eof fun t ht => ?_
    rw [if_neg (by simp [ht])]
    exact takes_pure he

theorem echoes_expression (h : inner.Echoing) :
    Parses loop (expression inner) (Echoes 10 expression) :=
  echoes_joined joins_comma (by decide) (echoes_assignment h)

end Grammar

end LoxLang
