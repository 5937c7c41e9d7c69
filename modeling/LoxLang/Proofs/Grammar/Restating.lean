import LoxLang.Proofs.Grammar.Echoes

/-!
# Statements and declarations that are read again

Whether a statement is read from its own tokens depends on its parts: on its expressions being
read again, and on the statements within it. A `for` loop is read again as the blocks and the
`while` loop that it stands for, the members of a class in the order in which they are written.
-/

namespace LoxLang

namespace Grammar

variable {inner : Rules} {loop : Bool} {w r : List Token}

/-! ## Statements that are read again -/

theorem opens_keyword {ks : List Terminal} (k : Keyword) (v : List Token) (hk : .word k ∈ ks)
    (hfun : k ≠ .funWord) : Opens ks (k.token :: v) :=
  (opens_single (k := .word k) rfl hk (by simpa using hfun)).append v

theorem expressionTerminals_subset : expressionTerminals ⊆ statementTerminals :=
  List.subset_append_right _ _

theorem Rereads.statement {e : Expr} (h : Rereads 10 expression e) :
    Restates loop (.expression e) where
  opens := (e.opens_tokens.append _).mono expressionTerminals_subset
  again budget r hbudget _ := by
    have hopens := e.opens_tokens.append [Symbol.semicolon.token]
    simp only [Stmt.tokens, List.length_append, List.length_cons] at hbudget
    refine takes_statement_expression hopens.begins hopens.filled ?_
    refine Takes.use (h loop budget _ (by omega) (ends_cons (by decide))) fun e' he' => ?_
    refine (takes_expect_token .expressionEnd r).last fun _ _ => takes_pure ?_
    rw [Stmt.bare_expression, Stmt.bare_expression, he']

theorem Rereads.print {e : Expr} (h : Rereads 10 expression e) : Restates loop (.print e) where
  opens := opens_keyword .printWord _ (by decide) (by decide)
  again budget r hbudget _ := by
    simp only [Stmt.tokens, List.length_append, List.length_cons] at hbudget
    refine takes_peek_cons (takes_advance fun _ => ?_)
    refine Takes.use (h.takes (by omega) (ends_cons (by decide))) fun e' he' => ?_
    refine (takes_expect_token .printEnd r).last fun _ _ => takes_pure ?_
    rw [Stmt.bare_print, Stmt.bare_print, he']

theorem restates_return {line : Nat} {value : Option Expr}
    (h : ∀ e ∈ value, Rereads 10 expression e) : Restates loop (.returnWith line value) where
  opens := by cases value <;> exact opens_keyword .returnWord _ (by decide) (by decide)
  again budget r hbudget _ := by
    cases value with
    | none =>
      have hnone : Takes loop (optionalBefore .semicolon ((Rules.within budget).read .expression))
          [] (Symbol.semicolon.token :: r) (· = none) :=
        takes_atSymbol ⟨_, rfl, rfl⟩ (takes_pure rfl)
      refine takes_peek_cons (takes_advance fun _ => hnone.skip fun value hvalue => ?_)
      refine (takes_expect_token .returnEnd r).last fun _ _ => takes_pure ?_
      rw [hvalue, Stmt.bare, Stmt.bare]
    | some e =>
      simp only [Stmt.tokens, List.length_append, List.length_cons] at hbudget
      have hsome : Takes loop (optionalBefore .semicolon ((Rules.within budget).read .expression))
          e.tokens (Symbol.semicolon.token :: r) fun value => ∃ e', value = some e' ∧
            e'.bare = e.bare := by
        have hopens := e.opens_tokens.append (Symbol.semicolon.token :: r)
        refine takes_atSymbol_avoids (fun t ht => hopens.begins.isSymbol ht (by decide)) ?_
        refine ((h e rfl).takes (by omega) (ends_cons (by decide))).last fun e' he' => ?_
        exact takes_pure ⟨e', rfl, he'⟩
      refine takes_peek_cons (takes_advance fun _ => Takes.use hsome fun value hvalue => ?_)
      obtain ⟨e', rfl, he'⟩ := hvalue
      refine (takes_expect_token .returnEnd r).last fun _ _ => takes_pure ?_
      rw [Stmt.bare, Stmt.bare, he']

theorem restates_break {line : Nat} : Restates true (.breakLoop line) where
  opens := opens_keyword .breakWord _ (by decide) (by decide)
  again budget r _ _ := by
    refine takes_peek_cons (takes_advance fun _ => takes_loopDepth fun depth hdepth => ?_)
    rw [if_neg (hdepth.mpr rfl)]
    exact (takes_expect_token .breakEnd r).last fun _ _ => takes_pure rfl

theorem restates_block {body : List Stmt} (h : ∀ s ∈ body, Redeclares loop s) :
    Restates loop (.block body) where
  opens := (opens_single (k := .symbol .leftBrace) rfl (by decide) (by decide)).append _
  again budget r hbudget _ := by
    simp only [Stmt.tokens, List.length_append, List.length_cons] at hbudget
    refine takes_peek_cons (takes_advance fun _ => ?_)
    refine (takes_block_tokens h (by omega) r).last fun body' hbody => takes_pure ?_
    rw [Stmt.bare, Stmt.bare, hbody]

/-- A statement within another one. -/
theorem Restates.takes {s : Stmt} (h : Restates loop s) {budget : Nat}
    (hbudget : s.tokens.length < budget) (hr : s.OpenEnded → NoElse r) :
    Takes loop ((Rules.within budget).read .statement) s.tokens r fun s' => s'.bare = s.bare :=
  takes_read hbudget fun budget hle => h.again budget r hle hr

theorem restates_while {e : Expr} {body : Stmt} (he : Rereads 10 expression e)
    (hbody : Restates true body) : Restates loop (.whileDo e body) where
  opens := opens_keyword .whileWord _ (by decide) (by decide)
  again budget r hbudget hr := by
    simp only [Stmt.tokens, List.length_append, List.length_cons] at hbudget
    refine takes_peek_cons (takes_advance fun _ => ?_)
    refine Takes.use (takes_expect_token .whileOpen _) fun _ _ => ?_
    refine Takes.use (he.takes (by omega) (ends_cons (by decide))) fun e' he' => ?_
    refine Takes.use (takes_expect_token .whileClose _) fun _ _ => ?_
    have hinner := hbody.takes (show _ < budget by omega) hr
    refine (takes_withLoopDepth hinner fun _ _ => by simp).last fun body' hbody => takes_pure ?_
    rw [Stmt.bare, Stmt.bare, he', hbody]

/-- What stands behind the condition of an `if`. -/
theorem takes_condition {e : Expr} (he : Rereads 10 expression e) {budget : Nat}
    (hbudget : e.tokens.length < budget) {good : Stmt → Prop}
    (h : ∀ e', e'.bare = e.bare → Takes loop (do
      let thenBranch ← (Rules.within budget).read .statement
      let elseBranch ←
        if ← acceptWord .elseWord then some <$> (Rules.within budget).read .statement
        else pure none
      return Stmt.ifThen e' thenBranch elseBranch) w r good) :
    Takes loop (ifStatement (.within budget))
      (Symbol.leftParen.token :: (e.tokens ++ Symbol.rightParen.token :: w)) r good := by
  refine Takes.use (takes_expect_token .ifOpen _) fun _ _ => ?_
  refine Takes.use (he.takes hbudget (ends_cons (by decide))) fun e' he' => ?_
  exact Takes.use (takes_expect_token .ifClose _) fun _ _ => h e' he'

theorem restates_if {e : Expr} {s : Stmt} (he : Rereads 10 expression e) (hs : Restates loop s) :
    Restates loop (.ifThen e s none) where
  opens := opens_keyword .ifWord _ (by decide) (by decide)
  again budget r hbudget hr := by
    have hnoElse : NoElse r := hr trivial
    simp only [Stmt.tokens, List.length_append, List.length_cons] at hbudget
    refine takes_peek_cons (takes_advance fun _ => takes_condition he (by omega) fun e' he' => ?_)
    refine (hs.takes (by omega) fun _ => hnoElse).last fun s' hs' => ?_
    refine takes_acceptWord_avoids hnoElse (takes_pure ?_)
    rw [Stmt.bare, Stmt.bare, he', hs']

theorem restates_ifElse {e : Expr} {s s' : Stmt} (he : Rereads 10 expression e)
    (hs : Restates loop s) (hclosed : ¬ s.OpenEnded) (hs' : Restates loop s') :
    Restates loop (.ifThen e s (some s')) where
  opens := opens_keyword .ifWord _ (by decide) (by decide)
  again budget r hbudget hr := by
    simp only [Stmt.tokens, List.length_append, List.length_cons] at hbudget
    refine takes_peek_cons (takes_advance fun _ => takes_condition he (by omega) fun e' he' => ?_)
    refine Takes.use (hs.takes (by omega) fun hopen => absurd hopen hclosed) fun first hfirst => ?_
    have hword : Derives loop (.word .elseWord) [Keyword.elseWord.token] := .word rfl (by simp)
    refine takes_acceptWord hword ?_
    have hsecond := hs'.takes (show _ < budget by omega) hr
    rw [if_pos rfl, map_eq_pure_bind, bind_assoc]
    refine hsecond.last fun second hsecond => takes_pure ?_
    rw [Stmt.bare, Stmt.bare, he', hfirst, hsecond]

/-- A statement is read again where a declaration may stand as well. -/
theorem Restates.redeclares {s : Stmt} (h : Restates loop s) : Redeclares loop s where
  filled := h.opens.filled
  begins := h.opens.begins.mono (List.subset_append_right _ _)
  again budget r hbudget hr := by
    have hopens := h.opens.append r
    have havoids : ∀ k, Terminal.word k ∉ statementTerminals →
        Avoids (isWord k) (s.tokens ++ r) := fun k hk t ht => hopens.begins.isWord ht hk
    refine takes_acceptWord_avoids (havoids _ (by decide)) ?_
    refine takes_acceptWord_avoids (havoids _ (by decide)) ?_
    refine takes_nameless hopens.nameless ?_
    refine takes_acceptWord_avoids (havoids _ (by decide)) ?_
    exact h.again budget r hbudget fun _ => hr

/-! ## Loops -/

theorem restates_loopRound {increment : Option Expr} {body : Stmt}
    (hincrement : ∀ e ∈ increment, Rereads 10 expression e) (hbody : Restates loop body) :
    Restates loop (loopRound increment body) := by
  cases increment with
  | none => exact hbody
  | some e =>
    refine restates_block fun s hs => ?_
    rcases List.mem_cons.mp hs with rfl | hs
    · exact hbody.redeclares
    · obtain rfl := List.mem_singleton.mp hs
      exact (hincrement e rfl).statement.redeclares

/-- The blocks and the `while` loop that a `for` loop stands for. -/
theorem restates_forLoop {initial : Option Stmt} {condition increment : Option Expr} {body : Stmt}
    (hinitial : ∀ s ∈ initial, Redeclares loop s)
    (hcondition : Rereads 10 expression (condition.getD (.literal (.bool true))))
    (hincrement : ∀ e ∈ increment, Rereads 10 expression e) (hbody : Restates true body) :
    Restates loop (forLoop initial condition increment body) := by
  have hloop : Restates loop (.whileDo (condition.getD (.literal (.bool true)))
      (loopRound increment body)) :=
    restates_while hcondition (restates_loopRound hincrement hbody)
  cases initial with
  | none => exact hloop
  | some s =>
    refine restates_block fun s' hs' => ?_
    rcases List.mem_cons.mp hs' with rfl | hs'
    · exact hinitial _ rfl
    · obtain rfl := List.mem_singleton.mp hs'
      exact hloop.redeclares

/-! ## Declarations that are read again -/

/-- A declaration of a variable behind its word. -/
theorem takes_varDecl_tokens {name : Name} {initial : Option Expr} {budget : Nat}
    (h : ∀ e ∈ initial, Rereads 10 expression e)
    (hbudget : (Stmt.varDecl name initial).tokens.length ≤ budget) :
    Takes loop (varDecl (.within budget)) (Stmt.varDecl name initial).tokens.tail r
      fun s => s.bare = (Stmt.varDecl name initial).bare := by
  have hend : ∀ (name' : Name) (initial' : Option Expr), name'.bare = name.bare →
      initial'.map Expr.bare = initial.map Expr.bare → Takes loop (do
        let _ ← expect .declarationEnd
        return Stmt.varDecl name' initial') [Symbol.semicolon.token] r
        fun s => s.bare = (Stmt.varDecl name initial).bare := by
    intro name' initial' hname hinitial
    refine (takes_expect_token .declarationEnd r).last fun _ _ => takes_pure ?_
    cases initial <;> cases initial' <;>
      simp_all only [Option.map_none, Option.map_some, Option.some.injEq, reduceCtorEq, Stmt.bare]
  cases initial with
  | none =>
    refine Takes.use (takes_expectName_token name _) fun name' hname => ?_
    exact takes_accept_avoids (avoids_cons rfl) (hend name' none hname rfl)
  | some e =>
    simp only [Stmt.tokens, List.length_append, List.length_cons] at hbudget
    refine Takes.use (takes_expectName_token name _) fun name' hname => ?_
    refine takes_accept (v := [Symbol.equal.token]) (.symbol rfl) ?_
    rw [if_pos rfl, map_eq_pure_bind, bind_assoc]
    refine Takes.use ((h e rfl).takes (by omega) (ends_cons (by decide))) fun e' he' => ?_
    exact hend name' (some e') hname (congrArg some he')

theorem redeclares_var {name : Name} {initial : Option Expr}
    (h : ∀ e ∈ initial, Rereads 10 expression e) : Redeclares loop (.varDecl name initial) where
  filled := by cases initial <;> simp [Stmt.tokens]
  begins := by cases initial <;> exact (opens_keyword .varWord _ (by decide) (by decide)).begins
  again budget r hbudget _ := by
    have htokens : (Stmt.varDecl name initial).tokens =
        [Keyword.varWord.token] ++ (Stmt.varDecl name initial).tokens.tail := by
      cases initial <;> rfl
    have hinner : Takes loop (varDecl (.within budget)) (Stmt.varDecl name initial).tokens.tail r
        fun s => s.bare = (Stmt.varDecl name initial).bare := takes_varDecl_tokens h hbudget
    have hopens : Opens [.word .varWord] ([Keyword.varWord.token] ++
        ((Stmt.varDecl name initial).tokens.tail ++ r)) :=
      opens_keyword .varWord _ (by decide) (by decide)
    rw [htokens]
    refine takes_acceptWord_avoids (avoids_cons rfl) ?_
    refine takes_acceptWord_avoids (avoids_cons rfl) ?_
    refine takes_nameless hopens.nameless ?_
    exact takes_acceptWord (.word rfl (by simp)) hinner

theorem redeclares_fun {f : NamedFunction} (h : RereadsNamed f) : Redeclares loop (.funDecl f) where
  filled := by simp [Stmt.tokens]
  begins := by
    rintro t ht
    obtain rfl := Option.some.inj ht
    exact ⟨.word .funWord, by decide, rfl⟩
  again budget r hbudget _ := by
    obtain ⟨name, function⟩ := f
    have hlength : (NamedFunction.mk name function).tokens.length ≤ budget :=
      Nat.le_of_succ_le hbudget
    refine takes_acceptWord_avoids (avoids_cons rfl) ?_
    refine takes_acceptWord_avoids (avoids_cons rfl) ?_
    refine takes_atNamedFunction.skip fun found hfound => ?_
    rw [hfound.mpr ⟨_, _, _, _, rfl, rfl, rfl⟩, if_pos rfl]
    refine takes_advance fun _ => ?_
    refine (h loop .function budget r hlength).last fun f' hf' => takes_pure ?_
    rw [Stmt.bare, Stmt.bare, hf']

/-! ## Classes and traits -/

/-- The traits that a class or trait is made with, before its opening brace. -/
theorem takes_traits {traits : List Reference} {budget : Nat}
    (hbudget : (traitTokens traits).length ≤ budget) (w r : List Token) :
    Takes loop (withClause budget) (traitTokens traits) (Symbol.leftBrace.token :: (w ++ r))
      fun traits' => traits'.map Reference.bare = traits.map Reference.bare := by
  cases traits with
  | nil => exact takes_acceptWord_avoids (avoids_cons rfl) (takes_pure rfl)
  | cons ref rest =>
    have hword : Derives loop (.word .withWord) [Keyword.withWord.token] := .word rfl (by simp)
    have hcount := length_commaJoined ((ref :: rest).map fun ref => [ref.name.token]) (by simp)
    rw [List.length_map] at hcount
    simp only [traitTokens, List.length_cons] at hbudget hcount
    refine takes_acceptWord hword ?_
    refine takes_commaJoined Reference.bare (fun _ => True) (fun _ => trivial) trivial
      (avoids_cons rfl) (by simp) (by simp only [List.length_cons]; omega) ?_
    exact numbered_of_forall fun count ref _ r _ => takes_reference_token ref r

/-- A method of a class, behind a word if it is one of the class itself. -/
def memberTokens (member : Bool × NamedFunction) : List Token :=
  (if member.1 then [Keyword.classWord.token] else []) ++ member.2.tokens

def memberBare (member : Bool × NamedFunction) : Bool × NamedFunction :=
  (member.1, member.2.bare)

theorem RereadsNamed.opens {f : NamedFunction} : Opens [.name] f.tokens := by
  obtain ⟨name, function⟩ := f
  exact (opens_single (k := .name) rfl (by decide) (by decide)).append _

theorem RereadsNamed.takes_member {member : Bool × NamedFunction} (h : RereadsNamed member.2)
    {budget : Nat} (hbudget : (memberTokens member).length ≤ budget) (r : List Token) :
    Takes loop (classMember (.within budget)) (memberTokens member) r
      fun member' => memberBare member' = memberBare member := by
  obtain ⟨ofClass, ⟨name, function⟩⟩ := member
  have hmethod : ∀ budget, (NamedFunction.mk name function).tokens.length ≤ budget →
      Takes loop (do
        return (ofClass, ← namedFunction (.within budget) .method))
        (NamedFunction.mk name function).tokens r
        fun member' => memberBare member' = (ofClass, (NamedFunction.mk name function).bare) :=
    fun budget hbudget => (h loop .method budget r hbudget).last fun f hf => takes_pure <| by
      rw [memberBare, hf]
  cases ofClass with
  | false => exact takes_acceptWord_avoids (avoids_cons rfl) (hmethod budget hbudget)
  | true =>
    have hword : Derives loop (.word .classWord) [Keyword.classWord.token] := .word rfl (by simp)
    exact takes_acceptWord hword (hmethod budget (Nat.le_of_succ_le hbudget))

/-- The methods of a class as its members, those of the class itself last. -/
def membersOf (methods classMethods : List NamedFunction) : List (Bool × NamedFunction) :=
  methods.map (Prod.mk false) ++ classMethods.map (Prod.mk true)

theorem flatMap_membersOf (methods classMethods : List NamedFunction) :
    (membersOf methods classMethods).flatMap memberTokens =
      methodTokens [] methods ++ methodTokens [Keyword.classWord.token] classMethods := by
  rw [methodTokens_eq_flatMap, methodTokens_eq_flatMap, membersOf, List.flatMap_append,
    List.flatMap_map, List.flatMap_map]
  rfl

theorem filter_memberBare (p : Bool → Bool) (members : List (Bool × NamedFunction)) :
    bareMethods ((members.filter fun m => p m.1).map Prod.snd) =
      ((members.map memberBare).filter fun m => p m.1).map Prod.snd := by
  rw [bareMethods_eq_map, List.filter_map, List.map_map, List.map_map]
  rfl

theorem filter_membersOf (methods classMethods : List NamedFunction) :
    ((membersOf methods classMethods).filter fun m => !m.1).map Prod.snd = methods ∧
      ((membersOf methods classMethods).filter fun m => m.1).map Prod.snd = classMethods := by
  simp [membersOf, List.filter_map, Function.comp_def, List.filter_eq_self.mpr]

/-- Sorting the members of a class by kind gives back its methods. -/
theorem partition_membersOf {methods classMethods : List NamedFunction}
    {members : List (Bool × NamedFunction)}
    (h : members.map memberBare = (membersOf methods classMethods).map memberBare) :
    bareMethods ((members.partition Prod.fst).2.map Prod.snd) = bareMethods methods ∧
      bareMethods ((members.partition Prod.fst).1.map Prod.snd) = bareMethods classMethods := by
  obtain ⟨hmethods, hclassMethods⟩ := filter_membersOf methods classMethods
  rw [List.partition_eq_filter_filter]
  refine ⟨(filter_memberBare not members).trans ?_, (filter_memberBare id members).trans ?_⟩
  · rw [h, ← filter_memberBare, hmethods]
  · rw [h, ← filter_memberBare]
    exact congrArg bareMethods hclassMethods

/-- Members of a class up to its brace. -/
theorem takes_members_tokens {methods classMethods : List NamedFunction}
    (h : ∀ f ∈ methods ++ classMethods, RereadsNamed f) {budget : Nat}
    (hbudget : (methodTokens [] methods ++
      methodTokens [Keyword.classWord.token] classMethods).length ≤ budget) (r : List Token) :
    Takes loop (untilBrace (classMember (.within budget)) (budget + 1))
      (methodTokens [] methods ++ methodTokens [Keyword.classWord.token] classMethods)
      (Symbol.rightBrace.token :: r)
      fun members => members.map memberBare = (membersOf methods classMethods).map memberBare := by
  rw [← flatMap_membersOf] at hbudget ⊢
  have hopens : ∀ m : Bool × NamedFunction,
      memberTokens m ≠ [] ∧ Avoids (isSymbol .rightBrace) (memberTokens m) := by
    rintro ⟨ofClass, ⟨name, function⟩⟩
    cases ofClass <;> exact ⟨by simp [memberTokens, NamedFunction.tokens], avoids_cons rfl⟩
  have hcount := length_flatMap fun m (_ : m ∈ membersOf methods classMethods) => (hopens m).1
  refine takes_untilBrace_flatMap memberBare (fun _ => True) (fun m _ => hopens m)
    (fun _ _ _ => trivial) trivial (by omega) fun m hm r _ => ?_
  have hlength := length_le_flatMap memberTokens hm
  refine RereadsNamed.takes_member (h m.2 ?_) (by omega) r
  rw [membersOf, List.mem_append, List.mem_map, List.mem_map] at hm
  rw [List.mem_append]
  rcases hm with ⟨f, hf, rfl⟩ | ⟨f, hf, rfl⟩
  · exact .inl hf
  · exact .inr hf

/-- A class behind its name and that of its superclass. -/
theorem takes_classBody_tokens {traits : List Reference} {methods classMethods : List NamedFunction}
    {last : List Reference → List (Bool × NamedFunction) → Rule Stmt} {good : Stmt → Prop}
    (h : ∀ f ∈ methods ++ classMethods, RereadsNamed f)
    (hlast : ∀ traits' members, traits'.map Reference.bare = traits.map Reference.bare →
      members.map memberBare = (membersOf methods classMethods).map memberBare →
        Takes loop (last traits' members) [] r good)
    {budget : Nat} (htraits : (traitTokens traits).length ≤ budget)
    (hmembers : (methodTokens [] methods ++
      methodTokens [Keyword.classWord.token] classMethods).length ≤ budget) :
    Takes loop (do
      let traits ← withClause (budget + 1)
      let _ ← expect .classOpen
      let members ← untilBrace (classMember (.within budget)) (budget + 1)
      let _ ← expect .classClose
      last traits members) (traitTokens traits ++ Symbol.leftBrace.token ::
        ((methodTokens [] methods ++ methodTokens [Keyword.classWord.token] classMethods) ++
          [Symbol.rightBrace.token])) r good := by
  refine Takes.use (takes_traits (Nat.le_succ_of_le htraits) _ _) fun traits' htraits' => ?_
  refine Takes.use (takes_expect_token .classOpen _) fun _ _ => ?_
  refine Takes.use (takes_members_tokens h hmembers r) fun members hmembers' => ?_
  exact (takes_expect_token .classClose r).last fun _ _ => hlast traits' members htraits' hmembers'

theorem redeclares_class {name : Name} {superclass : Option Reference} {traits : List Reference}
    {methods classMethods : List NamedFunction}
    (h : ∀ f ∈ methods ++ classMethods, RereadsNamed f) :
    Redeclares loop (.classDecl name superclass traits methods classMethods) where
  filled := by simp [Stmt.tokens]
  begins := (opens_keyword .classWord _ (by decide) (by decide)).begins
  again budget r hbudget _ := by
    have hword : Derives loop (.word .classWord) [Keyword.classWord.token] := .word rfl (by simp)
    simp only [Stmt.tokens, List.length_append, List.length_cons] at hbudget
    have htraits : (traitTokens traits).length ≤ budget := by omega
    have hmembers : (methodTokens [] methods ++
        methodTokens [Keyword.classWord.token] classMethods).length ≤ budget := by
      rw [List.length_append]
      omega
    have hlast : ∀ (name' : Name) (superclass' : Option Reference) (traits' : List Reference)
        (members : List (Bool × NamedFunction)), name'.bare = name.bare →
        superclass'.map Reference.bare = superclass.map Reference.bare →
        traits'.map Reference.bare = traits.map Reference.bare →
        members.map memberBare = (membersOf methods classMethods).map memberBare →
          (Stmt.classDecl name' superclass' traits' ((members.partition Prod.fst).2.map Prod.snd)
            ((members.partition Prod.fst).1.map Prod.snd)).bare =
          (Stmt.classDecl name superclass traits methods classMethods).bare := by
      intro name' superclass' traits' members hname hsuperclass htraits hmembers
      obtain ⟨hmethods, hclassMethods⟩ := partition_membersOf hmembers
      rw [Stmt.bare, Stmt.bare, hname, hsuperclass, htraits, hmethods, hclassMethods]
    rw [Stmt.tokens, ← List.append_assoc (methodTokens _ _)]
    refine takes_acceptWord hword (Takes.use (takes_expectName_token name _) fun name' hname => ?_)
    cases superclass with
    | none =>
      refine takes_accept_avoids ?_ (takes_classBody_tokens h
        (fun traits' members htraits hmembers => takes_pure
          (hlast name' none traits' members hname rfl htraits hmembers)) htraits hmembers)
      cases traits <;> exact avoids_cons rfl
    | some ref =>
      refine takes_accept (v := [Symbol.less.token]) (.symbol rfl) ?_
      rw [if_pos rfl, map_eq_pure_bind, bind_assoc]
      refine Takes.use (takes_reference_token ref _) fun ref' href => ?_
      exact takes_classBody_tokens h (fun traits' members htraits hmembers => takes_pure
        (hlast name' (some ref') traits' members hname (congrArg some href) htraits hmembers))
        htraits hmembers

/-- Methods of a trait up to its brace. -/
theorem takes_methods_tokens {methods : List NamedFunction} (h : ∀ f ∈ methods, RereadsNamed f)
    {budget : Nat} (hbudget : (methodTokens [] methods).length ≤ budget) (r : List Token) :
    Takes loop (untilBrace (namedFunction (.within budget) .method) (budget + 1))
      (methodTokens [] methods) (Symbol.rightBrace.token :: r)
      fun methods' => methods'.map NamedFunction.bare = methods.map NamedFunction.bare := by
  have hopens : ∀ f : NamedFunction, f.tokens ≠ [] ∧ Avoids (isSymbol .rightBrace) f.tokens := by
    rintro ⟨name, function⟩
    exact ⟨by simp [NamedFunction.tokens], avoids_cons rfl⟩
  have htokens : methodTokens [] methods = methods.flatMap NamedFunction.tokens :=
    methodTokens_eq_flatMap [] methods
  have hcount := length_flatMap fun f (_ : f ∈ methods) => (hopens f).1
  rw [htokens] at hbudget ⊢
  refine takes_untilBrace_flatMap NamedFunction.bare (fun _ => True) (fun f _ => hopens f)
    (fun _ _ _ => trivial) trivial (by omega) fun f hf r _ => ?_
  have hlength := length_le_flatMap NamedFunction.tokens hf
  exact h f hf loop .method budget r (by omega)

theorem redeclares_trait {name : Name} {traits : List Reference} {methods : List NamedFunction}
    (h : ∀ f ∈ methods, RereadsNamed f) : Redeclares loop (.traitDecl name traits methods) where
  filled := by simp [Stmt.tokens]
  begins := (opens_keyword .traitWord _ (by decide) (by decide)).begins
  again budget r hbudget _ := by
    have hword : Derives loop (.word .traitWord) [Keyword.traitWord.token] := .word rfl (by simp)
    simp only [Stmt.tokens, List.length_append, List.length_cons] at hbudget
    refine takes_acceptWord_avoids (avoids_cons rfl) ?_
    refine takes_acceptWord hword (Takes.use (takes_expectName_token name _) fun name' hname => ?_)
    have htraits : (traitTokens traits).length ≤ budget + 1 := by omega
    refine Takes.use (takes_traits htraits _ _) fun traits' htraits' => ?_
    refine Takes.use (takes_expect_token .traitOpen _) fun _ _ => ?_
    refine Takes.use (takes_methods_tokens h (by omega) r) fun methods' hmethods => ?_
    refine (takes_expect_token .traitClose r).last fun _ _ => takes_pure ?_
    rw [Stmt.bare, Stmt.bare, hname, htraits', bareMethods_eq_map, bareMethods_eq_map, hmethods]

end Grammar

end LoxLang
