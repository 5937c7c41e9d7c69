import LoxLang.Proofs.Grammar.Completeness
import LoxLang.Proofs.Tree.Written

/-!
# Written trees beside the texts they were read from

What is read from some tokens is to be written with tokens that say the same (`Mirrors`), unless
the tokens hold a loop or class that is written another way. The rules decide by its first tokens
how to read on, and those of a written expression are such as an expression begins with
(`Opens`).
-/

namespace LoxLang

namespace Grammar

/-! ## Saying the same -/

/-- Whether a text holds neither the word `for` nor the word `class`. -/
def Rewritable (w : List Token) : Prop :=
  ∀ t ∈ w, t.kind ≠ .keyword .forWord ∧ t.kind ≠ .keyword .classWord

/-- Tokens are written out as others that say the same, one by one. -/
def Mirrors (w written : List Token) : Prop :=
  Rewritable w → written.map Token.meaning = w.map Token.meaning

variable {u v w u' v' w' : List Token} {t t' : Token}

theorem mirrors_nil : Mirrors [] [] :=
  fun _ => rfl

theorem Mirrors.append (h : Mirrors u u') (h' : Mirrors v v') : Mirrors (u ++ v) (u' ++ v') := by
  intro hw
  rw [List.map_append, List.map_append, h fun t ht => hw t (List.mem_append_left _ ht),
    h' fun t ht => hw t (List.mem_append_right _ ht)]

theorem mirrors_of_meaning (h : t'.meaning = t.meaning) : Mirrors [t] [t'] := by
  intro _
  simp [h]

theorem mirrors_of_symbol {loop : Bool} {s : Symbol} (h : Derives loop (.symbol s) w) :
    Mirrors w [s.token] := by
  obtain ⟨t, rfl, ht⟩ := derives_symbol.mp h
  exact mirrors_of_meaning (by simp [Token.meaning, Symbol.token, ht])

theorem mirrors_of_keyword {k : Keyword} (h : t.kind = .keyword k) : Mirrors [t] [k.token] :=
  mirrors_of_meaning (by simp [Token.meaning, Keyword.token, h])

theorem mirrors_of_word {loop : Bool} {k : Keyword} (h : Derives loop (.word k) w) :
    Mirrors w [k.token] := by
  obtain ⟨t, rfl, ht, _⟩ := derives_word.mp h
  exact mirrors_of_keyword ht

/-- Of a text with a loop or class nothing is said. -/
theorem mirrors_of_mem {written : List Token} (ht : t ∈ w)
    (hkind : t.kind = .keyword .forWord ∨ t.kind = .keyword .classWord) : Mirrors w written := by
  intro hw
  rcases hkind with hfor | hclass
  · exact absurd hfor (hw t ht).1
  · exact absurd hclass (hw t ht).2

/-! ## How written expressions begin -/

/-- Tokens that begin as an expression does. -/
structure Opens (ks : List Terminal) (w : List Token) : Prop where
  filled : w ≠ []
  begins : Begins ks w
  nameless : Nameless w

theorem Opens.append {ks : List Terminal} (h : Opens ks u) (v : List Token) :
    Opens ks (u ++ v) where
  filled := List.append_ne_nil_of_left_ne_nil h.filled v
  begins := by
    obtain ⟨t, u, rfl⟩ := List.exists_cons_of_ne_nil h.filled
    exact h.begins
  nameless := h.nameless.append fun hempty => absurd hempty h.filled

theorem Opens.mono {ks ks' : List Terminal} (h : Opens ks w)
    (hks : ks ⊆ ks') : Opens ks' w :=
  ⟨h.filled, h.begins.mono hks, h.nameless⟩

theorem opens_single {ks : List Terminal} {k : Terminal} (h : terminal? t = some k)
    (hk : k ∈ ks) (hfun : k ≠ .word .funWord) : Opens ks [t] where
  filled := by simp
  begins := (begins_single h).mono (by simpa using hk)
  nameless := by
    refine nameless_single fun hkind => hfun ?_
    rw [terminal?, hkind] at h
    exact (Option.some.inj h).symm

theorem opens_name (n : Name) : Opens operandTerminals [n.token] :=
  opens_single (k := .name) rfl (by decide) (by decide)

theorem opens_literal (l : Literal) : Opens operandTerminals [l.token] := by
  cases l with
  | number value => exact opens_single (k := .number) rfl (by decide) (by decide)
  | text value => exact opens_single (k := .text) rfl (by decide) (by decide)
  | bool value =>
    cases value with
    | true => exact opens_single (k := .word .trueWord) rfl (by decide) (by decide)
    | false => exact opens_single (k := .word .falseWord) rfl (by decide) (by decide)
  | nil => exact opens_single (k := .word .nilWord) rfl (by decide) (by decide)

theorem operandTerminals_subset : operandTerminals ⊆ expressionTerminals :=
  List.Subset.trans (List.subset_cons_self _ _) (List.subset_cons_self _ _)

/-- A nameless function begins with `fun` and a parenthesis. -/
theorem opens_lambda (f : Function) :
    Opens operandTerminals (Keyword.funWord.token :: f.tokens) where
  filled := by simp
  begins := by
    rintro t ht
    obtain rfl := Option.some.inj ht
    exact ⟨.word .funWord, by decide, rfl⟩
  nameless := by
    obtain ⟨params, body⟩ := f
    rintro t v hw _
    cases hw
    exact ⟨_, rfl, _, rfl⟩


end Grammar

open Grammar

/-- Every written expression begins as an expression does; where it begins with another one, as
that one. -/
theorem Expr.opens_tokens : ∀ e : Expr, Opens expressionTerminals e.tokens
  | .literal l => (opens_literal l).mono operandTerminals_subset
  | .unary op _ operand => by
    refine Opens.append (u := [op.symbol.token]) ?_ operand.tokens
    cases op with
    | negate => exact opens_single (k := .symbol .minus) rfl (by decide) (by decide)
    | not => exact opens_single (k := .symbol .bang) rfl (by decide) (by decide)
  | .binary left _ _ _ => left.opens_tokens.append _
  | .logical left _ _ _ => left.opens_tokens.append _
  | .conditional condition _ _ => condition.opens_tokens.append _
  | .grouping _ =>
    (opens_single (k := .symbol .leftParen) rfl (by decide) (by decide)).append _
  | .variable ref => (opens_name ref.name).mono operandTerminals_subset
  | .assign ref _ => ((opens_name ref.name).mono operandTerminals_subset).append _
  | .call callee _ _ => callee.opens_tokens.append _
  | .get object _ => object.opens_tokens.append _
  | .set object _ _ => object.opens_tokens.append _
  | .this _ _ => opens_single (k := .word .thisWord) rfl (by decide) (by decide)
  | .super _ _ _ =>
    (opens_single (k := .word .superWord) rfl (by decide) (by decide)).append _
  | .lambda _ f => (opens_lambda f).mono operandTerminals_subset

/-! ## The end mark -/

/-- Tokens none of which marks the end of a text. -/
def Unmarked (w : List Token) : Prop :=
  ∀ t ∈ w, t.isEof = false

@[simp] theorem unmarked_nil : Unmarked [] := by
  simp [Unmarked]

@[simp] theorem unmarked_cons {t : Token} {w : List Token} :
    Unmarked (t :: w) ↔ t.isEof = false ∧ Unmarked w := by
  simp [Unmarked]

@[simp] theorem unmarked_append {u v : List Token} :
    Unmarked (u ++ v) ↔ Unmarked u ∧ Unmarked v := by
  simp only [Unmarked, List.mem_append]
  exact ⟨fun h => ⟨fun t ht => h t (.inl ht), fun t ht => h t (.inr ht)⟩,
    fun h t ht => ht.elim (h.1 t) (h.2 t)⟩

@[simp] theorem isEof_symbol (s : Symbol) : s.token.isEof = false := rfl

@[simp] theorem isEof_keyword (k : Keyword) : k.token.isEof = false := rfl

@[simp] theorem isEof_name (n : Name) : n.token.isEof = false := rfl

@[simp] theorem isEof_literal (l : Literal) : l.token.isEof = false := by
  rcases l with _ | _ | ⟨_ | _⟩ | _ <;> rfl

theorem unmarked_commaJoined {items : List (List Token)} (h : ∀ item ∈ items, Unmarked item) :
    Unmarked (commaJoined items) := by
  induction items using commaJoined.induct with
  | case1 => exact unmarked_nil
  | case2 item => exact h item (by simp)
  | case3 item rest hrest ih =>
    rw [commaJoined.eq_3 _ _ hrest, unmarked_append, unmarked_cons]
    exact ⟨h item (by simp), rfl, ih fun item hitem => h item (List.mem_cons_of_mem _ hitem)⟩

@[simp] theorem unmarked_parameters (params : List Name) : Unmarked (parameterTokens params) := by
  refine unmarked_commaJoined fun item hitem => ?_
  obtain ⟨param, _, rfl⟩ := List.mem_map.mp hitem
  simp

@[simp] theorem unmarked_superclass (superclass : Option Reference) :
    Unmarked (superclassTokens superclass) := by
  cases superclass <;> simp [superclassTokens]

@[simp] theorem unmarked_traits (traits : List Reference) : Unmarked (traitTokens traits) := by
  cases traits with
  | nil => exact unmarked_nil
  | cons ref rest =>
    refine unmarked_cons.mpr ⟨rfl, unmarked_commaJoined fun item hitem => ?_⟩
    obtain ⟨ref, _, rfl⟩ := List.mem_map.mp hitem
    simp

mutual

theorem Expr.unmarked : ∀ e : Expr, Unmarked e.tokens
  | .literal _ => by simp [Expr.tokens]
  | .unary _ _ operand => by simp [Expr.tokens, operand.unmarked]
  | .binary left _ _ right => by simp [Expr.tokens, left.unmarked, right.unmarked]
  | .logical left _ _ right => by simp [Expr.tokens, left.unmarked, right.unmarked]
  | .conditional condition first second => by
    simp [Expr.tokens, condition.unmarked, first.unmarked, second.unmarked]
  | .grouping inner => by simp [Expr.tokens, inner.unmarked]
  | .variable _ => by simp [Expr.tokens]
  | .assign _ value => by simp [Expr.tokens, value.unmarked]
  | .call callee arguments _ => by
    simp [Expr.tokens, callee.unmarked, unmarked_commaJoined (unmarked_arguments arguments)]
  | .get object _ => by simp [Expr.tokens, object.unmarked]
  | .set object _ value => by simp [Expr.tokens, object.unmarked, value.unmarked]
  | .this _ _ => by simp [Expr.tokens]
  | .super _ _ _ => by simp [Expr.tokens]
  | .lambda _ function => by simp [Expr.tokens, function.unmarked]

theorem unmarked_arguments :
    ∀ arguments : List Expr, ∀ item ∈ argumentTokens arguments, Unmarked item
  | [] => by simp [argumentTokens]
  | argument :: rest => by
    simpa [argumentTokens, argument.unmarked] using unmarked_arguments rest

theorem Function.unmarked : ∀ f : Function, Unmarked f.tokens
  | .mk _ body => by simp [Function.tokens, unmarked_body body]

theorem NamedFunction.unmarked : ∀ f : NamedFunction, Unmarked f.tokens
  | .mk _ function => by simp [NamedFunction.tokens, function.unmarked]

theorem unmarked_methods {front : List Token} (hfront : Unmarked front) :
    ∀ methods : List NamedFunction, Unmarked (methodTokens front methods)
  | [] => by simp [methodTokens]
  | method :: rest => by
    simp [methodTokens, hfront, method.unmarked, unmarked_methods hfront rest]

theorem Stmt.unmarked : ∀ s : Stmt, Unmarked s.tokens
  | .expression value => by simp [Stmt.tokens, value.unmarked]
  | .print value => by simp [Stmt.tokens, value.unmarked]
  | .varDecl _ none => by simp [Stmt.tokens]
  | .varDecl _ (some initial) => by simp [Stmt.tokens, initial.unmarked]
  | .block body => by simp [Stmt.tokens, unmarked_body body]
  | .ifThen condition thenBranch none => by
    simp [Stmt.tokens, condition.unmarked, thenBranch.unmarked]
  | .ifThen condition thenBranch (some elseBranch) => by
    simp [Stmt.tokens, condition.unmarked, thenBranch.unmarked, elseBranch.unmarked]
  | .whileDo condition body => by simp [Stmt.tokens, condition.unmarked, body.unmarked]
  | .breakLoop _ => by simp [Stmt.tokens]
  | .returnWith _ none => by simp [Stmt.tokens]
  | .returnWith _ (some value) => by simp [Stmt.tokens, value.unmarked]
  | .funDecl declared => by simp [Stmt.tokens, declared.unmarked]
  | .classDecl _ _ _ methods classMethods => by
    have hclass : Unmarked [Keyword.classWord.token] := by simp
    simp [Stmt.tokens, unmarked_methods unmarked_nil methods, unmarked_methods hclass classMethods]
  | .traitDecl _ _ methods => by simp [Stmt.tokens, unmarked_methods unmarked_nil methods]

theorem unmarked_body : ∀ body : List Stmt, Unmarked (bodyTokens body)
  | [] => by simp [bodyTokens]
  | statement :: rest => by simp [bodyTokens, statement.unmarked, unmarked_body rest]

end

/-- In front of the end mark stand all other tokens. -/
theorem takeWhile_unmarked {w : List Token} (h : Unmarked w) (line : Nat) :
    ((w ++ [Token.mk .eof line]).takeWhile fun t => !t.isEof) = w := by
  rw [List.takeWhile_append_of_pos fun t ht => by simp [h t ht]]
  simp [Token.isEof]

end LoxLang
