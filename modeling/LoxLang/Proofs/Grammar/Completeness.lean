import LoxLang.Proofs.Grammar.Soundness
import LoxLang.Proofs.Grammar.Taking

/-!
# What each rule takes up

Every rule of the grammar takes up what is derived from its production, where what follows does
not continue it. For an expression that is decided by how strongly the next token binds. A
statement may be followed by an `else` only if it cannot take it up itself (`Absorbs`); the
grammar leaves open to which `if` it belongs, and of the derivations the rules follow the one in
which that is the innermost. As in the other direction, each lemma assumes of the categories
within a rule what `takes_ruleAt` concludes by induction on the budget.
-/

namespace LoxLang

namespace Grammar

/-! ## What follows -/

/-- At which of the levels of expressions, from the inside out, a token continues one. -/
def strength (t : Token) : Nat :=
  match t.kind with
  | .symbol .leftParen => 1
  | .symbol .dot => 1
  | .symbol .slash => 2
  | .symbol .star => 2
  | .symbol .minus => 3
  | .symbol .plus => 3
  | .symbol .greater => 4
  | .symbol .greaterEqual => 4
  | .symbol .less => 4
  | .symbol .lessEqual => 4
  | .symbol .bangEqual => 5
  | .symbol .equalEqual => 5
  | .keyword .andWord => 6
  | .keyword .orWord => 7
  | .symbol .questionMark => 8
  | .symbol .equal => 9
  | .symbol .comma => 10
  | _ => 11

/-- What follows does not continue an expression of a level. -/
def Ends (level : Nat) (r : List Token) : Prop :=
  ∀ t ∈ r.head?, level < strength t

/-- No `else` follows. -/
abbrev NoElse : List Token → Prop :=
  Avoids (isWord .elseWord)

/-- A statement behind which an `else` may stand belongs to it. -/
def Absorbs (loop : Bool) (w : List Token) : Prop :=
  ∀ u v, Derives loop (.word .elseWord) u → Derives loop (.of .statement) v →
    Derives loop (.of .statement) (w ++ (u ++ v))

/-- What may follow what is derived from a category. -/
def Category.Stops (loop : Bool) (w : List Token) : Category → List Token → Prop
  | expression => Ends 10
  | assignment => Ends 9
  | conditional => Ends 8
  | unary => Ends 1
  | statement => fun r => Absorbs loop w → NoElse r
  | declaration => NoElse

/-- Rules that take up what is derived from each category, one token less than their bound at
most. -/
def Rules.Taking (inner : Rules) : Prop :=
  ∀ loop category w r, w.length + 1 < inner.bound → Derives loop (.of category.nonterminal) w →
    category.Stops loop w r → TakesUp loop (inner.read category) w r

theorem Ends.mono {level level' : Nat} {r : List Token} (h : Ends level r)
    (hle : level' ≤ level) : Ends level' r :=
  fun t ht => Nat.lt_of_le_of_lt hle (h t ht)

theorem ends_cons {level : Nat} {t : Token} {r : List Token} (h : level < strength t) :
    Ends level (t :: r) := by
  intro t' ht'
  obtain rfl := Option.some.inj ht'
  exact h

theorem avoids_cons {kind : Token → Bool} {t : Token} (h : kind t = false) :
    Avoids kind (t :: r) := by
  intro t' ht'
  obtain rfl := Option.some.inj ht'
  exact h

theorem length_pos_of_derives {loop : Bool} {p : Phrase} {w : List Token} (h : Derives loop p w)
    (hp : p.nullable = false) : 0 < w.length := by
  cases w with
  | nil =>
    rw [nullable_of_derives h rfl] at hp
    cases hp
  | cons t w => simp

variable {inner : Rules} {loop : Bool} {w r : List Token}

/-- What is derived from a phrase avoids a word, whatever follows. -/
theorem avoids_word_append {p : Phrase} {k : Keyword} (hw : Derives loop p w)
    (hp : p.nullable = false) (hk : .word k ∉ p.starts) : Avoids (isWord k) (w ++ r) :=
  (avoids_word hw hk).append (List.ne_nil_of_length_pos (length_pos_of_derives hw hp))

theorem avoids_symbol_append {p : Phrase} {s : Symbol} (hw : Derives loop p w)
    (hp : p.nullable = false) (hs : .symbol s ∉ p.starts) : Avoids (isSymbol s) (w ++ r) :=
  (avoids_symbol hw hs).append (List.ne_nil_of_length_pos (length_pos_of_derives hw hp))

/-- An expression ends before a symbol that continues none. -/
theorem ends_of_symbol {level : Nat} {s : Symbol} {u : List Token}
    (h : Derives loop (.symbol s) u) (hs : level < strength ⟨.symbol s, 0⟩) :
    Ends level (u ++ r) := by
  obtain ⟨⟨kind, line⟩, rfl, rfl⟩ := derives_symbol.mp h
  exact ends_cons hs

/-- A symbol that continues an expression does not follow it. -/
theorem avoids_of_ends {level : Nat} {s : Symbol} (hr : Ends level r)
    (hs : strength ⟨.symbol s, 0⟩ ≤ level) : Avoids (isSymbol s) r := by
  intro t ht
  refine Bool.eq_false_iff.mpr fun hsymbol => ?_
  have hstrong := hr t ht
  have hsame : strength t = strength ⟨.symbol s, 0⟩ := by
    unfold strength
    rw [kind_of_isSymbol hsymbol]
  omega

/-- What follows an expression is looked at and left. -/
theorem takes_peek_ends {next : Token → Rule Expr} {good : Expr → Prop} {level : Nat}
    (hr : Ends level r) (hlevel : level < 11)
    (h : ∀ t, level < strength t → Takes loop (next t) [] r good) :
    Takes loop (peek >>= next) [] r good := by
  refine takes_peek fun t hend hsame => h t ?_
  cases r with
  | nil => simpa [strength, hend rfl] using hlevel
  | cons a r =>
    rw [hsame a rfl]
    exact hr a rfl

theorem Rules.Taking.expression (h : inner.Taking) (hw : Derives loop (.of .expression) w)
    (hsize : w.length + 1 < inner.bound) (hr : Ends 10 r) :
    TakesUp loop (inner.read .expression) w r :=
  h loop .expression w r hsize hw hr

/-! ## Functions -/

theorem takes_parameter (size count : Nat) (hcount : ∀ most ∈ some 254, count ≤ most) :
    TakesAll loop size (fun _ => True) .name (parameter count) := by
  intro w r _ hw _
  have hroom : count < maxArity := Nat.lt_succ_of_le (hcount 254 rfl)
  exact (takesUp_checkArity hroom).skip fun _ _ => takes_expectName hw

theorem takes_block (h : inner.Taking) (hsize : w.length < inner.bound)
    (hw : Derives loop (.seq [.many none (.of .declaration), .symbol .rightBrace]) w) :
    TakesUp loop (block inner) w r := by
  obtain ⟨u, v, rfl, hu, hv⟩ := derives_pair.mp hw
  obtain ⟨t, rfl, ht⟩ := derives_symbol.mp hv
  rw [List.length_append, List.length_singleton] at hsize
  have hitem : TakesAll loop (inner.bound - 1) NoElse (.of .declaration)
      (inner.read .declaration) :=
    fun w r hlength hw hr => h loop .declaration w r (by omega) hw hr
  have hnext : ∀ u r, Derives loop (.of .declaration) u → NoElse (u ++ r) :=
    fun _ _ hu => avoids_word_append hu rfl (by decide)
  have hbrace : NoElse (t :: r) := avoids_cons (by simp [isWord, ht])
  refine Takes.use (takes_untilBrace hitem rfl (by decide) hnext ht hbrace (by omega) (by omega) hu)
    fun body _ => ?_
  have hclose : TakesUp loop (expect .blockClose) [t] r := takes_expect (.symbol ht)
  exact hclose.last fun _ _ => takesUp_pure

theorem takes_function (h : inner.Taking) {callable : Callable} (hsize : w.length < inner.bound)
    (hw : Derives loop (.seq Phrase.callable) w) :
    TakesUp loop (function inner callable) w r := by
  obtain ⟨a, w₁, rfl, ha, hw₁⟩ := derives_cons.mp hw
  obtain ⟨ps, w₂, rfl, hps, hw₂⟩ := derives_cons.mp hw₁
  obtain ⟨b, body, rfl, hb, hbody⟩ := derives_pair.mp hw₂
  simp only [List.length_append] at hsize
  obtain ⟨c, v, rfl, hc, hv⟩ := derives_cons.mp (derives_of.mp (derives_functionBody.mp hbody))
  rw [List.length_append] at hsize
  have hc' : Derives loop (.symbol .leftBrace) c := by
    obtain ⟨t, rfl, ht⟩ := derives_symbol.mp hc
    exact .symbol ht
  have hrest : ∀ params : List Name, TakesUp loop (do
      let _ ← expect .parametersClose
      let _ ← expect (.bodyOpen callable)
      let body ← withLoopDepth (fun _ => 0) (block inner)
      return Function.mk params body) (b ++ (c ++ v)) r := by
    intro params
    refine Takes.use (takes_expect hb) fun _ _ => Takes.use (takes_expect hc') fun _ _ => ?_
    have hblock : TakesUp false (block inner) v r := takes_block h (by omega) hv
    exact (takes_withLoopDepth hblock fun _ _ => by simp).last fun _ _ => takesUp_pure
  refine Takes.use (takes_expect ha) fun _ _ => ?_
  rcases derives_optional.mp hps with rfl | hps
  · obtain ⟨t, rfl, ht⟩ := derives_symbol.mp hb
    exact takes_atSymbol ⟨t, rfl, ht⟩ (hrest [])
  · have hlist := derives_of.mp hps
    refine takes_atSymbol_avoids ?_ ?_
    · rw [List.append_assoc]
      exact avoids_symbol_append hps rfl (by decide)
    · have havoids : Avoids (isSymbol .comma) ((b ++ (c ++ v)) ++ r) := by
        rw [List.append_assoc]
        exact avoids_symbol_append hb rfl (by decide)
      refine Takes.use (takes_commaSeparated (takes_parameter inner.bound) (fun _ _ _ => trivial)
        trivial havoids (by omega) (by omega) (by simp) hlist) fun params _ => hrest params

theorem takes_namedFunction (h : inner.Taking) {callable : Callable}
    (hsize : w.length < inner.bound) (hw : Derives loop (.of .function) w) :
    TakesUp loop (namedFunction inner callable) w r := by
  obtain ⟨u, v, rfl, hu, hv⟩ := derives_cons.mp (derives_of.mp hw)
  rw [List.length_append] at hsize
  refine Takes.use (takes_expectName hu) fun name _ => ?_
  exact (takes_function h (by omega) hv).last fun _ _ => takesUp_pure

/-! ## Operands -/

theorem takes_name (hw : Derives loop .name w) :
    Takes loop (primary inner) w r Expr.Assignable := by
  obtain ⟨t, n, rfl, ht⟩ := derives_name.mp hw
  refine takes_peek_cons ?_
  simp only [ht]
  exact takes_advance fun _ => takesUp_freshId.skip fun _ _ => takes_pure trivial

theorem takes_primary (h : inner.Taking) (hsize : w.length < inner.bound)
    (hw : Derives loop (.of .primary) w) : TakesUp loop (primary inner) w r := by
  have hliteral : ∀ {t : Token} {l : Literal}, TakesUp loop (do
      advance
      return Expr.literal l) [t] r := takes_advance fun _ => takesUp_pure
  obtain ⟨p, mem, hp⟩ := derives_choice.mp (derives_of.mp hw)
  simp only [List.mem_cons, List.not_mem_nil, or_false] at mem
  -- One case for each alternative of the rule, in its order; the first token tells them apart.
  rcases mem with rfl | rfl | rfl | rfl | rfl | rfl | rfl | rfl | rfl | rfl
  · cases hp with
    | number ht =>
      refine takes_peek_cons ?_
      simp only [ht]
      exact hliteral
  · cases hp with
    | text ht =>
      refine takes_peek_cons ?_
      simp only [ht]
      exact hliteral
  · obtain ⟨t, rfl, ht, _⟩ := derives_word.mp hp
    refine takes_peek_cons ?_
    simp only [ht]
    exact hliteral
  · obtain ⟨t, rfl, ht, _⟩ := derives_word.mp hp
    refine takes_peek_cons ?_
    simp only [ht]
    exact hliteral
  · obtain ⟨t, rfl, ht, _⟩ := derives_word.mp hp
    refine takes_peek_cons ?_
    simp only [ht]
    exact hliteral
  · obtain ⟨t, rfl, ht, _⟩ := derives_word.mp hp
    refine takes_peek_cons ?_
    simp only [ht]
    exact takes_advance fun _ => takesUp_freshId.skip fun _ _ => takesUp_pure
  · obtain ⟨u, v, rfl, hu, hv⟩ := derives_cons.mp hp
    obtain ⟨dot, name, rfl, hdot, hname⟩ := derives_pair.mp hv
    obtain ⟨t, rfl, ht, _⟩ := derives_word.mp hu
    rw [List.singleton_append]
    refine takes_peek_cons ?_
    simp only [ht]
    refine takes_advance fun _ => Takes.use (takes_expect hdot) fun _ _ => ?_
    refine (takes_expectName hname).last fun _ _ => ?_
    exact takesUp_freshId.skip fun _ _ => takesUp_pure
  · exact (takes_name hp).up
  · obtain ⟨u, v, rfl, hu, hv⟩ := derives_cons.mp hp
    obtain ⟨e, close, rfl, he, hclose⟩ := derives_pair.mp hv
    obtain ⟨t, rfl, ht⟩ := derives_symbol.mp hu
    have hpositive := length_pos_of_derives hclose rfl
    simp only [List.length_append, List.length_singleton] at hsize
    rw [List.singleton_append]
    refine takes_peek_cons ?_
    simp only [ht]
    refine takes_advance fun _ => ?_
    have hends : Ends 10 (close ++ r) := ends_of_symbol hclose (by decide)
    refine Takes.use (h.expression he (by omega) hends) fun _ _ => ?_
    exact (takes_expect hclose).last fun _ _ => takesUp_pure
  · obtain ⟨u, v, rfl, hu, hv⟩ := derives_cons.mp hp
    obtain ⟨t, rfl, ht, _⟩ := derives_word.mp hu
    rw [List.length_append, List.length_singleton] at hsize
    rw [List.singleton_append]
    refine takes_peek_cons ?_
    simp only [ht]
    refine takes_advance fun _ => ?_
    exact (takes_function h (by omega) hv).last fun _ _ => takesUp_pure

theorem takes_argument (h : inner.Taking) (count : Nat) (hcount : ∀ most ∈ some 254, count ≤ most) :
    TakesAll loop (inner.bound - 1) (Ends 9) (.of .assignment) (argument inner count) := by
  intro w r hlength hw hr
  have hroom : count < maxArity := Nat.lt_succ_of_le (hcount 254 rfl)
  refine (takesUp_checkArity hroom).skip fun _ _ => ?_
  exact h loop .assignment w r (by omega) hw hr

theorem takes_arguments (h : inner.Taking) (hsize : w.length < inner.bound)
    (hw : Derives loop (.seq [.optional (.of .arguments), .symbol .rightParen]) w) :
    TakesUp loop (arguments inner) w r := by
  obtain ⟨args, b, rfl, hargs, hb⟩ := derives_pair.mp hw
  have hclose : ∀ args : List Expr, TakesUp loop (do
      let line ← expect .argumentsClose
      return (args, line)) b r :=
    fun args => (takes_expect hb).last fun _ _ => takesUp_pure
  obtain ⟨t, rfl, ht⟩ := derives_symbol.mp hb
  rw [List.length_append, List.length_singleton] at hsize
  rcases derives_optional.mp hargs with rfl | hargs
  · exact takes_atSymbol ⟨t, rfl, ht⟩ (hclose [])
  · refine takes_atSymbol_avoids ?_ ?_
    · rw [List.append_assoc]
      exact avoids_symbol_append hargs rfl (by decide)
    · have havoids : Avoids (isSymbol .comma) ([t] ++ r) :=
        avoids_symbol_append hb rfl (by decide)
      have hends : Ends 9 ([t] ++ r) := ends_of_symbol hb (by decide)
      refine Takes.use (takes_commaSeparated (takes_argument h) ?_ hends havoids (by omega)
        (by omega) (by simp) (derives_of.mp hargs)) fun args _ => hclose args
      intro t r hcomma
      exact ends_cons (by simp [strength, hcomma])

/-- Behind the suffixes of an operand reading goes on with the operand that they make up. -/
theorem takes_suffixes (h : inner.Taking) {u : List Token} {good : Expr → Prop}
    (hu : Derives loop (.many none .suffix) u) (hrest : ∀ budget e, w.length < budget →
      Takes loop (suffixes inner budget e) w r good) {budget : Nat} {e : Expr}
    (hbudget : (u ++ w).length < budget) (hsize : u.length < inner.bound) :
    Takes loop (suffixes inner budget e) (u ++ w) r good := by
  induction budget generalizing u e with
  | zero => omega
  | succ budget ih =>
    rcases derives_many.mp hu with rfl | ⟨s, v, rfl, _, hs, hv⟩
    · exact hrest _ e hbudget
    obtain ⟨p, mem, hp⟩ := derives_choice.mp hs
    simp only [List.mem_cons, List.not_mem_nil, or_false] at mem
    rcases mem with rfl | rfl
    · obtain ⟨a, x, rfl, ha, hx⟩ := derives_cons.mp hp
      obtain ⟨t, rfl, ht⟩ := derives_symbol.mp ha
      simp only [List.length_append, List.length_singleton] at hbudget hsize
      simp only [List.append_assoc, List.singleton_append]
      refine takes_peek_cons ?_
      simp only [ht]
      refine takes_advance fun _ => Takes.use (takes_arguments h (by omega) hx) fun found _ => ?_
      refine ih hv ?_ (by omega)
      rw [List.length_append]
      omega
    · obtain ⟨a, x, rfl, ha, hx⟩ := derives_pair.mp hp
      obtain ⟨t, rfl, ht⟩ := derives_symbol.mp ha
      simp only [List.length_append, List.length_singleton] at hbudget hsize
      simp only [List.append_assoc, List.singleton_append]
      refine takes_peek_cons ?_
      simp only [ht]
      refine takes_advance fun _ => Takes.use (takes_expectName hx) fun name _ => ?_
      refine ih hv ?_ (by omega)
      rw [List.length_append]
      omega

/-- An operand is complete where no further suffix follows. -/
theorem takes_suffixes_end {budget : Nat} {e : Expr} (hbudget : 0 < budget) (hr : Ends 1 r) :
    Takes loop (suffixes inner budget e) [] r (· = e) := by
  obtain ⟨budget, rfl⟩ := Nat.exists_eq_add_one.mpr hbudget
  refine takes_peek_ends hr (by decide) fun t ht => ?_
  split
  · next hkind => simp [strength, hkind] at ht
  · next hkind => simp [strength, hkind] at ht
  · exact takes_pure rfl

theorem takes_call (h : inner.Taking) :
    TakesAll loop inner.bound (Ends 1) (.of .call) (call inner) := by
  intro w r hsize hw hr
  obtain ⟨u, v, rfl, hu, hv⟩ := derives_pair.mp (derives_of.mp hw)
  rw [List.length_append] at hsize
  refine Takes.use (takes_primary h (by omega) hu) fun e _ => ?_
  have hlength : (v ++ []).length < inner.bound := by
    rw [List.append_nil]
    omega
  have hsuffixes : TakesUp loop (suffixes inner inner.bound e) (v ++ []) r :=
    takes_suffixes h hv (fun budget e hbudget => (takes_suffixes_end hbudget hr).up) hlength
      (by omega)
  rwa [List.append_nil] at hsuffixes

/-- What an assignment may assign to is read as such. -/
theorem takes_call_target (h : inner.Taking) (hsize : w.length < inner.bound)
    (hw : Derives loop .target w) (hr : Ends 1 r) :
    Takes loop (call inner) w r Expr.Assignable := by
  obtain ⟨path, name, rfl, hpath, hname⟩ := derives_pair.mp hw
  rcases derives_optional.mp hpath with rfl | hpath
  · refine (takes_name hname).last fun e he => ?_
    exact (takes_suffixes_end (by omega) hr).mono fun _ hsame => hsame ▸ he
  obtain ⟨object, dot, rfl, hobject, hdot⟩ := derives_pair.mp hpath
  obtain ⟨u, v, rfl, hu, hv⟩ := derives_pair.mp (derives_of.mp hobject)
  obtain ⟨t, rfl, ht⟩ := derives_symbol.mp hdot
  simp only [List.length_append, List.length_singleton] at hsize
  simp only [List.append_assoc]
  refine Takes.use (takes_primary h (by omega) hu) fun e _ => ?_
  refine takes_suffixes h hv (fun budget e hbudget => ?_) ?_ (by omega)
  · obtain ⟨budget, rfl⟩ := Nat.exists_eq_add_one.mpr (Nat.zero_lt_of_lt hbudget)
    have hpositive := length_pos_of_derives hname rfl
    rw [List.length_append, List.length_singleton] at hbudget
    rw [List.singleton_append]
    refine takes_peek_cons ?_
    simp only [ht]
    refine takes_advance fun _ => (takes_expectName hname).last fun name _ => ?_
    refine (takes_suffixes_end (by omega) hr).mono fun _ hsame => ?_
    rw [hsame]
    trivial
  · simp only [List.length_append, List.length_singleton]
    omega

/-! ## Levels -/

/-- A rule for expressions of a level takes up what is derived from its production, and reads
what an assignment may assign to as such. -/
structure Binds (loop : Bool) (size level : Nat) (n : Nonterminal) (rule : Rule Expr) : Prop where
  takes : TakesAll loop size (Ends level) (.of n) rule
  target : ∀ w r, w.length < size → Derives loop .target w → Ends 8 r →
    Takes loop rule w r Expr.Assignable

/-- What may be assigned to begins like an operand. -/
theorem begins_target (h : Derives loop .target w) : Begins operandTerminals w := by
  refine (begins_of_derives h).mono ?_
  have hall : ∀ k ∈ Phrase.target.starts, k ∈ operandTerminals := by decide
  exact fun k hk => hall k hk

theorem takes_unary (hbegins : Begins operandTerminals w) (hne : w ≠ []) {good : Expr → Prop}
    (h : Takes loop (call inner) w r good) : Takes loop (unary inner) w r good := by
  obtain ⟨t, w, rfl⟩ := List.exists_cons_of_ne_nil hne
  refine takes_peek_cons ?_
  have hnone : unaryOp? t = none := by
    obtain ⟨k, hk, hterminal⟩ := hbegins t rfl
    unfold unaryOp?
    unfold terminal? at hterminal
    split
    · next hkind =>
      simp only [hkind, Option.some.injEq] at hterminal
      subst hterminal
      simp [operandTerminals] at hk
    · next hkind =>
      simp only [hkind, Option.some.injEq] at hterminal
      subst hterminal
      simp [operandTerminals] at hk
    · rfl
  rw [hnone]
  exact h

theorem binds_unary (h : inner.Taking) : Binds loop inner.bound 1 .unary (unary inner) where
  takes w r hsize hw hr := by
    obtain ⟨p, mem, hp⟩ := derives_choice.mp (derives_of.mp hw)
    simp only [List.mem_cons, List.not_mem_nil, or_false] at mem
    rcases mem with rfl | rfl
    · obtain ⟨a, v, rfl, ha, hv⟩ := derives_pair.mp hp
      have hop : ∃ t op, a = [t] ∧ unaryOp? t = some op := by
        obtain ⟨q, mem, hq⟩ := derives_choice.mp ha
        simp only [List.mem_cons, List.not_mem_nil, or_false] at mem
        rcases mem with rfl | rfl
        · obtain ⟨t, rfl, ht⟩ := derives_symbol.mp hq
          exact ⟨t, .not, rfl, by simp [unaryOp?, ht]⟩
        · obtain ⟨t, rfl, ht⟩ := derives_symbol.mp hq
          exact ⟨t, .negate, rfl, by simp [unaryOp?, ht]⟩
      obtain ⟨t, op, rfl, hop⟩ := hop
      rw [List.length_append, List.length_singleton] at hsize
      rw [List.singleton_append]
      refine takes_peek_cons ?_
      rw [hop]
      refine takes_advance fun _ => ?_
      have hinner : TakesUp loop (inner.read .unary) v r := h loop .unary v r (by omega) hv hr
      exact hinner.last fun _ _ => takesUp_pure
    · have hne := List.ne_nil_of_length_pos (length_pos_of_derives hp rfl)
      exact takes_unary (begins_of_derives hp) hne (takes_call h w r hsize hp hr)
  target w r hsize hw hr := by
    have hne := List.ne_nil_of_length_pos (length_pos_of_derives hw rfl)
    refine takes_unary (begins_target hw) hne ?_
    exact takes_call_target h hsize hw (hr.mono (by decide))

/-! ## Operators -/

/-- Operands with operators between them, which end each of them. -/
theorem takes_operands {ω : Type} {operator? : Token → Option ω} {p operator : Phrase}
    {operand : Rule Expr} {build : Expr → ω → Nat → Expr → Expr} {size level : Nat}
    (hoperand : TakesAll loop size (Ends level) p operand)
    (hoperator : ∀ u, Derives loop operator u →
      ∃ t op, u = [t] ∧ operator? t = some op ∧ level < strength t)
    (hend : ∀ t, level + 1 < strength t → operator? t = none) (hlevel : level ≤ 9)
    (hsize : w.length < size) (hw : Derives loop (.seq [p, .many none (.seq [operator, p])]) w)
    (hr : Ends (level + 1) r) :
    TakesUp loop (operand >>= leftNested operator? operand build size) w r := by
  obtain ⟨u, v, rfl, hu, hv⟩ := derives_pair.mp hw
  rw [List.length_append] at hsize
  have hstops : ∀ u, Derives loop operator u →
      ∃ t op, u = [t] ∧ operator? t = some op ∧ ∀ r, Ends level (t :: r) := by
    intro u hu
    obtain ⟨t, op, rfl, hop, hstrength⟩ := hoperator u hu
    exact ⟨t, op, rfl, hop, fun r => ends_cons hstrength⟩
  have hfirst : Ends level (v ++ r) := by
    rcases derives_many.mp hv with rfl | ⟨x, v', rfl, _, hx, _⟩
    · exact hr.mono (Nat.le_succ level)
    · obtain ⟨o, u', rfl, ho, _⟩ := derives_pair.mp hx
      obtain ⟨t, _, rfl, _, hends⟩ := hstops o ho
      exact hends _
  have havoids : Avoids (fun t => (operator? t).isSome) r :=
    fun t ht => by simp [hend t (hr t ht)]
  have heof : ∀ t : Token, t.kind = .eof → operator? t = none := by
    intro t ht
    refine hend t ?_
    simp only [strength, ht]
    omega
  refine Takes.use (hoperand u _ (by omega) hu hfirst) fun e _ => ?_
  exact (takes_leftNested hoperand hstops (hr.mono (Nat.le_succ level)) havoids heof (by omega)
    (by omega) hv).up

/-- The only operand of a level is what the level reads. -/
theorem takes_operand {ω : Type} {operator? : Token → Option ω} {operand : Rule Expr}
    {build : Expr → ω → Nat → Expr → Expr} {size : Nat} {good : Expr → Prop}
    (h : Takes loop operand w r good) (hsize : 0 < size) {level : Nat} (hr : Ends level r)
    (hlevel : level < 11) (hend : ∀ t, level < strength t → operator? t = none) :
    Takes loop (operand >>= leftNested operator? operand build size) w r good := by
  obtain ⟨budget, rfl⟩ := Nat.exists_eq_add_one.mpr hsize
  refine h.last fun e he => takes_peek_ends hr hlevel fun t ht => ?_
  rw [hend t ht]
  exact takes_pure he

/-- A level whose operators bind its operands together. -/
theorem binds_joined {ω : Type} {operator? : Token → Option ω} {operators : List Phrase}
    {operand : Rule Expr} {build : Expr → ω → Nat → Expr → Expr} {size level : Nat}
    {n m : Nonterminal} (hn : production n = .joined (.of m) operators)
    (h : Binds loop size level m operand)
    (hoperator : ∀ u, Derives loop (.choice operators) u →
      ∃ t op, u = [t] ∧ operator? t = some op ∧ level < strength t)
    (hend : ∀ t, level + 1 < strength t → operator? t = none) (hlevel : level + 1 ≤ 8) :
    Binds loop size (level + 1) n (operand >>= leftNested operator? operand build size) where
  takes w r hsize hw hr := by
    refine takes_operands h.takes hoperator hend (by omega) hsize ?_ hr
    have hw' := derives_of.mp hw
    rwa [hn] at hw'
  target w r hsize hw hr :=
    takes_operand (h.target w r hsize hw hr) (Nat.zero_lt_of_lt hsize) hr (by decide)
      fun t ht => hend t (by omega)

/-- The strength of the operators of a level. -/
def Level.strength : Level → Nat
  | factor => 2
  | term => 3
  | comparison => 4
  | equality => 5

theorem operator_of_derives {level : Level} {u : List Token}
    (h : Derives loop (.choice level.operators) u) :
    ∃ t op, u = [t] ∧ level.operator? t = some op ∧ strength t = level.strength := by
  have hall : ∀ p ∈ level.operators, ∃ s op, p = .symbol s ∧ ∀ line,
      level.operator? ⟨.symbol s, line⟩ = some op ∧
        strength ⟨.symbol s, line⟩ = level.strength := by
    cases level <;> simp [Level.operators, Level.operator?, Grammar.strength, Level.strength]
  obtain ⟨p, mem, hp⟩ := derives_choice.mp h
  obtain ⟨s, op, rfl, hs⟩ := hall p mem
  obtain ⟨⟨kind, line⟩, rfl, rfl⟩ := derives_symbol.mp hp
  exact ⟨_, op, rfl, hs line⟩

theorem strength_of_operator {level : Level} {t : Token} {op : BinaryOp}
    (h : level.operator? t = some op) : strength t = level.strength := by
  have ht : Derives false (.choice level.operators) [t] := derives_operator h
  obtain ⟨t', _, ht', _, hstrength⟩ := operator_of_derives ht
  rw [List.cons.inj ht' |>.1, hstrength]

/-- No operator that needs a left operand begins an expression. -/
theorem not_needsLeft {level : Level} {t : Token} (h : Begins expressionTerminals [t]) :
    (level.operator? t).any needsLeft = false := by
  obtain ⟨k, hk, hterminal⟩ := h t rfl
  cases hop : level.operator? t with
  | none => rfl
  | some op =>
    unfold Level.operator? at hop
    split at hop <;> cases hop
    all_goals first
      | rfl
      | next hkind =>
        simp only [terminal?, hkind, Option.some.injEq] at hterminal
        subst hterminal
        simp [expressionTerminals, operandTerminals] at hk

theorem takes_binary {level : Level} {operand : Rule Expr} {good : Expr → Prop} {bound : Nat}
    (hbegins : Begins expressionTerminals w) (hne : w ≠ [])
    (h : Takes loop (operand >>= leftNested level.operator? operand .binary bound) w r good) :
    Takes loop (binary level bound operand) w r good := by
  obtain ⟨t, w, rfl⟩ := List.exists_cons_of_ne_nil hne
  refine takes_peek_cons ?_
  rw [not_needsLeft hbegins, if_neg (by decide)]
  exact h

theorem binds_binary {level : Level} {operand : Rule Expr} {size strength : Nat}
    {n m : Nonterminal} (hn : production n = .joined (.of m) level.operators)
    (hstarts : n.starts = expressionTerminals) (hfilled : (Phrase.of n).nullable = false)
    (hlevel : level.strength = strength + 1) (h : Binds loop size strength m operand) :
    Binds loop size (strength + 1) n (binary level size operand) := by
  have hstrong : strength + 1 ≤ 8 := by
    rw [← hlevel]
    cases level <;> decide
  have hjoined : Binds loop size (strength + 1) n
      (operand >>= leftNested level.operator? operand .binary size) := by
    refine binds_joined hn h (fun u hu => ?_) (fun t ht => ?_) hstrong
    · obtain ⟨t, op, rfl, hop, hsame⟩ := operator_of_derives hu
      exact ⟨t, op, rfl, hop, by omega⟩
    · cases hop : level.operator? t with
      | none => rfl
      | some op =>
        have := strength_of_operator hop
        omega
  refine ⟨fun w r hsize hw hr => ?_, fun w r hsize hw hr => ?_⟩
  · refine takes_binary ?_ ?_ (hjoined.takes w r hsize hw hr)
    · rw [← hstarts]
      exact begins_of_derives hw
    · exact List.ne_nil_of_length_pos (length_pos_of_derives hw hfilled)
  · refine takes_binary ((begins_target hw).mono ?_) ?_ (hjoined.target w r hsize hw hr)
    · exact List.Subset.trans (List.subset_cons_self _ _) (List.subset_cons_self _ _)
    · exact List.ne_nil_of_length_pos (length_pos_of_derives hw rfl)

theorem binds_logical {op : LogicalOp} {operand : Rule Expr} {size level : Nat}
    {n m : Nonterminal} (hn : production n = .joined (.of m) [.word op.keyword])
    (hlevel : ∀ line, strength ⟨.keyword op.keyword, line⟩ = level + 1) (hstrong : level + 1 ≤ 8)
    (h : Binds loop size level m operand) :
    Binds loop size (level + 1) n (logical op size operand) := by
  refine binds_joined hn h (fun u hu => ?_) (fun t ht => ?_) hstrong
  · obtain ⟨p, mem, hp⟩ := derives_choice.mp hu
    obtain rfl := List.mem_singleton.mp mem
    obtain ⟨⟨kind, line⟩, rfl, rfl, _⟩ := derives_word.mp hp
    exact ⟨_, op, rfl, if_pos (isWord_of_kind rfl), by rw [hlevel]; omega⟩
  · refine if_neg fun hword => ?_
    obtain ⟨kind, line⟩ := t
    obtain rfl := kind_of_isWord hword
    rw [hlevel] at ht
    omega

theorem binds_either (h : inner.Taking) : Binds loop inner.bound 7 .logicOr (either inner) := by
  have hfactor : Binds loop inner.bound 2 .factor (factor inner) :=
    binds_binary rfl rfl rfl rfl (binds_unary h)
  have hterm : Binds loop inner.bound 3 .term (term inner) := binds_binary rfl rfl rfl rfl hfactor
  have hcomparison : Binds loop inner.bound 4 .comparison (comparison inner) :=
    binds_binary rfl rfl rfl rfl hterm
  have hequality : Binds loop inner.bound 5 .equality (equality inner) :=
    binds_binary rfl rfl rfl rfl hcomparison
  have hboth : Binds loop inner.bound 6 .logicAnd (both inner) :=
    binds_logical rfl (fun _ => rfl) (by decide) hequality
  exact binds_logical rfl (fun _ => rfl) (by decide) hboth

theorem binds_conditional (h : inner.Taking) :
    Binds loop inner.bound 8 .conditional (conditional inner) where
  takes w r hsize hw hr := by
    obtain ⟨u, v, rfl, hu, hv⟩ := derives_pair.mp (derives_of.mp hw)
    rw [List.length_append] at hsize
    rcases derives_optional.mp hv with rfl | hv
    · refine Takes.use ((binds_either h).takes u _ (by omega) hu (hr.mono (by decide)))
        fun e _ => takes_accept_avoids ?_ takesUp_pure
      exact avoids_of_ends hr (by decide)
    · obtain ⟨q, v', rfl, hq, hv'⟩ := derives_cons.mp hv
      obtain ⟨e, x, rfl, he, hx⟩ := derives_cons.mp hv'
      obtain ⟨colon, f, rfl, hcolon, hf⟩ := derives_pair.mp hx
      have hmark : Ends 7 ((q ++ (e ++ (colon ++ f))) ++ r) := by
        rw [List.append_assoc]
        exact ends_of_symbol hq (by decide)
      have hends : Ends 10 ((colon ++ f) ++ r) := by
        rw [List.append_assoc]
        exact ends_of_symbol hcolon (by decide)
      have hpositive := length_pos_of_derives hq rfl
      simp only [List.length_append] at hsize
      refine Takes.use ((binds_either h).takes u _ (by omega) hu hmark) fun e _ => ?_
      refine takes_accept hq (Takes.use (h.expression he (by omega) hends) fun _ _ => ?_)
      refine Takes.use (takes_expect hcolon) fun _ _ => ?_
      have hinner : TakesUp loop (inner.read .conditional) f r :=
        h loop .conditional f r (by omega) hf hr
      exact hinner.last fun _ _ => takesUp_pure
  target w r hsize hw hr := by
    refine ((binds_either h).target w r hsize hw hr).last fun e he => ?_
    exact takes_accept_avoids (avoids_of_ends hr (by decide)) (takes_pure he)

theorem variable_or_get {e : Expr} (h : e.Assignable) :
    (∃ ref, e = .variable ref) ∨ ∃ object name, e = .get object name := by
  unfold Expr.Assignable at h
  split at h
  · next ref => exact .inl ⟨ref, rfl⟩
  · next object name => exact .inr ⟨object, name, rfl⟩
  · exact h.elim

theorem takes_assignTo {target value : Expr} {equals : Token} (h : target.Assignable) :
    TakesUp loop (assignTo target equals value) [] r := by
  rcases variable_or_get h with ⟨ref, rfl⟩ | ⟨object, name, rfl⟩
  · exact takesUp_freshId.skip fun _ _ => takesUp_pure
  · exact takesUp_pure

theorem takes_assignment (h : inner.Taking) :
    TakesAll loop inner.bound (Ends 9) (.of .assignment) (assignment inner) := by
  intro w r hsize hw hr
  obtain ⟨p, mem, hp⟩ := derives_choice.mp (derives_of.mp hw)
  simp only [List.mem_cons, List.not_mem_nil, or_false] at mem
  rcases mem with rfl | rfl
  · obtain ⟨path, w₁, rfl, hpath, hw₁⟩ := derives_cons.mp hp
    obtain ⟨name, w₂, rfl, hname, hw₂⟩ := derives_cons.mp hw₁
    obtain ⟨equal, v, rfl, hequal, hv⟩ := derives_pair.mp hw₂
    have htarget : Derives loop .target (path ++ name) :=
      derives_pair.mpr ⟨path, name, rfl, hpath, hname⟩
    have hends : Ends 8 ((equal ++ v) ++ r) := by
      rw [List.append_assoc]
      exact ends_of_symbol hequal (by decide)
    have hpositive := length_pos_of_derives hequal rfl
    obtain ⟨t, rfl, ht⟩ := derives_symbol.mp hequal
    simp only [List.length_append] at hsize
    rw [← List.append_assoc]
    have hlength : (path ++ name).length < inner.bound := by
      rw [List.length_append]
      omega
    refine Takes.use ((binds_conditional h).target _ _ hlength htarget hends) fun e he => ?_
    rw [List.singleton_append]
    refine takes_peek_cons ?_
    rw [if_pos (isSymbol_of_kind ht)]
    have hinner : TakesUp loop (inner.read .assignment) v r :=
      h loop .assignment v r (by omega) hv hr
    exact takes_advance fun _ => hinner.last fun value _ => takes_assignTo he
  · refine ((binds_conditional h).takes w r hsize hp (hr.mono (by decide))).last fun e _ => ?_
    have havoids : Avoids (isSymbol .equal) r := avoids_of_ends hr (by decide)
    refine takes_peek_avoids havoids isSymbol_eof fun t ht => ?_
    rw [if_neg (by simp [ht])]
    exact takesUp_pure

theorem takes_expression (h : inner.Taking) :
    TakesAll loop inner.bound (Ends 10) (.of .expression) (expression inner) := by
  intro w r hsize hw hr
  refine takes_operands (takes_assignment h) (fun u hu => ?_) (fun t ht => ?_) (by decide) hsize
    (derives_of.mp (derives_of.mp hw)) hr
  · obtain ⟨t, rfl, ht⟩ := derives_symbol.mp hu
    exact ⟨t, .comma, rfl, if_pos (isSymbol_of_kind ht), by simp [strength, ht]⟩
  · refine if_neg fun hsymbol => ?_
    simp [strength, kind_of_isSymbol hsymbol] at ht

end Grammar

end LoxLang
