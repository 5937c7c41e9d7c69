import LoxLang.Grammar.Cursor
import LoxLang.Proofs.Grammar.Productions

/-!
# How phrases begin

Rules decide by the token at the cursor, and once by the one behind it, how to read on. Whether
they decide right depends on the tokens with which what a phrase derives can begin. These are
computed for phrases, with a table for the nonterminals that the productions respect.
-/

namespace LoxLang

namespace Grammar

/-! ## Terminals -/

/-- What the grammar tells apart of tokens. -/
inductive Terminal
  | symbol (symbol : Symbol)
  | word (word : Keyword)
  | name
  | number
  | text
deriving Repr, DecidableEq

/-- The terminal of a token; the end mark has none. -/
def terminal? (t : Token) : Option Terminal :=
  match t.kind with
  | .symbol s => some (.symbol s)
  | .keyword k => some (.word k)
  | .identifier _ => some .name
  | .number _ _ => some .number
  | .text _ _ => some .text
  | .eof => none

/-- The terminals that an operand can begin with. -/
def operandTerminals : List Terminal :=
  [.number, .text, .word .trueWord, .word .falseWord, .word .nilWord, .word .thisWord,
    .word .superWord, .name, .symbol .leftParen, .word .funWord]

def expressionTerminals : List Terminal :=
  .symbol .bang :: .symbol .minus :: operandTerminals

def statementTerminals : List Terminal :=
  [.word .printWord, .word .whileWord, .word .forWord, .word .ifWord, .symbol .leftBrace,
    .word .returnWord, .word .breakWord] ++ expressionTerminals

def declarationTerminals : List Terminal :=
  [.word .classWord, .word .traitWord, .word .varWord] ++ statementTerminals

/-- The terminals that what a nonterminal derives can begin with. -/
def Nonterminal.starts : Nonterminal → List Terminal
  | .program => declarationTerminals
  | .declaration => declarationTerminals
  | .classDecl => [.word .classWord]
  | .traitDecl => [.word .traitWord]
  | .traits => [.name]
  | .funDecl => [.word .funWord]
  | .function => [.name]
  | .parameters => [.name]
  | .varDecl => [.word .varWord]
  | .statement => statementTerminals
  | .exprStmt => expressionTerminals
  | .printStmt => [.word .printWord]
  | .whileStmt => [.word .whileWord]
  | .forStmt => [.word .forWord]
  | .ifStmt => [.word .ifWord]
  | .block => [.symbol .leftBrace]
  | .returnStmt => [.word .returnWord]
  | .breakStmt => [.word .breakWord]
  | .expression => expressionTerminals
  | .comma => expressionTerminals
  | .assignment => expressionTerminals
  | .conditional => expressionTerminals
  | .logicOr => expressionTerminals
  | .logicAnd => expressionTerminals
  | .equality => expressionTerminals
  | .comparison => expressionTerminals
  | .term => expressionTerminals
  | .factor => expressionTerminals
  | .unary => expressionTerminals
  | .call => operandTerminals
  | .arguments => expressionTerminals
  | .primary => operandTerminals

/-! ## Phrases -/

mutual

/-- Whether a phrase may derive nothing. -/
def Phrase.nullable : Phrase → Bool
  | .symbol _ => false
  | .word _ => false
  | .name => false
  | .number => false
  | .text => false
  | .of n => n == .program
  | .seq ps => nullableSeq ps
  | .choice ps => nullableChoice ps
  | .optional _ => true
  | .many _ _ => true
  | .loopBody p => p.nullable
  | .functionBody p => p.nullable

def nullableSeq : List Phrase → Bool
  | [] => true
  | p :: ps => p.nullable && nullableSeq ps

def nullableChoice : List Phrase → Bool
  | [] => false
  | p :: ps => p.nullable || nullableChoice ps

end

mutual

/-- The terminals that what a phrase derives can begin with. -/
def Phrase.starts : Phrase → List Terminal
  | .symbol s => [.symbol s]
  | .word k => [.word k]
  | .name => [.name]
  | .number => [.number]
  | .text => [.text]
  | .of n => n.starts
  | .seq ps => startsSeq ps
  | .choice ps => startsChoice ps
  | .optional p => p.starts
  | .many _ p => p.starts
  | .loopBody p => p.starts
  | .functionBody p => p.starts

def startsSeq : List Phrase → List Terminal
  | [] => []
  | p :: ps => p.starts ++ if p.nullable then startsSeq ps else []

def startsChoice : List Phrase → List Terminal
  | [] => []
  | p :: ps => p.starts ++ startsChoice ps

end

theorem nullableChoice_of_mem {p : Phrase} {ps : List Phrase} (mem : p ∈ ps)
    (h : p.nullable = true) : nullableChoice ps = true := by
  induction ps with
  | nil => cases mem
  | cons q qs ih =>
    rw [nullableChoice, Bool.or_eq_true]
    rcases List.mem_cons.mp mem with rfl | mem
    · exact .inl h
    · exact .inr (ih mem)

theorem starts_subset_choice {p : Phrase} {ps : List Phrase} (mem : p ∈ ps) :
    p.starts ⊆ startsChoice ps := by
  induction ps with
  | nil => cases mem
  | cons q qs ih =>
    rw [startsChoice]
    rcases List.mem_cons.mp mem with rfl | mem
    · exact List.subset_append_left _ _
    · exact List.Subset.trans (ih mem) (List.subset_append_right _ _)

theorem nullable_of_production {n : Nonterminal} (h : (production n).nullable = true) :
    (n == .program) = true := by
  cases n <;> first | rfl | cases h

theorem starts_production (n : Nonterminal) : (production n).starts ⊆ n.starts := by
  have hall : ∀ k ∈ (production n).starts, k ∈ n.starts := by
    cases n <;> decide
  exact fun k hk => hall k hk

variable {loop : Bool} {p : Phrase} {w : List Token}

theorem nullable_of_derives (h : Derives loop p w) : w = [] → p.nullable = true := by
  induction h with
  | symbol => simp
  | word => simp
  | name => simp
  | number => simp
  | text => simp
  | of _ ih => exact fun hw => nullable_of_production (ih hw)
  | nil => exact fun _ => rfl
  | cons _ _ first rest =>
    intro hw
    obtain ⟨hw, hv⟩ := List.append_eq_nil_iff.mp hw
    exact Bool.and_eq_true _ _ ▸ ⟨first hw, rest hv⟩
  | choice mem _ ih => exact fun hw => nullableChoice_of_mem mem (ih hw)
  | absent => exact fun _ => rfl
  | present => exact fun _ => rfl
  | done => exact fun _ => rfl
  | again => exact fun _ => rfl
  | loopBody _ ih => exact ih
  | functionBody _ ih => exact ih

/-- Where tokens begin with one of some terminals, if there are any. -/
def Begins (ks : List Terminal) (w : List Token) : Prop :=
  ∀ t ∈ w.head?, ∃ k ∈ ks, terminal? t = some k

theorem Begins.mono {ks ks' : List Terminal} (h : Begins ks w) (hks : ks ⊆ ks') :
    Begins ks' w := by
  intro t ht
  obtain ⟨k, hk, hterminal⟩ := h t ht
  exact ⟨k, hks hk, hterminal⟩

theorem begins_single {k : Terminal} {t : Token} (h : terminal? t = some k) : Begins [k] [t] := by
  intro t' ht'
  obtain rfl := Option.some.inj ht'
  exact ⟨k, by simp, h⟩

theorem begins_nil {ks : List Terminal} : Begins ks [] := by
  intro t ht
  cases ht

/-- Two parts begin as the first one does, or as the second one if the first may be empty. -/
theorem Begins.seq {q : Phrase} {ks : List Terminal} {u v : List Token} (hu : Derives loop q u)
    (h : Begins q.starts u) (h' : Begins ks v) :
    Begins (q.starts ++ if q.nullable then ks else []) (u ++ v) := by
  cases u with
  | nil =>
    rw [if_pos (nullable_of_derives hu rfl)]
    exact h'.mono (List.subset_append_right _ _)
  | cons a u => exact Begins.mono h (List.subset_append_left _ _)

theorem begins_of_derives (h : Derives loop p w) : Begins p.starts w := by
  induction h with
  | symbol kind => exact begins_single (by rw [terminal?, kind])
  | word kind => exact begins_single (by rw [terminal?, kind])
  | name kind => exact begins_single (by rw [terminal?, kind])
  | number kind => exact begins_single (by rw [terminal?, kind])
  | text kind => exact begins_single (by rw [terminal?, kind])
  | @of _ n _ _ ih => exact ih.mono (starts_production n)
  | nil => exact begins_nil
  | cons hw _ first rest => exact first.seq hw rest
  | choice mem _ ih => exact ih.mono (starts_subset_choice mem)
  | absent => exact begins_nil
  | present _ ih => exact ih
  | done => exact begins_nil
  | again _ hw _ first rest =>
    refine (first.seq hw rest).mono ?_
    simp only [Phrase.starts]
    split <;> simp
  | loopBody _ ih => exact ih
  | functionBody _ ih => exact ih

theorem terminal?_of_isSymbol {s : Symbol} {t : Token} (h : isSymbol s t = true) :
    terminal? t = some (.symbol s) := by
  unfold isSymbol at h
  split at h
  · next hkind => rw [terminal?, hkind, beq_iff_eq.mp h]
  · cases h

theorem terminal?_of_isWord {k : Keyword} {t : Token} (h : isWord k t = true) :
    terminal? t = some (.word k) := by
  unfold isWord at h
  split at h
  · next hkind => rw [terminal?, hkind, beq_iff_eq.mp h]
  · cases h

/-- Another terminal than those that tokens begin with is not the first of them. -/
theorem Begins.terminal_ne {ks : List Terminal} {k : Terminal} {t : Token} (h : Begins ks w)
    (ht : t ∈ w.head?) (hk : k ∉ ks) : terminal? t ≠ some k := by
  obtain ⟨k', hk', hterminal⟩ := h t ht
  rw [hterminal]
  rintro hsame
  exact hk (Option.some.inj hsame ▸ hk')

theorem Begins.isSymbol {ks : List Terminal} {s : Symbol} {t : Token} (h : Begins ks w)
    (ht : t ∈ w.head?) (hs : .symbol s ∉ ks) : isSymbol s t = false :=
  Bool.eq_false_iff.mpr fun hsymbol => h.terminal_ne ht hs (terminal?_of_isSymbol hsymbol)

theorem Begins.isWord {ks : List Terminal} {k : Keyword} {t : Token} (h : Begins ks w)
    (ht : t ∈ w.head?) (hk : .word k ∉ ks) : isWord k t = false :=
  Bool.eq_false_iff.mpr fun hword => h.terminal_ne ht hk (terminal?_of_isWord hword)

/-! ## The second token -/

/-- Whether phrases in a row begin with `fun` and a symbol. -/
def opensLambda : List Phrase → Bool
  | .word .funWord :: .symbol _ :: _ => true
  | _ => false

mutual

/-- Whether nothing that a phrase derives begins with `fun` unless a symbol is next. -/
def Phrase.nameless : Phrase → Bool
  | .symbol _ => true
  | .word k => k != .funWord
  | .name => true
  | .number => true
  | .text => true
  | .of n => !([.program, .declaration, .funDecl].contains n)
  | .seq ps => namelessSeq ps
  | .choice ps => namelessChoice ps
  | .optional p => p.nameless
  | .many _ p => p.nameless
  | .loopBody p => p.nameless
  | .functionBody p => p.nameless

def namelessSeq : List Phrase → Bool
  | [] => true
  | p :: ps => opensLambda (p :: ps) || (p.nameless && (!p.nullable || namelessSeq ps))

def namelessChoice : List Phrase → Bool
  | [] => true
  | p :: ps => p.nameless && namelessChoice ps

end

/-- Behind a `fun` in front stands a symbol. -/
def Nameless (w : List Token) : Prop :=
  ∀ t v, w = t :: v → t.kind = .keyword .funWord → ∃ t' ∈ v.head?, ∃ s, t'.kind = .symbol s

theorem nameless_production {n : Nonterminal} (h : (Phrase.of n).nameless = true) :
    (production n).nameless = true := by
  cases n <;> first | rfl | cases h

theorem nameless_of_mem {ps : List Phrase} (h : namelessChoice ps = true) (mem : p ∈ ps) :
    p.nameless = true := by
  induction ps with
  | nil => cases mem
  | cons q qs ih =>
    rw [namelessChoice, Bool.and_eq_true] at h
    rcases List.mem_cons.mp mem with rfl | mem
    · exact h.1
    · exact ih h.2 mem

theorem nameless_nil : Nameless [] := by
  rintro t v h
  cases h

theorem nameless_single {t : Token} (h : t.kind ≠ .keyword .funWord) : Nameless [t] := by
  rintro t' v hw hkind
  cases hw
  exact absurd hkind h

theorem Nameless.append {u v : List Token} (h : Nameless u) (h' : u = [] → Nameless v) :
    Nameless (u ++ v) := by
  cases u with
  | nil => exact h' rfl
  | cons a u =>
    rintro t v' hw hkind
    cases hw
    obtain ⟨t', ht', hsymbol⟩ := h _ u rfl hkind
    have hnext : (u ++ v).head? = some t' := by
      rw [List.head?_append, Option.mem_def.mp ht', Option.some_or]
    exact ⟨t', hnext, hsymbol⟩

/-- A function without a name. -/
theorem nameless_of_opensLambda {ps : List Phrase} (h : Derives loop (.seq ps) w)
    (hps : opensLambda ps = true) : Nameless w := by
  unfold opensLambda at hps
  split at hps
  · obtain ⟨u, v, rfl, hu, hv⟩ := derives_cons.mp h
    obtain ⟨u', v', rfl, hu', _⟩ := derives_cons.mp hv
    obtain ⟨t, rfl, _⟩ := derives_word.mp hu
    obtain ⟨t', rfl, hkind'⟩ := derives_symbol.mp hu'
    rintro a b hw _
    cases hw
    exact ⟨t', rfl, _, hkind'⟩
  · cases hps

theorem nameless_of_derives (h : Derives loop p w) : p.nameless = true → Nameless w := by
  induction h with
  | symbol kind => exact fun _ => nameless_single (by simp [kind])
  | word kind =>
    refine fun hp => nameless_single ?_
    rw [kind]
    rintro hk
    cases hk
    cases hp
  | name kind => exact fun _ => nameless_single (by simp [kind])
  | number kind => exact fun _ => nameless_single (by simp [kind])
  | text kind => exact fun _ => nameless_single (by simp [kind])
  | of _ ih => exact fun hp => ih (nameless_production hp)
  | nil => exact fun _ => nameless_nil
  | @cons _ q qs u v hu hv first rest =>
    intro hp
    rw [Phrase.nameless, namelessSeq, Bool.or_eq_true] at hp
    rcases hp with hlambda | hp
    · exact nameless_of_opensLambda (.cons hu hv) hlambda
    rw [Bool.and_eq_true, Bool.or_eq_true] at hp
    refine (first hp.1).append fun hempty => rest (hp.2.resolve_left ?_)
    rw [nullable_of_derives hu hempty]
    decide
  | choice mem _ ih => exact fun hp => ih (nameless_of_mem hp mem)
  | absent => exact fun _ => nameless_nil
  | present _ ih => exact ih
  | done => exact fun _ => nameless_nil
  | again _ _ _ first rest => exact fun hp => (first hp).append fun _ => rest hp
  | loopBody _ ih => exact ih
  | functionBody _ ih => exact ih

end Grammar

end LoxLang
