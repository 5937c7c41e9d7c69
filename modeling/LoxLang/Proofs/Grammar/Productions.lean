import LoxLang.Lexical.Token

/-!
# Productions

The grammar of programs as data (`production`), and what its phrases derive (`Derives`). Of what
an EBNF does not say, phrases carry marks: how often a part may be repeated, and which parts are
bodies of loops and of functions. `Derives` is told whether a loop lies around within the same
function, without which there is no `break`.
-/

namespace LoxLang

namespace Grammar

/-! ## Phrases -/

/-- The left sides of the productions. -/
inductive Nonterminal
  | program
  | declaration
  | classDecl
  | traitDecl
  | traits
  | funDecl
  | function
  | parameters
  | varDecl
  | statement
  | exprStmt
  | printStmt
  | whileStmt
  | forStmt
  | ifStmt
  | block
  | returnStmt
  | breakStmt
  | expression
  | comma
  | assignment
  | conditional
  | logicOr
  | logicAnd
  | equality
  | comparison
  | term
  | factor
  | unary
  | call
  | arguments
  | primary
deriving Repr, DecidableEq

/-- The right sides of productions. A part that is repeated `many` times is so at most as often
as a limit says, if there is one. -/
inductive Phrase
  | symbol (symbol : Symbol)
  | word (word : Keyword)
  | name
  | number
  | text
  | of (nonterminal : Nonterminal)
  | seq (parts : List Phrase)
  | choice (alternatives : List Phrase)
  | optional (part : Phrase)
  | many (limit : Option Nat) (part : Phrase)
  | loopBody (part : Phrase)
  | functionBody (part : Phrase)
deriving Repr

/-- Items with commas between them, at most one more than a limit says. -/
def Phrase.listed (limit : Option Nat) (item : Phrase) : Phrase :=
  .seq [item, .many limit (.seq [.symbol .comma, item])]

/-- Operands with operators between them. -/
def Phrase.joined (operand : Phrase) (operators : List Phrase) : Phrase :=
  .seq [operand, .many none (.seq [.choice operators, operand])]

/-- The parameters of a function in parentheses, and its body. -/
def Phrase.callable : List Phrase :=
  [.symbol .leftParen, .optional (.of .parameters), .symbol .rightParen,
    .functionBody (.of .block)]

/-- What may be assigned to. -/
def Phrase.target : Phrase :=
  .seq [.optional (.seq [.of .call, .symbol .dot]), .name]

/-- The productions. -/
def production : Nonterminal → Phrase
  | .program => .many none (.of .declaration)
  | .declaration =>
    .choice [.of .classDecl, .of .traitDecl, .of .funDecl, .of .varDecl, .of .statement]
  | .classDecl =>
    .seq [.word .classWord, .name, .optional (.seq [.symbol .less, .name]),
      .optional (.seq [.word .withWord, .of .traits]), .symbol .leftBrace,
      .many none (.seq [.optional (.word .classWord), .of .function]), .symbol .rightBrace]
  | .traitDecl =>
    .seq [.word .traitWord, .name, .optional (.seq [.word .withWord, .of .traits]),
      .symbol .leftBrace, .many none (.of .function), .symbol .rightBrace]
  | .traits => .listed none .name
  | .funDecl => .seq [.word .funWord, .of .function]
  | .function => .seq (.name :: Phrase.callable)
  | .parameters => .listed (some 254) .name
  | .varDecl =>
    .seq [.word .varWord, .name, .optional (.seq [.symbol .equal, .of .expression]),
      .symbol .semicolon]
  | .statement =>
    .choice [.of .exprStmt, .of .printStmt, .of .whileStmt, .of .forStmt, .of .ifStmt,
      .of .block, .of .returnStmt, .of .breakStmt]
  | .exprStmt => .seq [.of .expression, .symbol .semicolon]
  | .printStmt => .seq [.word .printWord, .of .expression, .symbol .semicolon]
  | .whileStmt =>
    .seq [.word .whileWord, .symbol .leftParen, .of .expression, .symbol .rightParen,
      .loopBody (.of .statement)]
  | .forStmt =>
    .seq [.word .forWord, .symbol .leftParen,
      .choice [.of .varDecl, .of .exprStmt, .symbol .semicolon], .optional (.of .expression),
      .symbol .semicolon, .optional (.of .expression), .symbol .rightParen,
      .loopBody (.of .statement)]
  | .ifStmt =>
    .seq [.word .ifWord, .symbol .leftParen, .of .expression, .symbol .rightParen, .of .statement,
      .optional (.seq [.word .elseWord, .of .statement])]
  | .block => .seq [.symbol .leftBrace, .many none (.of .declaration), .symbol .rightBrace]
  | .returnStmt => .seq [.word .returnWord, .optional (.of .expression), .symbol .semicolon]
  | .breakStmt => .seq [.word .breakWord, .symbol .semicolon]
  | .expression => .of .comma
  | .comma => .listed none (.of .assignment)
  | .assignment =>
    .choice [.seq [.optional (.seq [.of .call, .symbol .dot]), .name, .symbol .equal,
      .of .assignment], .of .conditional]
  | .conditional =>
    .seq [.of .logicOr, .optional (.seq [.symbol .questionMark, .of .expression, .symbol .colon,
      .of .conditional])]
  | .logicOr => .joined (.of .logicAnd) [.word .orWord]
  | .logicAnd => .joined (.of .equality) [.word .andWord]
  | .equality => .joined (.of .comparison) [.symbol .bangEqual, .symbol .equalEqual]
  | .comparison =>
    .joined (.of .term) [.symbol .greater, .symbol .greaterEqual, .symbol .less,
      .symbol .lessEqual]
  | .term => .joined (.of .factor) [.symbol .minus, .symbol .plus]
  | .factor => .joined (.of .unary) [.symbol .slash, .symbol .star]
  | .unary =>
    .choice [.seq [.choice [.symbol .bang, .symbol .minus], .of .unary], .of .call]
  | .call =>
    .seq [.of .primary, .many none (.choice [.seq [.symbol .leftParen, .optional (.of .arguments),
      .symbol .rightParen], .seq [.symbol .dot, .name]])]
  | .arguments => .listed (some 254) (.of .assignment)
  | .primary =>
    .choice [.number, .text, .word .trueWord, .word .falseWord, .word .nilWord, .word .thisWord,
      .seq [.word .superWord, .symbol .dot, .name], .name,
      .seq [.symbol .leftParen, .of .expression, .symbol .rightParen],
      .seq (.word .funWord :: Phrase.callable)]

/-! ## Derivations -/

/-- The tokens that a phrase derives, in a place that is within a loop of the same function or
is not. -/
inductive Derives : Bool → Phrase → List Token → Prop
  | symbol {loop : Bool} {s : Symbol} {t : Token} (kind : t.kind = .symbol s) :
      Derives loop (.symbol s) [t]
  | word {loop : Bool} {k : Keyword} {t : Token} (kind : t.kind = .keyword k)
      (within : k = .breakWord → loop = true) : Derives loop (.word k) [t]
  | name {loop : Bool} {n : String} {t : Token} (kind : t.kind = .identifier n) :
      Derives loop .name [t]
  | number {loop : Bool} {spelling : String} {value : Float} {t : Token}
      (kind : t.kind = .number spelling value) : Derives loop .number [t]
  | text {loop : Bool} {quote : Quote} {contents : String} {t : Token}
      (kind : t.kind = .text quote contents) : Derives loop .text [t]
  | of {loop : Bool} {n : Nonterminal} {w : List Token} (h : Derives loop (production n) w) :
      Derives loop (.of n) w
  | nil {loop : Bool} : Derives loop (.seq []) []
  | cons {loop : Bool} {p : Phrase} {ps : List Phrase} {w v : List Token}
      (first : Derives loop p w) (rest : Derives loop (.seq ps) v) :
      Derives loop (.seq (p :: ps)) (w ++ v)
  | choice {loop : Bool} {p : Phrase} {ps : List Phrase} {w : List Token} (mem : p ∈ ps)
      (h : Derives loop p w) : Derives loop (.choice ps) w
  | absent {loop : Bool} {p : Phrase} : Derives loop (.optional p) []
  | present {loop : Bool} {p : Phrase} {w : List Token} (h : Derives loop p w) :
      Derives loop (.optional p) w
  | done {loop : Bool} {limit : Option Nat} {p : Phrase} : Derives loop (.many limit p) []
  | again {loop : Bool} {limit : Option Nat} {p : Phrase} {w v : List Token}
      (room : limit ≠ some 0) (first : Derives loop p w)
      (rest : Derives loop (.many (limit.map (· - 1)) p) v) : Derives loop (.many limit p) (w ++ v)
  | loopBody {loop : Bool} {p : Phrase} {w : List Token} (h : Derives true p w) :
      Derives loop (.loopBody p) w
  | functionBody {loop : Bool} {p : Phrase} {w : List Token} (h : Derives false p w) :
      Derives loop (.functionBody p) w

section

variable {loop : Bool} {w : List Token} {p : Phrase} {ps : List Phrase}

theorem derives_symbol {s : Symbol} :
    Derives loop (.symbol s) w ↔ ∃ t, w = [t] ∧ t.kind = .symbol s := by
  refine ⟨fun h => ?_, ?_⟩
  · cases h with
    | symbol kind => exact ⟨_, rfl, kind⟩
  · rintro ⟨t, rfl, kind⟩
    exact .symbol kind

theorem derives_word {k : Keyword} :
    Derives loop (.word k) w ↔
      ∃ t, w = [t] ∧ t.kind = .keyword k ∧ (k = .breakWord → loop = true) := by
  refine ⟨fun h => ?_, ?_⟩
  · cases h with
    | word kind within => exact ⟨_, rfl, kind, within⟩
  · rintro ⟨t, rfl, kind, within⟩
    exact .word kind within

theorem derives_name :
    Derives loop .name w ↔ ∃ t n, w = [t] ∧ t.kind = .identifier n := by
  refine ⟨fun h => ?_, ?_⟩
  · cases h with
    | name kind => exact ⟨_, _, rfl, kind⟩
  · rintro ⟨t, n, rfl, kind⟩
    exact .name kind

theorem derives_of {n : Nonterminal} : Derives loop (.of n) w ↔ Derives loop (production n) w := by
  refine ⟨fun h => ?_, .of⟩
  cases h with
  | of h => exact h

theorem derives_nil : Derives loop (.seq []) w ↔ w = [] := by
  refine ⟨fun h => ?_, ?_⟩
  · cases h with
    | nil => rfl
  · rintro rfl
    exact .nil

theorem derives_cons :
    Derives loop (.seq (p :: ps)) w ↔
      ∃ u v, w = u ++ v ∧ Derives loop p u ∧ Derives loop (.seq ps) v := by
  refine ⟨fun h => ?_, ?_⟩
  · cases h with
    | cons first rest => exact ⟨_, _, rfl, first, rest⟩
  · rintro ⟨u, v, rfl, first, rest⟩
    exact .cons first rest

theorem derives_single : Derives loop (.seq [p]) w ↔ Derives loop p w := by
  rw [derives_cons]
  refine ⟨?_, fun h => ⟨w, [], by simp, h, .nil⟩⟩
  rintro ⟨u, v, rfl, first, rest⟩
  rw [derives_nil] at rest
  rwa [rest, List.append_nil]

theorem derives_pair {q : Phrase} :
    Derives loop (.seq [p, q]) w ↔
      ∃ u v, w = u ++ v ∧ Derives loop p u ∧ Derives loop q v := by
  rw [derives_cons]
  simp only [derives_single]

theorem derives_choice : Derives loop (.choice ps) w ↔ ∃ p ∈ ps, Derives loop p w := by
  refine ⟨fun h => ?_, ?_⟩
  · cases h with
    | choice mem h => exact ⟨_, mem, h⟩
  · rintro ⟨p, mem, h⟩
    exact .choice mem h

theorem derives_optional : Derives loop (.optional p) w ↔ w = [] ∨ Derives loop p w := by
  refine ⟨fun h => ?_, ?_⟩
  · cases h with
    | absent => exact .inl rfl
    | present h => exact .inr h
  · rintro (rfl | h)
    · exact .absent
    · exact .present h

theorem derives_loopBody : Derives loop (.loopBody p) w ↔ Derives true p w := by
  refine ⟨fun h => ?_, .loopBody⟩
  cases h with
  | loopBody h => exact h

theorem derives_functionBody : Derives loop (.functionBody p) w ↔ Derives false p w := by
  refine ⟨fun h => ?_, .functionBody⟩
  cases h with
  | functionBody h => exact h

theorem derives_many {limit : Option Nat} :
    Derives loop (.many limit p) w ↔
      w = [] ∨ ∃ u v, w = u ++ v ∧ limit ≠ some 0 ∧ Derives loop p u ∧
        Derives loop (.many (limit.map (· - 1)) p) v := by
  refine ⟨fun h => ?_, ?_⟩
  · cases h with
    | done => exact .inl rfl
    | again room first rest => exact .inr ⟨_, _, rfl, room, first, rest⟩
  · rintro (rfl | ⟨u, v, rfl, room, first, rest⟩)
    · exact .done
    · exact .again room first rest

/-- The end mark is no part of what is derived. -/
theorem Derives.ne_eof (h : Derives loop p w) : ∀ t ∈ w, t.kind ≠ .eof := by
  induction h with
  | symbol kind => simp [kind]
  | word kind _ => simp [kind]
  | name kind => simp [kind]
  | number kind => simp [kind]
  | text kind => simp [kind]
  | of _ ih => exact ih
  | nil => simp
  | cons _ _ first rest =>
    intro t ht
    exact (List.mem_append.mp ht).elim (first t) (rest t)
  | choice _ _ ih => exact ih
  | absent => simp
  | present _ ih => exact ih
  | done => simp
  | again _ _ _ first rest =>
    intro t ht
    exact (List.mem_append.mp ht).elim (first t) (rest t)
  | loopBody _ ih => exact ih
  | functionBody _ ih => exact ih

/-- What is derived outside of loops is derived within them. -/
theorem Derives.within (h : Derives loop p w) : Derives true p w := by
  induction h with
  | symbol kind => exact .symbol kind
  | word kind _ => exact .word kind fun _ => rfl
  | name kind => exact .name kind
  | number kind => exact .number kind
  | text kind => exact .text kind
  | of _ ih => exact .of ih
  | nil => exact .nil
  | cons _ _ first rest => exact .cons first rest
  | choice mem _ ih => exact .choice mem ih
  | absent => exact .absent
  | present _ ih => exact .present ih
  | done => exact .done
  | again room _ _ first rest => exact .again room first rest
  | loopBody _ ih => exact .loopBody ih
  | functionBody h _ => exact .functionBody h

end

end Grammar

end LoxLang
