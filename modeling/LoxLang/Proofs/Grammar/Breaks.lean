import LoxLang.Proofs.Grammar.Counting
import LoxLang.Proofs.Grammar.Derivable

/-!
# Where a `break` belongs

A `break` belongs to a loop whose body is being read, if no function was entered within it. This
can be told from the bodies being read (`InLoop`), without a count: `lexicalAt` is told of them
wherever it comes back to a category, and of nothing else. The rules of the grammar count loops
instead, which comes to the same for all tokens, and leaves every function that reads with the count
it began with (`breaks_are_lexical`).
-/

namespace LoxLang

namespace Grammar

variable {α β : Type}

/-! ## Bodies being read -/

/-- What a `break` belongs to, or cannot leave. -/
inductive Body
  | loop
  | function
deriving DecidableEq

/-- There is a loop within the innermost function. The innermost body comes first. -/
def InLoop (bodies : List Body) : Prop :=
  .loop ∈ bodies.takeWhile (· ≠ .function)

instance (bodies : List Body) : Decidable (InLoop bodies) :=
  inferInstanceAs (Decidable (_ ∈ _))

/-- The number of loops within the innermost function. -/
def loopsIn : List Body → Nat
  | .loop :: outer => loopsIn outer + 1
  | _ => 0

theorem inLoop_iff (bodies : List Body) : InLoop bodies ↔ loopsIn bodies ≠ 0 := by
  unfold InLoop
  cases bodies with
  | nil => simp [loopsIn]
  | cons body outer => cases body <;> simp [loopsIn]

example : InLoop [.loop, .function] ∧ ¬InLoop [.function, .loop] := by decide

theorem loopsIn_replicate (depth : Nat) : loopsIn (List.replicate depth .loop) = depth := by
  induction depth with
  | zero => rfl
  | succ depth ih => exact congrArg (· + 1) ih

/-- The body that a part is, where a category begins with a given token: a statement is the body of
a loop behind the word of one, and declarations are those of a function unless they are those of a
block. -/
def bodyOf (whole : Category) (first : Token) : Category → Option Body
  | .statement => if isWord .whileWord first || isWord .forWord first then some .loop else none
  | .declaration =>
    if (whole = .statement ∨ whole = .declaration) ∧ isSymbol .leftBrace first then none
    else some .function
  | _ => none

/-! ## Reading by the bodies -/

/-- A `break` behind its word. -/
def breakAmong (bodies : List Body) (word : Token) : Rule Stmt := do
  if InLoop bodies then
    let _ ← expect .breakEnd
    return .breakLoop word.line
  else throw ⟨word, .strayBreak⟩

/-- A `break`, or something else. -/
def breakOr (bodies : List Body) (other : Rule Stmt) : Rule Stmt := do
  let token ← peek
  if isWord .breakWord token then
    advance
    breakAmong bodies token
  else other

/-- The rule of each category, but for `break`. -/
def lexicalRule (bodies : List Body) (inner : Rules) :
    (category : Category) → Rule category.Found
  | .statement => breakOr bodies (statement inner)
  | .declaration => recover (breakOr bodies (strictDeclaration inner))
  | .expression => expression inner
  | .assignment => assignment inner
  | .conditional => conditional inner
  | .unary => unary inner

/-- What reads among any bodies, for the parts of a category that begins with a given token. -/
def Rules.among (bound : Nat) (reads : List Body → (category : Category) → Rule category.Found)
    (bodies : List Body) (whole : Category) (first : Token) : Rules where
  bound := bound
  read part := reads ((bodyOf whole first part).toList ++ bodies) part

/-- Each category as it is read among bodies, with a budget. -/
def lexicalAt : Nat → List Body → (category : Category) → Rule category.Found
  | 0, _, _ => failHere .missingExpression
  | budget + 1, bodies, category => fun c =>
    lexicalRule bodies (.among (budget + 1) (lexicalAt budget) bodies category c.peek) category c

/-- Declarations up to the end. -/
def lexicalDeclarations (budget : Nat) (bodies : List Body) : Nat → Rule (List Stmt)
  | 0 => return []
  | more + 1 => do
    if ← atEnd then return []
    else
      let first ← lexicalAt budget bodies .declaration
      return first.toList ++ (← lexicalDeclarations budget bodies more)

/-- A whole program, which is in no body. -/
def lexicalProgram (budget : Nat) : Rule (List Stmt) :=
  lexicalDeclarations budget [] budget

/-- An expression with nothing behind it. -/
def lexicalExpression (budget : Nat) (bodies : List Body) : Rule Expr := do
  let e ← lexicalAt budget bodies .expression
  if ← atEnd then return e
  else failHere .missingEnd

/-! ## Counting comes to the same -/

section

variable {c : Cursor} {depth : Nat} {bodies : List Body}

/-- What is seen from the cursor is seen whatever is counted. -/
theorem AlikeAt.look {look : Rule α} {a : α} {next next' : α → Rule β}
    (hlook : ∀ k, look (c.counting k) = .ok a (c.counting k))
    (h : AlikeAt c (next a) (next' a)) : AlikeAt c (look >>= next) (look >>= next') := by
  have hhere : look c = .ok a c := hlook c.loopDepth
  cases h with
  | ok run keeps same =>
    exact .ok ((bind_of_ok hhere).trans run) keeps fun k => (bind_of_ok (hlook k)).trans (same k)
  | error run keeps same =>
    exact .error ((bind_of_ok hhere).trans run) keeps fun k =>
      (bind_of_ok (hlook k)).trans (same k)

/-- What rules come to at the cursor is all that counts. -/
theorem AlikeAt.congr {rule rule' other other' : Rule α} (h : AlikeAt c other other')
    (hrun : rule c = other c) (hrun' : ∀ k, rule' (c.counting k) = other' (c.counting k)) :
    AlikeAt c rule rule' := by
  cases h with
  | ok run keeps same => exact .ok (hrun.trans run) keeps fun k => (hrun' k).trans (same k)
  | error run keeps same => exact .error (hrun.trans run) keeps fun k => (hrun' k).trans (same k)

theorem AlikeAt.peek {next next' : Token → Rule β} (h : AlikeAt c (next c.peek) (next' c.peek)) :
    AlikeAt c (Grammar.peek >>= next) (Grammar.peek >>= next') :=
  .look (fun _ => rfl) h

/-- A word is stepped over, or another way is taken. -/
theorem AlikeAt.acceptWord {next next' : Bool → Rule β} (word : Keyword) (hc : c.loopDepth = depth)
    (found : isWord word c.peek = true → Alike depth (next true) (next' true))
    (other : AlikeAt c (next false) (next' false)) :
    AlikeAt c (acceptWord word >>= next) (acceptWord word >>= next') := by
  unfold Grammar.acceptWord
  simp only [bind_assoc]
  refine .peek ?_
  cases hword : isWord word c.peek with
  | true => exact alike_advance.use (fun _ => found hword) c hc
  | false => exact other

theorem atNamedFunction_counting (c : Cursor) : ∃ found,
    (∀ k, atNamedFunction (c.counting k) = .ok found (c.counting k)) ∧
      (found = true → isWord .funWord c.peek = true) := by
  have hsame (k : Nat) : atNamedFunction (c.counting k) =
      match atNamedFunction c with
      | .ok found _ => .ok found (c.counting k)
      | .error problem _ => .error problem (c.counting k) := by
    simp only [atNamedFunction, Cursor.counting]
    split <;> rfl
  have hlook : ∃ found, atNamedFunction c = .ok found c ∧
      (found = true → isWord .funWord c.peek = true) := by
    unfold atNamedFunction Cursor.peek
    split
    · next hrest => exact ⟨true, rfl, fun _ => by simp [hrest, isWord]⟩
    · exact ⟨false, rfl, nofun⟩
  obtain ⟨found, hlook, hword⟩ := hlook
  exact ⟨found, fun k => by rw [hsame, hlook], hword⟩

theorem not_isSymbol_of_isWord {word : Keyword} {t : Token} (h : isWord word t = true)
    (symbol : Symbol) : isSymbol symbol t = false := by
  simp [isSymbol, kind_of_isWord h]

/-- A count of the loops tells whether there is one. -/
theorem alike_breakLoop (bodies : List Body) (word : Token) :
    Alike (loopsIn bodies) (breakLoop word) (breakAmong bodies word) := by
  intro c hc
  have hrun : breakLoop word c =
      (if c.loopDepth = 0 then throw ⟨word, .strayBreak⟩
      else do
        let _ ← expect .breakEnd
        return .breakLoop word.line : Rule Stmt) c := rfl
  unfold breakAmong
  by_cases hloop : InLoop bodies
  · rw [if_pos hloop]
    rw [if_neg (by rw [hc]; exact (inLoop_iff bodies).mp hloop)] at hrun
    exact ((alike_expect _).use (fun _ => alike_pure _) c hc).congr hrun fun _ => rfl
  · rw [if_neg hloop]
    rw [if_pos (by rw [hc]; exact Decidable.not_not.mp (mt (inLoop_iff bodies).mpr hloop))] at hrun
    exact (alike_throw _ c hc).congr hrun fun _ => rfl

/-- What `break` is told from by its word. -/
theorem breakOr_eq (bodies : List Body) (other : Rule Stmt) (c : Cursor) :
    breakOr bodies other c =
      if isWord .breakWord c.peek = true then (advance >>= fun _ => breakAmong bodies c.peek) c
      else other c := by
  show (if isWord .breakWord c.peek = true then advance >>= fun _ => breakAmong bodies c.peek
    else other) c = _
  split <;> rfl

theorem alikeAt_breakOr {rule other : Rule Stmt} (hc : c.loopDepth = loopsIn bodies)
    (here : isWord .breakWord c.peek = true →
      rule c = (advance >>= fun _ => breakLoop c.peek) c)
    (elsewhere : isWord .breakWord c.peek = false → AlikeAt c rule other) :
    AlikeAt c rule (breakOr bodies other) := by
  have hrun (k : Nat) := breakOr_eq bodies other (c.counting k)
  cases hword : isWord .breakWord c.peek with
  | true =>
    have hbreak := alike_advance.use (fun _ => alike_breakLoop bodies c.peek) c hc
    exact hbreak.congr (here hword) fun k => (hrun k).trans (if_pos hword)
  | false =>
    refine (elsewhere hword).congr rfl fun k => (hrun k).trans (if_neg ?_)
    exact Bool.eq_false_iff.mp hword

section

variable {inner inner' : Rules}

theorem statement_of_break (h : isWord .breakWord c.peek = true) :
    statement inner c = (advance >>= fun _ => breakLoop c.peek) c ∧
      strictDeclaration inner c = (advance >>= fun _ => breakLoop c.peek) c := by
  obtain ⟨rest, endLine, depth, nextId, problems⟩ := c
  have hkind := kind_of_isWord h
  cases rest with
  | nil => cases hkind
  | cons token rest =>
    obtain ⟨kind, line⟩ := token
    obtain rfl : kind = .keyword .breakWord := hkind
    exact ⟨rfl, rfl⟩

/-- What the parts of a statement have to be read like: those of a block as what is around, those of
anything else that is declared as within a function, and the body of a loop with one loop more
around. -/
structure Rules.AlikeFrom (first : Token) (depth : Nat) (inner inner' : Rules) : Prop where
  bound : inner'.bound = inner.bound
  block : isSymbol .leftBrace first = true →
    Grammar.Alike depth (inner.read .declaration) (inner'.read .declaration)
  other : isSymbol .leftBrace first = false → inner.Alike depth inner'
  loop : (isWord .whileWord first || isWord .forWord first) = true →
    Grammar.Alike (depth + 1) (inner.read .statement) (inner'.read .statement)
  branch : (isWord .whileWord first || isWord .forWord first) = false →
    Grammar.Alike depth (inner.read .statement) (inner'.read .statement)

theorem alikeAt_statement (hc : c.loopDepth = depth) (hbreak : isWord .breakWord c.peek = false)
    (h : inner.AlikeFrom c.peek depth inner') : AlikeAt c (statement inner) (statement inner') := by
  have hword : ∀ {rule rule' : Rule Stmt}, Alike depth rule rule' →
      AlikeAt c (advance >>= fun _ => rule) (advance >>= fun _ => rule') :=
    fun hrule => alike_advance.use (fun _ => hrule) c hc
  refine .peek ?_
  generalize c.peek = first at *
  -- The word in front decides which categories are read within it, and how many loops are around
  -- them.
  split
  · next hkind => simp [isWord, hkind] at hbreak
  · next hkind =>
    exact hword (alike_forStatement (h.other (by simp [isSymbol, hkind]))
      (h.loop (by simp [isWord, hkind])))
  · next hkind =>
    exact hword (alike_ifStatement (h.other (by simp [isSymbol, hkind]))
      (h.branch (by simp [isWord, hkind])))
  · next hkind =>
    exact hword (alike_whileStatement (h.other (by simp [isSymbol, hkind]))
      (h.loop (by simp [isWord, hkind])))
  · next hkind => exact hword (alike_returnStatement (h.other (by simp [isSymbol, hkind])) _)
  · next hkind =>
    have hblock := alike_block h.bound (h.block (by simp [isSymbol, hkind]))
    exact hword (hblock.use fun body => alike_pure _)
  · next hkind => exact hword (alike_printStatement (h.other (by simp [isSymbol, hkind])))
  · next hbrace _ =>
    have hother : isSymbol .leftBrace first = false :=
      Bool.eq_false_iff.mpr fun h => hbrace (kind_of_isSymbol h)
    exact alike_expressionStatement (alike_expression (h.other hother)) c hc

theorem alikeAt_strictDeclaration (hc : c.loopDepth = depth)
    (hbreak : isWord .breakWord c.peek = false) (h : inner.AlikeFrom c.peek depth inner') :
    AlikeAt c (strictDeclaration inner) (strictDeclaration inner') := by
  have hword : ∀ {word : Keyword}, isWord word c.peek = true → inner.Alike depth inner' :=
    fun hword => h.other (not_isSymbol_of_isWord hword _)
  refine .acceptWord .classWord hc (fun hclass => alike_classDecl (hword hclass)) ?_
  refine .acceptWord .traitWord hc (fun htrait => alike_traitDecl (hword htrait)) ?_
  obtain ⟨found, hlook, hfun⟩ := atNamedFunction_counting c
  refine .look hlook ?_
  cases found with
  | true =>
    have hfunction := alike_namedFunction (hword (hfun rfl)) .function
    exact alike_advance.use (fun _ => hfunction.use fun f => alike_pure _) c hc
  | false =>
    refine .acceptWord .varWord hc (fun hvar => alike_varDecl (hword hvar)) ?_
    exact alikeAt_statement hc hbreak h

theorem alikeAt_breakOr_statement (hc : c.loopDepth = loopsIn bodies)
    (h : inner.AlikeFrom c.peek (loopsIn bodies) inner') :
    AlikeAt c (statement inner) (breakOr bodies (statement inner')) :=
  alikeAt_breakOr hc (fun hword => (statement_of_break hword).1) fun hword =>
    alikeAt_statement hc hword h

theorem alikeAt_breakOr_declaration (hc : c.loopDepth = loopsIn bodies)
    (h : inner.AlikeFrom c.peek (loopsIn bodies) inner') :
    AlikeAt c (strictDeclaration inner) (breakOr bodies (strictDeclaration inner')) :=
  alikeAt_breakOr hc (fun hword => (statement_of_break hword).2) fun hword =>
    alikeAt_strictDeclaration hc hword h

end

/-! ## The knot -/

section

variable {inner : Rules} {reads : List Body → (category : Category) → Rule category.Found}

theorem alike_part (h : ∀ bodies part, Alike (loopsIn bodies) (inner.read part) (reads bodies part))
    (bodies : List Body) {whole part : Category} {first : Token} {body : Option Body}
    (hbody : bodyOf whole first part = body) :
    Alike (loopsIn (body.toList ++ bodies)) (inner.read part)
      ((Rules.among inner.bound reads bodies whole first).read part) := by
  subst hbody
  exact h _ part

/-- Parts of expressions and of functions, which are read among the bodies that are told. -/
theorem alike_among
    (h : ∀ bodies part, Alike (loopsIn bodies) (inner.read part) (reads bodies part))
    (bodies : List Body) {whole : Category} {first : Token}
    (hbody : bodyOf whole first .declaration = some .function) :
    inner.Alike (loopsIn bodies) (.among inner.bound reads bodies whole first) where
  bound := rfl
  expression := h bodies .expression
  assignment := h bodies .assignment
  conditional := h bodies .conditional
  unary := h bodies .unary
  declaration := alike_part h bodies hbody

/-- Parts of statements. -/
theorem alikeFrom_among
    (h : ∀ bodies part, Alike (loopsIn bodies) (inner.read part) (reads bodies part))
    (bodies : List Body) {whole : Category} (hwhole : whole = .statement ∨ whole = .declaration)
    (first : Token) :
    inner.AlikeFrom first (loopsIn bodies) (.among inner.bound reads bodies whole first) where
  bound := rfl
  block hbrace := by
    have hbody : bodyOf whole first .declaration = none := if_pos ⟨hwhole, hbrace⟩
    exact alike_part h bodies hbody
  other hother := alike_among h bodies (if_neg fun hbrace => by simp [hother] at hbrace)
  loop hloop := by
    have hbody : bodyOf whole first .statement = some .loop := if_pos hloop
    exact alike_part h bodies hbody
  branch hbranch := by
    have hbody : bodyOf whole first .statement = none := if_neg (by simp [hbranch])
    exact alike_part h bodies hbody

theorem alikeAt_lexicalRule
    (h : ∀ bodies part, Alike (loopsIn bodies) (inner.read part) (reads bodies part))
    (hc : c.loopDepth = loopsIn bodies) (category : Category) :
    AlikeAt c (rule inner category)
      (lexicalRule bodies (.among inner.bound reads bodies category c.peek) category) := by
  cases category with
  | expression => exact alike_expression (alike_among h bodies rfl) c hc
  | assignment => exact alike_assignment (alike_among h bodies rfl) c hc
  | conditional => exact alike_conditional (alike_among h bodies rfl) c hc
  | unary => exact alike_unary (alike_among h bodies rfl) c hc
  | statement => exact alikeAt_breakOr_statement hc (alikeFrom_among h bodies (.inl rfl) c.peek)
  | declaration =>
    exact (alikeAt_breakOr_declaration hc (alikeFrom_among h bodies (.inr rfl) c.peek)).recover

end

/-- Counting loops comes to the same as telling the bodies being read. -/
theorem alike_lexicalAt (budget : Nat) (bodies : List Body) (category : Category) :
    Alike (loopsIn bodies) (ruleAt budget category) (lexicalAt budget bodies category) := by
  induction budget generalizing bodies category with
  | zero => exact alike_failHere _
  | succ budget ih =>
    intro c hc
    have hrule : AlikeAt c (rule ⟨budget + 1, ruleAt budget⟩ category)
        (lexicalRule bodies (.among (budget + 1) (lexicalAt budget) bodies category c.peek)
          category) :=
      alikeAt_lexicalRule ih hc category
    exact hrule.congr rfl fun _ => rfl

theorem alike_declarations (budget : Nat) (bodies : List Body) (more : Nat) :
    Alike (loopsIn bodies) (declarations budget more) (lexicalDeclarations budget bodies more) := by
  induction more with
  | zero => exact alike_pure []
  | succ more ih =>
    refine alike_atEnd.use fun _ => .ite (alike_pure []) ?_
    exact (alike_lexicalAt budget bodies .declaration).use fun _ => ih.use fun _ => alike_pure _

theorem alike_wholeExpression (budget : Nat) (bodies : List Body) :
    Alike (loopsIn bodies) (wholeExpression budget) (lexicalExpression budget bodies) := by
  refine (alike_lexicalAt budget bodies .expression).use fun e => ?_
  exact alike_atEnd.use fun _ => .ite (alike_pure e) (alike_failHere _)

/-- A text is read from where no loop is around. -/
theorem Alike.read_eq {rule rule' : Nat → Rule α}
    (h : ∀ budget, Alike 0 (rule budget) (rule' budget)) (tokens : List Token) (nextId : RefId) :
    read rule tokens nextId = read rule' tokens nextId := by
  unfold read
  cases h (tokens.length + 1) (.ofTokens tokens nextId) rfl with
  | @ok a c' run _ same =>
    have run' : rule' (tokens.length + 1) (.ofTokens tokens nextId) = .ok a (c'.counting 0) :=
      same 0
    rw [run, run']
    rfl
  | @error problem c' run _ same =>
    have run' : rule' (tokens.length + 1) (.ofTokens tokens nextId) =
        .error problem (c'.counting 0) := same 0
    rw [run, run']
    rfl

end

/-! ## Whatever reads -/

/-- All that reads, with what it is given. Parts are read with a budget. -/
inductive Parsing (bound budget : Nat) : {α : Type} → Rule α → Prop
  | expect (landmark : Landmark) : Parsing bound budget (expect landmark)
  | expectName (role : NameRole) : Parsing bound budget (expectName role)
  | reference (role : NameRole) : Parsing bound budget (reference role)
  | parameter (count : Nat) : Parsing bound budget (parameter count)
  | block : Parsing bound budget (block ⟨bound, ruleAt budget⟩)
  | function (callable : Callable) : Parsing bound budget (function ⟨bound, ruleAt budget⟩ callable)
  | namedFunction (callable : Callable) :
      Parsing bound budget (namedFunction ⟨bound, ruleAt budget⟩ callable)
  | primary : Parsing bound budget (primary ⟨bound, ruleAt budget⟩)
  | argument (count : Nat) : Parsing bound budget (argument ⟨bound, ruleAt budget⟩ count)
  | arguments : Parsing bound budget (arguments ⟨bound, ruleAt budget⟩)
  | suffixes (rounds : Nat) (e : Expr) :
      Parsing bound budget (suffixes ⟨bound, ruleAt budget⟩ rounds e)
  | call : Parsing bound budget (call ⟨bound, ruleAt budget⟩)
  | unary : Parsing bound budget (unary ⟨bound, ruleAt budget⟩)
  | factor : Parsing bound budget (factor ⟨bound, ruleAt budget⟩)
  | term : Parsing bound budget (term ⟨bound, ruleAt budget⟩)
  | comparison : Parsing bound budget (comparison ⟨bound, ruleAt budget⟩)
  | equality : Parsing bound budget (equality ⟨bound, ruleAt budget⟩)
  | both : Parsing bound budget (both ⟨bound, ruleAt budget⟩)
  | either : Parsing bound budget (either ⟨bound, ruleAt budget⟩)
  | conditional : Parsing bound budget (conditional ⟨bound, ruleAt budget⟩)
  | assignTo (target value : Expr) (equals : Token) :
      Parsing bound budget (assignTo target equals value)
  | assignment : Parsing bound budget (assignment ⟨bound, ruleAt budget⟩)
  | expression : Parsing bound budget (expression ⟨bound, ruleAt budget⟩)
  | varDecl : Parsing bound budget (varDecl ⟨bound, ruleAt budget⟩)
  | expressionStatement :
      Parsing bound budget (expressionStatement (expression ⟨bound, ruleAt budget⟩))
  | breakLoop (word : Token) : Parsing bound budget (breakLoop word)
  | forInitial : Parsing bound budget (forInitial ⟨bound, ruleAt budget⟩)
  | forStatement : Parsing bound budget (forStatement ⟨bound, ruleAt budget⟩)
  | ifStatement : Parsing bound budget (ifStatement ⟨bound, ruleAt budget⟩)
  | whileStatement : Parsing bound budget (whileStatement ⟨bound, ruleAt budget⟩)
  | returnStatement (line : Nat) :
      Parsing bound budget (returnStatement ⟨bound, ruleAt budget⟩ line)
  | printStatement : Parsing bound budget (printStatement ⟨bound, ruleAt budget⟩)
  | statement : Parsing bound budget (statement ⟨bound, ruleAt budget⟩)
  | withClause : Parsing bound budget (withClause bound)
  | classMember : Parsing bound budget (classMember ⟨bound, ruleAt budget⟩)
  | classDecl : Parsing bound budget (classDecl ⟨bound, ruleAt budget⟩)
  | traitDecl : Parsing bound budget (traitDecl ⟨bound, ruleAt budget⟩)
  | strictDeclaration : Parsing bound budget (strictDeclaration ⟨bound, ruleAt budget⟩)
  | category (category : Category) : Parsing bound budget (ruleAt budget category)
  | declarations (more : Nat) : Parsing bound budget (declarations budget more)
  | wholeExpression : Parsing bound budget (wholeExpression budget)

/-- All that reads leaves the number of loops around as it is. -/
theorem Parsing.balanced {bound budget : Nat} {rule : Rule α} (h : Parsing bound budget rule) :
    Balanced rule := by
  intro c
  -- Any bodies will do in which there are as many loops.
  obtain ⟨bodies, hc⟩ : ∃ bodies, c.loopDepth = loopsIn bodies :=
    ⟨_, (loopsIn_replicate c.loopDepth).symm⟩
  have hparts := alike_lexicalAt budget
  have hfrom (first : Token) : Rules.AlikeFrom first (loopsIn bodies) ⟨bound, ruleAt budget⟩
      (.among bound (lexicalAt budget) bodies .statement first) :=
    alikeFrom_among hparts bodies (.inl rfl) first
  have hinner := (hfrom ⟨.eof, 0⟩).other rfl
  cases h with
  | expect landmark => exact (alike_expect landmark c hc).keeps
  | expectName role => exact (alike_expectName role c hc).keeps
  | reference role => exact (alike_reference role c hc).keeps
  | parameter count => exact (alike_parameter count c hc).keeps
  | block =>
    have hblock := hfrom ⟨.symbol .leftBrace, 0⟩
    exact (alike_block hblock.bound (hblock.block rfl) c hc).keeps
  | function callable => exact (alike_function hinner callable c hc).keeps
  | namedFunction callable => exact (alike_namedFunction hinner callable c hc).keeps
  | primary => exact (alike_primary hinner c hc).keeps
  | argument count => exact (alike_argument hinner count c hc).keeps
  | arguments => exact (alike_arguments hinner c hc).keeps
  | suffixes rounds e => exact (alike_suffixes hinner rounds e c hc).keeps
  | call => exact (alike_call hinner c hc).keeps
  | unary => exact (alike_unary hinner c hc).keeps
  | factor => exact (alike_factor hinner c hc).keeps
  | term => exact (alike_term hinner c hc).keeps
  | comparison => exact (alike_comparison hinner c hc).keeps
  | equality => exact (alike_equality hinner c hc).keeps
  | both => exact (alike_both hinner c hc).keeps
  | either => exact (alike_either hinner c hc).keeps
  | conditional => exact (alike_conditional hinner c hc).keeps
  | assignTo target value equals => exact (alike_assignTo target value equals c hc).keeps
  | assignment => exact (alike_assignment hinner c hc).keeps
  | expression => exact (alike_expression hinner c hc).keeps
  | varDecl => exact (alike_varDecl hinner c hc).keeps
  | expressionStatement =>
    exact (alike_expressionStatement (alike_expression hinner) c hc).keeps
  | breakLoop word => exact (alike_breakLoop bodies word c hc).keeps
  | forInitial => exact (alike_forInitial hinner c hc).keeps
  | forStatement =>
    have hfor := hfrom ⟨.keyword .forWord, 0⟩
    exact (alike_forStatement (hfor.other rfl) (hfor.loop rfl) c hc).keeps
  | ifStatement =>
    have hif := hfrom ⟨.keyword .ifWord, 0⟩
    exact (alike_ifStatement (hif.other rfl) (hif.branch rfl) c hc).keeps
  | whileStatement =>
    have hwhile := hfrom ⟨.keyword .whileWord, 0⟩
    exact (alike_whileStatement (hwhile.other rfl) (hwhile.loop rfl) c hc).keeps
  | returnStatement line => exact (alike_returnStatement hinner line c hc).keeps
  | printStatement => exact (alike_printStatement hinner c hc).keeps
  | statement => exact (alikeAt_breakOr_statement hc (hfrom c.peek)).keeps
  | withClause => exact (alike_withClause bound c hc).keeps
  | classMember => exact (alike_classMember hinner c hc).keeps
  | classDecl => exact (alike_classDecl hinner c hc).keeps
  | traitDecl => exact (alike_traitDecl hinner c hc).keeps
  | strictDeclaration => exact (alikeAt_breakOr_declaration hc (hfrom c.peek)).keeps
  | category category => exact (alike_lexicalAt budget bodies category c hc).keeps
  | declarations more => exact (alike_declarations budget bodies more c hc).keeps
  | wholeExpression => exact (alike_wholeExpression budget bodies c hc).keeps

/-! ## What is reported -/

/-- Read with one loop more around, and count one less behind, however reading ends. -/
def stepping (rule : Rule α) : Rule α := fun c =>
  match rule (c.counting (c.loopDepth + 1)) with
  | .ok a c' => .ok a (c'.counting (c'.loopDepth - 1))
  | .error problem c' => .error problem (c'.counting (c'.loopDepth - 1))

/-- A `break` that belongs to no loop. -/
structure Stray (word : Token) (problem : Problem) : Prop where
  token : problem.token = word
  message : problem.cause.message = "Must be inside a loop to use 'break'."

/-- How loops are counted, whatever the tokens. -/
structure CountsLoops : Prop where
  /-- All that reads ends with the count it began with, whether it finds something or fails, and
  what has been reported stays so. -/
  balanced : ∀ {bound budget : Nat} {α : Type} {rule : Rule α}, Parsing bound budget rule →
    ∀ c, Ensures rule c
      (fun _ c' => c'.loopDepth = c.loopDepth ∧ c.problems <+: c'.problems)
      fun _ c' => c'.loopDepth = c.loopDepth ∧ c.problems <+: c'.problems
  /-- It is all one whether the count is put back behind the body of a loop or taken down. -/
  stepped : ∀ budget, withLoopDepth (· + 1) (ruleAt budget .statement) =
    stepping (ruleAt budget .statement)
  /-- A reader that is told of the bodies being read finds the same, whatever it counts itself. -/
  lexical : ∀ budget bodies category c, c.loopDepth = loopsIn bodies → ∀ depth,
    lexicalAt budget bodies category (c.counting depth) =
      match ruleAt budget category c with
      | .ok found c' => .ok found (c'.counting depth)
      | .error problem c' => .error problem (c'.counting depth)
  /-- So it does of whole texts. -/
  program : ∀ tokens nextId, readProgram tokens nextId = read lexicalProgram tokens nextId
  expression : ∀ tokens nextId,
    readExpression tokens nextId = read (lexicalExpression · []) tokens nextId
  /-- This reader reports a `break` as a statement if and only if there is no loop within the
  innermost function. -/
  statement : ∀ budget bodies c, isWord .breakWord c.peek = true →
    ((∃ problem c', lexicalAt (budget + 1) bodies .statement c = .error problem c' ∧
      Stray c.peek problem) ↔ ¬InLoop bodies)
  /-- Among declarations it goes on behind it. -/
  declaration : ∀ budget bodies c, isWord .breakWord c.peek = true →
    ((∃ problem c', lexicalAt (budget + 1) bodies .declaration c = .ok none c' ∧
      c'.problems = c.problems ++ [problem] ∧ Stray c.peek problem) ↔ ¬InLoop bodies)

theorem stepping_eq {rule : Rule α} (h : Balanced rule) :
    withLoopDepth (· + 1) rule = stepping rule := by
  funext c
  have hkeeps := h (c.counting (c.loopDepth + 1))
  cases hrun : rule (c.counting (c.loopDepth + 1)) with
  | ok a c' =>
    have hloops : c'.loopDepth = c.loopDepth + 1 := (hkeeps.of_ok hrun).loops
    rw [withLoopDepth_of_ok hrun]
    simp only [stepping, hrun, hloops, Nat.add_sub_cancel]
  | error problem c' =>
    have hloops : c'.loopDepth = c.loopDepth + 1 := (hkeeps.of_error hrun).loops
    rw [withLoopDepth_of_error hrun]
    simp only [stepping, hrun, hloops, Nat.add_sub_cancel]

section

variable (bodies : List Body) (word : Token) (c : Cursor)

theorem stray_strayBreak : Stray word ⟨word, .strayBreak⟩ :=
  ⟨rfl, rfl⟩

theorem breakAmong_of_not (h : ¬InLoop bodies) :
    breakAmong bodies word c = .error ⟨word, .strayBreak⟩ c := by
  unfold breakAmong
  rw [if_neg h]
  rfl

/-- Within a loop only the semicolon can be missing. -/
theorem breakAmong_of_inLoop (h : InLoop bodies) {problem : Problem} {c' : Cursor}
    (herror : breakAmong bodies word c = .error problem c') : c' = c ∧ ¬Stray word problem := by
  unfold breakAmong at herror
  rw [if_pos h] at herror
  have hexpect : expect .breakEnd c =
      (if isSymbol .semicolon c.peek = true then advance >>= fun _ => return c.peek.line
      else failHere (.missing .breakEnd) : Rule Nat) c := rfl
  by_cases hsymbol : isSymbol .semicolon c.peek = true
  · rw [if_pos hsymbol] at hexpect
    rw [bind_of_ok hexpect] at herror
    cases herror
  · rw [if_neg hsymbol] at hexpect
    rw [bind_of_error hexpect] at herror
    cases herror
    have hmessage :
        (Cause.missing .breakEnd).message ≠ "Must be inside a loop to use 'break'." := by
      decide
    exact ⟨rfl, fun hstray => hmessage hstray.message⟩

variable {c} {budget : Nat}

theorem breakOr_of_break (h : isWord .breakWord c.peek = true) (other : Rule Stmt) :
    breakOr bodies other c = breakAmong bodies c.peek { c with rest := c.rest.tail } :=
  (breakOr_eq bodies other c).trans (if_pos h)

theorem strays_statement (h : isWord .breakWord c.peek = true) :
    (∃ problem c', lexicalAt (budget + 1) bodies .statement c = .error problem c' ∧
      Stray c.peek problem) ↔ ¬InLoop bodies := by
  have hrun : lexicalAt (budget + 1) bodies .statement c =
      breakAmong bodies c.peek { c with rest := c.rest.tail } := breakOr_of_break bodies h _
  rw [hrun]
  constructor
  · rintro ⟨problem, c', herror, hstray⟩ hloop
    exact (breakAmong_of_inLoop bodies c.peek _ hloop herror).2 hstray
  · intro hnot
    exact ⟨_, _, breakAmong_of_not bodies c.peek _ hnot, stray_strayBreak c.peek⟩

theorem strays_declaration (h : isWord .breakWord c.peek = true) :
    (∃ problem c', lexicalAt (budget + 1) bodies .declaration c = .ok none c' ∧
      c'.problems = c.problems ++ [problem] ∧ Stray c.peek problem) ↔ ¬InLoop bodies := by
  have hrun : lexicalAt (budget + 1) bodies .declaration c =
      recover (breakOr bodies (strictDeclaration _)) c := rfl
  have hbreak := breakOr_of_break bodies h
    (strictDeclaration (.among (budget + 1) (lexicalAt budget) bodies .declaration c.peek))
  rw [hrun]
  constructor
  · rintro ⟨problem, c', hnone, hproblems, hstray⟩ hloop
    cases hfound : breakAmong bodies c.peek { c with rest := c.rest.tail } with
    | ok s c₁ =>
      rw [recover_of_ok (hbreak.trans hfound)] at hnone
      cases hnone
    | error other c₁ =>
      obtain ⟨rfl, hother⟩ := breakAmong_of_inLoop bodies c.peek _ hloop hfound
      rw [recover_of_error (hbreak.trans hfound)] at hnone
      cases hnone
      obtain rfl : other = problem := by simpa using hproblems
      exact hother hstray
  · intro hnot
    have herror := hbreak.trans (breakAmong_of_not bodies c.peek _ hnot)
    exact ⟨_, _, recover_of_error herror, rfl, stray_strayBreak c.peek⟩

end

/-- Loops are counted as they lie in the text, however many problems it has: a `break` is reported
where none is around it within its function, and nowhere else. -/
theorem breaks_are_lexical : CountsLoops where
  balanced h c := (h.balanced c).mono (fun _ _ keeps => ⟨keeps.loops, keeps.problems⟩)
    fun _ _ keeps => ⟨keeps.loops, keeps.problems⟩
  stepped budget := stepping_eq (.category .statement : Parsing 0 budget _).balanced
  lexical budget bodies category c hc depth := by
    cases alike_lexicalAt budget bodies category c hc with
    | ok run _ same => rw [run, same depth]
    | error run _ same => rw [run, same depth]
  program := Alike.read_eq fun budget => alike_declarations budget [] budget
  expression := Alike.read_eq fun budget => alike_wholeExpression budget []
  statement _ bodies _ h := strays_statement bodies h
  declaration _ bodies _ h := strays_declaration bodies h

end Grammar

end LoxLang
