import LoxLang.Grammar.Cursor

/-!
# The rules of the grammar

    program      → declaration* ;
    declaration  → classDecl | traitDecl | "fun" function | varDecl | statement ;
    classDecl    → "class" NAME ( "<" NAME )? traits? "{" ( "class"? function )* "}" ;
    traitDecl    → "trait" NAME traits? "{" function* "}" ;
    traits       → "with" NAME ( "," NAME )* ;
    function     → NAME parameters block ;
    parameters   → "(" ( NAME ( "," NAME )* )? ")" ;
    varDecl      → "var" NAME ( "=" expression )? ";" ;
    statement    → "break" ";" | forLoop | ifThen | whileDo | returnWith | block
                 | "print" expression ";" | expression ";" ;
    forLoop      → "for" "(" ( varDecl | expression ";" | ";" ) expression? ";" expression? ")"
                   statement ;
    ifThen       → "if" "(" expression ")" statement ( "else" statement )? ;
    whileDo      → "while" "(" expression ")" statement ;
    returnWith   → "return" expression? ";" ;
    block        → "{" declaration* "}" ;
    expression   → assignment ( "," assignment )* ;
    assignment   → ( call "." )? NAME "=" assignment | conditional ;
    conditional  → either ( "?" expression ":" conditional )? ;
    either       → both ( "or" both )* ;
    both         → equality ( "and" equality )* ;
    equality     → comparison ( ( "!=" | "==" ) comparison )* ;
    comparison   → term ( ( ">" | ">=" | "<" | "<=" ) term )* ;
    term         → factor ( ( "-" | "+" ) factor )* ;
    factor       → unary ( ( "/" | "*" ) unary )* ;
    unary        → ( "!" | "-" ) unary | call ;
    call         → primary ( "(" arguments? ")" | "." NAME )* ;
    arguments    → assignment ( "," assignment )* ;
    primary      → NUMBER | TEXT | "true" | "false" | "nil" | "this" | "super" "." NAME | NAME
                 | "(" expression ")" | "fun" parameters block ;

Each rule is a definition of its own. Where a rule comes back to one of the categories below
after reading a token, it does so through the argument `inner`. `ruleAt` ties the knot with a
budget: a category is read with rules for its parts whose budget is smaller by one. As a token
has been read in between, a budget above the number of tokens left is never exhausted. The
same number bounds the repetitions in a rule, each round of which reads a token too.
-/

namespace LoxLang

namespace Grammar

/-- The categories that rules come back to. -/
inductive Category
  | expression
  | assignment
  | conditional
  | unary
  | statement
  | declaration
deriving Repr, DecidableEq

/-- What is found for a category; of a declaration with a problem nothing is left. -/
abbrev Category.Found : Category → Type
  | expression => Expr
  | assignment => Expr
  | conditional => Expr
  | unary => Expr
  | statement => Stmt
  | declaration => Option Stmt

/-- A rule for each category, and a bound above the number of tokens left, which no repetition
exceeds. -/
structure Rules where
  bound : Nat
  read : (category : Category) → Rule category.Found

/-! ## Repetition -/

/-- One or more items with commas between them; `item` is told how many precede. -/
def commaSeparated {α : Type} (item : Nat → Rule α) : Nat → Nat → Rule (List α)
  | 0, _ => failHere .missingExpression
  | budget + 1, count => do
    let first ← item count
    if ← accept .comma then return first :: (← commaSeparated item budget (count + 1))
    else return [first]

/-- Operands joined by operators, nested to the left. -/
def leftNested {ω : Type} (operator? : Token → Option ω) (operand : Rule Expr)
    (build : Expr → ω → Nat → Expr → Expr) : Nat → Expr → Rule Expr
  | 0, left => return left
  | budget + 1, left => do
    let token ← peek
    match operator? token with
    | none => return left
    | some op =>
      advance
      let right ← operand
      leftNested operator? operand build budget (build left op token.line right)

/-- Items up to a closing brace or the end. -/
def untilBrace {α : Type} (item : Rule α) : Nat → Rule (List α)
  | 0 => return []
  | budget + 1 => do
    if (← atSymbol .rightBrace) || (← atEnd) then return []
    else
      let first ← item
      return first :: (← untilBrace item budget)

/-! ## Functions -/

/-- The largest number of parameters or arguments. -/
def maxArity : Nat := 255

/-- Record a problem where one item too many begins. -/
def checkArity (cause : Cause) (count : Nat) : Rule Unit := do
  if maxArity ≤ count then note ⟨← peek, cause⟩

/-- One parameter, of which `count` precede. -/
def parameter (count : Nat) : Rule Name := do
  checkArity .tooManyParameters count
  expectName .ofParameter

/-- The statements of a block, behind its opening brace. -/
def block (inner : Rules) : Rule (List Stmt) := do
  let body ← untilBrace (inner.read .declaration) inner.bound
  let _ ← expect .blockClose
  return body.flatMap Option.toList

/-- Parameters and body. A loop around the function is none around its statements. -/
def function (inner : Rules) (callable : Callable) : Rule Function := do
  let _ ← expect (.parametersOpen callable)
  let params ←
    if ← atSymbol .rightParen then pure []
    else commaSeparated parameter inner.bound 0
  let _ ← expect .parametersClose
  let _ ← expect (.bodyOpen callable)
  let body ← withLoopDepth (fun _ => 0) (block inner)
  return .mk params body

/-- A name, parameters and body. -/
def namedFunction (inner : Rules) (callable : Callable) : Rule NamedFunction := do
  let name ← expectName (.ofCallable callable)
  return .mk name (← function inner callable)

/-! ## Expressions -/

/-- An occurrence of a variable where a name has to stand. -/
def reference (role : NameRole) : Rule Reference := do
  let name ← expectName role
  return ⟨← freshId, name⟩

def primary (inner : Rules) : Rule Expr := do
  let token ← peek
  match token.kind with
  | .keyword .funWord =>
    advance
    return .lambda token.line (← function inner .function)
  | .keyword .falseWord =>
    advance
    return .literal (.bool false)
  | .keyword .trueWord =>
    advance
    return .literal (.bool true)
  | .keyword .nilWord =>
    advance
    return .literal .nil
  | .number _ value =>
    advance
    return .literal (.number value)
  | .text _ contents =>
    advance
    return .literal (.text contents)
  | .keyword .thisWord =>
    advance
    return .this (← freshId) token.line
  | .keyword .superWord =>
    advance
    let _ ← expect .superDot
    let method ← expectName .ofSuperMethod
    return .super (← freshId) token.line method
  | .identifier name =>
    advance
    return .variable ⟨← freshId, ⟨name, token.line⟩⟩
  | .symbol .leftParen =>
    advance
    let e ← inner.read .expression
    let _ ← expect .groupClose
    return .grouping e
  | _ => failHere .missingExpression

/-- One argument, of which `count` precede. A comma ends it. -/
def argument (inner : Rules) (count : Nat) : Rule Expr := do
  checkArity .tooManyArguments count
  inner.read .assignment

/-- The arguments of a call, behind the opening parenthesis, and the line of the closing
one. -/
def arguments (inner : Rules) : Rule (List Expr × Nat) := do
  let args ←
    if ← atSymbol .rightParen then pure []
    else commaSeparated (argument inner) inner.bound 0
  let line ← expect .argumentsClose
  return (args, line)

/-- The calls and property accesses behind an expression. -/
def suffixes (inner : Rules) : Nat → Expr → Rule Expr
  | 0, e => return e
  | budget + 1, e => do
    match (← peek).kind with
    | .symbol .leftParen =>
      advance
      let (args, line) ← arguments inner
      suffixes inner budget (.call e args line)
    | .symbol .dot =>
      advance
      let name ← expectName .ofProperty
      suffixes inner budget (.get e name)
    | _ => return e

def call (inner : Rules) : Rule Expr := do
  let e ← primary inner
  suffixes inner inner.bound e

/-- The operator that a token is before an operand. -/
def unaryOp? (token : Token) : Option UnaryOp :=
  match token.kind with
  | .symbol .bang => some .not
  | .symbol .minus => some .negate
  | _ => none

def unary (inner : Rules) : Rule Expr := do
  let token ← peek
  match unaryOp? token with
  | some op =>
    advance
    return .unary op token.line (← inner.read .unary)
  | none => call inner

/-- The operators of one binding strength among the binary ones. -/
inductive Level
  | equality
  | comparison
  | term
  | factor
deriving Repr, DecidableEq

/-- The operator of a level that a token is. -/
def Level.operator? (level : Level) (token : Token) : Option BinaryOp :=
  match token.kind, level with
  | .symbol .equalEqual, equality => some .equal
  | .symbol .bangEqual, equality => some .notEqual
  | .symbol .greater, comparison => some .greater
  | .symbol .greaterEqual, comparison => some .greaterEqual
  | .symbol .less, comparison => some .less
  | .symbol .lessEqual, comparison => some .lessEqual
  | .symbol .minus, term => some .subtract
  | .symbol .plus, term => some .add
  | .symbol .slash, factor => some .divide
  | .symbol .star, factor => some .multiply
  | _, _ => none

/-- Whether an operator cannot begin an operand. A minus can: it may be the unary one. -/
def needsLeft (op : BinaryOp) : Bool :=
  op != .subtract

/-- Operands joined by the operators of one level. Where such an operator stands without a
left operand, its right operand is read before the problem is reported. -/
def binary (level : Level) (bound : Nat) (operand : Rule Expr) : Rule Expr := do
  let token ← peek
  if (level.operator? token).any needsLeft then
    advance
    let _ ← operand
    throw ⟨token, .missingLeftOperand⟩
  else
    let left ← operand
    leftNested level.operator? operand .binary bound left

def factor (inner : Rules) : Rule Expr := binary .factor inner.bound (unary inner)

def term (inner : Rules) : Rule Expr := binary .term inner.bound (factor inner)

def comparison (inner : Rules) : Rule Expr := binary .comparison inner.bound (term inner)

def equality (inner : Rules) : Rule Expr := binary .equality inner.bound (comparison inner)

/-- The given logical operator, if a token is its word. -/
def logicalOp? (op : LogicalOp) (token : Token) : Option LogicalOp :=
  if isWord op.keyword token then some op else none

/-- Operands joined by a logical operator. -/
def logical (op : LogicalOp) (bound : Nat) (operand : Rule Expr) : Rule Expr := do
  let left ← operand
  leftNested (logicalOp? op) operand .logical bound left

def both (inner : Rules) : Rule Expr := logical .both inner.bound (equality inner)

def either (inner : Rules) : Rule Expr := logical .either inner.bound (both inner)

def conditional (inner : Rules) : Rule Expr := do
  let condition ← either inner
  if ← accept .questionMark then
    let thenBranch ← inner.read .expression
    let _ ← expect .conditionalMiddle
    let elseBranch ← inner.read .conditional
    return .conditional condition thenBranch elseBranch
  else return condition

/-- The assignment of a value to what an expression denotes. An expression that denotes
nothing to assign to is a problem at the token `equals`; the rest of the text is still read
as it stands. -/
def assignTo (target : Expr) (equals : Token) (value : Expr) : Rule Expr := do
  match target with
  | .variable ref => return .assign ⟨← freshId, ref.name⟩ value
  | .get object name => return .set object name value
  | other =>
    note ⟨equals, .invalidTarget⟩
    return other

def assignment (inner : Rules) : Rule Expr := do
  let target ← conditional inner
  let token ← peek
  if isSymbol .equal token then
    advance
    let value ← inner.read .assignment
    assignTo target token value
  else return target

/-- The operator that separates the parts of an expression. -/
def comma? (token : Token) : Option BinaryOp :=
  if isSymbol .comma token then some .comma else none

def expression (inner : Rules) : Rule Expr := do
  let left ← assignment inner
  leftNested comma? (assignment inner) .binary inner.bound left

/-! ## Statements -/

/-- An expression unless the given symbol is at the cursor. -/
def optionalBefore (symbol : Symbol) (rule : Rule Expr) : Rule (Option Expr) := do
  if ← atSymbol symbol then return none
  else return some (← rule)

/-- A variable declaration behind its `var`. -/
def varDecl (inner : Rules) : Rule Stmt := do
  let name ← expectName .ofVariable
  let initial ← if ← accept .equal then some <$> inner.read .expression else pure none
  let _ ← expect .declarationEnd
  return .varDecl name initial

/-- An expression with its semicolon. -/
def expressionStatement (rule : Rule Expr) : Rule Stmt := do
  let e ← rule
  let _ ← expect .expressionEnd
  return .expression e

/-- A `break` behind its word, which stands on the given line. -/
def breakLoop (word : Token) : Rule Stmt := do
  if (← loopDepth) = 0 then throw ⟨word, .strayBreak⟩
  else
    let _ ← expect .breakEnd
    return .breakLoop word.line

/-- One round of a `for` loop: the increment runs after the body. -/
def loopRound (increment : Option Expr) (body : Stmt) : Stmt :=
  match increment with
  | some e => .block [body, .expression e]
  | none => body

/-- What a `for` loop stands for: `initial` runs once in a block of its own around the loop,
and a condition that is left out always holds. -/
def forLoop (initial : Option Stmt) (condition increment : Option Expr) (body : Stmt) :
    Stmt :=
  let loop := .whileDo (condition.getD (.literal (.bool true))) (loopRound increment body)
  match initial with
  | some s => .block [s, loop]
  | none => loop

/-- The first clause of a `for` loop. -/
def forInitial (inner : Rules) : Rule (Option Stmt) := do
  if ← accept .semicolon then return none
  else if ← acceptWord .varWord then return some (← varDecl inner)
  else return some (← expressionStatement (inner.read .expression))

/-- A `for` loop behind its word. -/
def forStatement (inner : Rules) : Rule Stmt := do
  let _ ← expect .forOpen
  let initial ← forInitial inner
  let condition ← optionalBefore .semicolon (inner.read .expression)
  let _ ← expect .forMiddle
  let increment ← optionalBefore .rightParen (inner.read .expression)
  let _ ← expect .forClose
  let body ← withLoopDepth (· + 1) (inner.read .statement)
  return forLoop initial condition increment body

/-- An `if` statement behind its word. -/
def ifStatement (inner : Rules) : Rule Stmt := do
  let _ ← expect .ifOpen
  let condition ← inner.read .expression
  let _ ← expect .ifClose
  let thenBranch ← inner.read .statement
  let elseBranch ← if ← acceptWord .elseWord then some <$> inner.read .statement else pure none
  return .ifThen condition thenBranch elseBranch

/-- A `while` loop behind its word. -/
def whileStatement (inner : Rules) : Rule Stmt := do
  let _ ← expect .whileOpen
  let condition ← inner.read .expression
  let _ ← expect .whileClose
  let body ← withLoopDepth (· + 1) (inner.read .statement)
  return .whileDo condition body

/-- A `return` behind its word, which stands on the given line. -/
def returnStatement (inner : Rules) (line : Nat) : Rule Stmt := do
  let value ← optionalBefore .semicolon (inner.read .expression)
  let _ ← expect .returnEnd
  return .returnWith line value

/-- A `print` statement behind its word. -/
def printStatement (inner : Rules) : Rule Stmt := do
  let e ← inner.read .expression
  let _ ← expect .printEnd
  return .print e

def statement (inner : Rules) : Rule Stmt := do
  let token ← peek
  match token.kind with
  | .keyword .breakWord =>
    advance
    breakLoop token
  | .keyword .forWord =>
    advance
    forStatement inner
  | .keyword .ifWord =>
    advance
    ifStatement inner
  | .keyword .whileWord =>
    advance
    whileStatement inner
  | .keyword .returnWord =>
    advance
    returnStatement inner token.line
  | .symbol .leftBrace =>
    advance
    return .block (← block inner)
  | .keyword .printWord =>
    advance
    printStatement inner
  | _ => expressionStatement (expression inner)

/-! ## Declarations -/

/-- The traits named behind `with`. -/
def withClause (bound : Nat) : Rule (List Reference) := do
  if ← acceptWord .withWord then commaSeparated (fun _ => reference .ofTrait) bound 0
  else return []

/-- A method of a class, and whether it is one of the class itself. -/
def classMember (inner : Rules) : Rule (Bool × NamedFunction) := do
  let ofClass ← acceptWord .classWord
  return (ofClass, ← namedFunction inner .method)

/-- A class behind its word. -/
def classDecl (inner : Rules) : Rule Stmt := do
  let name ← expectName .ofClass
  let superclass ←
    if ← accept .less then some <$> reference .ofSuperclass else pure none
  let traits ← withClause inner.bound
  let _ ← expect .classOpen
  let members ← untilBrace (classMember inner) inner.bound
  let _ ← expect .classClose
  let (classMethods, methods) := members.partition Prod.fst
  return .classDecl name superclass traits (methods.map Prod.snd) (classMethods.map Prod.snd)

/-- A trait behind its word. -/
def traitDecl (inner : Rules) : Rule Stmt := do
  let name ← expectName .ofTrait
  let traits ← withClause inner.bound
  let _ ← expect .traitOpen
  let methods ← untilBrace (namedFunction inner .method) inner.bound
  let _ ← expect .traitClose
  return .traitDecl name traits methods

/-- Whether `fun` and a name are at the cursor; `fun` alone begins an expression. -/
def atNamedFunction : Rule Bool := fun c =>
  match c.rest with
  | ⟨.keyword .funWord, _⟩ :: ⟨.identifier _, _⟩ :: _ => .ok true c
  | _ => .ok false c

/-- A declaration, or failure at its first problem. -/
def strictDeclaration (inner : Rules) : Rule Stmt := do
  if ← acceptWord .classWord then classDecl inner
  else if ← acceptWord .traitWord then traitDecl inner
  else if ← atNamedFunction then
    advance
    return .funDecl (← namedFunction inner .function)
  else if ← acceptWord .varWord then varDecl inner
  else statement inner

def declaration (inner : Rules) : Rule (Option Stmt) :=
  recover (strictDeclaration inner)

/-! ## The knot -/

/-- The rule of each category, with rules for what it comes back to. -/
def rule (inner : Rules) : (category : Category) → Rule category.Found
  | .expression => expression inner
  | .assignment => assignment inner
  | .conditional => conditional inner
  | .unary => unary inner
  | .statement => statement inner
  | .declaration => declaration inner

/-- The rule of each category with a budget. -/
def ruleAt : Nat → (category : Category) → Rule category.Found
  | 0, _ => failHere .missingExpression
  | budget + 1, category => rule ⟨budget + 1, ruleAt budget⟩ category

end Grammar

end LoxLang
