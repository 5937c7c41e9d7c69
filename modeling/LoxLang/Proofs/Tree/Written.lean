import LoxLang.Number.Layout
import LoxLang.Tree.Basic

/-!
# Trees written as tokens

The tokens of a tree (`tokens`), in the order in which a text has them and with no parentheses but
those of its groupings. The methods of a class stand before those of the class itself, and a `for`
loop is written as the blocks and the `while` loop that it stands for. A text says neither the
references of a tree nor, once it is written anew, its lines: without them a tree is `bare`.
-/

namespace LoxLang

/-! ## Single tokens -/

/-- A symbol, written on the first line like everything else. -/
def Symbol.token (s : Symbol) : Token :=
  ⟨.symbol s, 1⟩

def Keyword.token (k : Keyword) : Token :=
  ⟨.keyword k, 1⟩

def Name.token (n : Name) : Token :=
  ⟨.identifier n.text, 1⟩

/-- A mark that a text can stand between: the double one unless the text holds it. -/
def Quote.around (contents : String) : Quote :=
  if '"' ∈ contents.toList then single else double

def Literal.token : Literal → Token
  | number value => ⟨.number (Number.text value) value, 1⟩
  | text value => ⟨.text (.around value) value, 1⟩
  | bool true => Keyword.trueWord.token
  | bool false => Keyword.falseWord.token
  | nil => Keyword.nilWord.token

/-- What a token says, without its line and without how a literal is spelled. -/
def Token.meaning (t : Token) : Token.Kind :=
  match t.kind with
  | .number _ value => .number "" value
  | .text _ contents => .text .double contents
  | kind => kind

/-! ## The tokens of trees -/

/-- Items with commas between them. -/
def commaJoined : List (List Token) → List Token
  | [] => []
  | [item] => item
  | item :: rest => item ++ Symbol.comma.token :: commaJoined rest

/-- The parameters of a function, without the parentheses. -/
def parameterTokens (params : List Name) : List Token :=
  commaJoined (params.map fun param => [param.token])

/-- The class that a class extends. -/
def superclassTokens : Option Reference → List Token
  | none => []
  | some ref => [Symbol.less.token, ref.name.token]

/-- The traits that a class or trait is made with. -/
def traitTokens : List Reference → List Token
  | [] => []
  | ref :: rest =>
    Keyword.withWord.token :: commaJoined ((ref :: rest).map fun ref => [ref.name.token])

mutual

/-- The tokens of an expression. -/
def Expr.tokens : Expr → List Token
  | .literal value => [value.token]
  | .unary op _ operand => op.symbol.token :: operand.tokens
  | .binary left op _ right => left.tokens ++ op.symbol.token :: right.tokens
  | .logical left op _ right => left.tokens ++ op.keyword.token :: right.tokens
  | .conditional condition thenBranch elseBranch =>
    condition.tokens ++ Symbol.questionMark.token ::
      (thenBranch.tokens ++ Symbol.colon.token :: elseBranch.tokens)
  | .grouping inner => Symbol.leftParen.token :: (inner.tokens ++ [Symbol.rightParen.token])
  | .variable ref => [ref.name.token]
  | .assign ref value => ref.name.token :: Symbol.equal.token :: value.tokens
  | .call callee arguments _ =>
    callee.tokens ++ Symbol.leftParen.token ::
      (commaJoined (argumentTokens arguments) ++ [Symbol.rightParen.token])
  | .get object name => object.tokens ++ [Symbol.dot.token, name.token]
  | .set object name value =>
    object.tokens ++ Symbol.dot.token :: name.token :: Symbol.equal.token :: value.tokens
  | .this _ _ => [Keyword.thisWord.token]
  | .super _ _ method => [Keyword.superWord.token, Symbol.dot.token, method.token]
  | .lambda _ function => Keyword.funWord.token :: function.tokens

/-- The tokens of each argument of a call. -/
def argumentTokens : List Expr → List (List Token)
  | [] => []
  | argument :: rest => argument.tokens :: argumentTokens rest

/-- The tokens of a function: its parameters in parentheses, and its body. -/
def Function.tokens : Function → List Token
  | .mk params body =>
    Symbol.leftParen.token :: (parameterTokens params ++ Symbol.rightParen.token ::
      Symbol.leftBrace.token :: (bodyTokens body ++ [Symbol.rightBrace.token]))

/-- The tokens of a function with its name. -/
def NamedFunction.tokens : NamedFunction → List Token
  | .mk name function => name.token :: function.tokens

/-- The tokens of methods, each behind the same ones. -/
def methodTokens (front : List Token) : List NamedFunction → List Token
  | [] => []
  | method :: rest => front ++ (method.tokens ++ methodTokens front rest)

/-- The tokens of a statement. -/
def Stmt.tokens : Stmt → List Token
  | .expression value => value.tokens ++ [Symbol.semicolon.token]
  | .print value => Keyword.printWord.token :: (value.tokens ++ [Symbol.semicolon.token])
  | .varDecl name none => [Keyword.varWord.token, name.token, Symbol.semicolon.token]
  | .varDecl name (some initial) =>
    Keyword.varWord.token :: name.token :: Symbol.equal.token ::
      (initial.tokens ++ [Symbol.semicolon.token])
  | .block body => Symbol.leftBrace.token :: (bodyTokens body ++ [Symbol.rightBrace.token])
  | .ifThen condition thenBranch none =>
    Keyword.ifWord.token :: Symbol.leftParen.token ::
      (condition.tokens ++ Symbol.rightParen.token :: thenBranch.tokens)
  | .ifThen condition thenBranch (some elseBranch) =>
    Keyword.ifWord.token :: Symbol.leftParen.token ::
      (condition.tokens ++ Symbol.rightParen.token ::
        (thenBranch.tokens ++ Keyword.elseWord.token :: elseBranch.tokens))
  | .whileDo condition body =>
    Keyword.whileWord.token :: Symbol.leftParen.token ::
      (condition.tokens ++ Symbol.rightParen.token :: body.tokens)
  | .breakLoop _ => [Keyword.breakWord.token, Symbol.semicolon.token]
  | .returnWith _ none => [Keyword.returnWord.token, Symbol.semicolon.token]
  | .returnWith _ (some value) =>
    Keyword.returnWord.token :: (value.tokens ++ [Symbol.semicolon.token])
  | .funDecl declared => Keyword.funWord.token :: declared.tokens
  | .classDecl name superclass traits methods classMethods =>
    Keyword.classWord.token :: name.token :: (superclassTokens superclass ++
      (traitTokens traits ++ Symbol.leftBrace.token :: (methodTokens [] methods ++
        (methodTokens [Keyword.classWord.token] classMethods ++ [Symbol.rightBrace.token]))))
  | .traitDecl name traits methods =>
    Keyword.traitWord.token :: name.token :: (traitTokens traits ++ Symbol.leftBrace.token ::
      (methodTokens [] methods ++ [Symbol.rightBrace.token]))

/-- The tokens of statements in a row. -/
def bodyTokens : List Stmt → List Token
  | [] => []
  | statement :: rest => statement.tokens ++ bodyTokens rest

end

/-- The text of a program: its statements and the end mark. -/
def programTokens (body : List Stmt) : List Token :=
  bodyTokens body ++ [⟨.eof, 1⟩]

/-- The text of a single expression. -/
def expressionTokens (e : Expr) : List Token :=
  e.tokens ++ [⟨.eof, 1⟩]

/-- Whether a statement ends with an `if` that has no `else`, so that one behind it would belong
there. -/
def Stmt.OpenEnded : Stmt → Prop
  | .ifThen _ _ none => True
  | .ifThen _ _ (some elseBranch) => elseBranch.OpenEnded
  | .whileDo _ body => body.OpenEnded
  | _ => False

/-! ## Trees without references and lines -/

def Name.bare (n : Name) : Name :=
  ⟨n.text, 0⟩

def Reference.bare (r : Reference) : Reference :=
  ⟨0, r.name.bare⟩

mutual

/-- An expression without its references and lines. -/
def Expr.bare : Expr → Expr
  | .literal value => .literal value
  | .unary op _ operand => .unary op 0 operand.bare
  | .binary left op _ right => .binary left.bare op 0 right.bare
  | .logical left op _ right => .logical left.bare op 0 right.bare
  | .conditional condition thenBranch elseBranch =>
    .conditional condition.bare thenBranch.bare elseBranch.bare
  | .grouping inner => .grouping inner.bare
  | .variable ref => .variable ref.bare
  | .assign ref value => .assign ref.bare value.bare
  | .call callee arguments _ => .call callee.bare (bareArguments arguments) 0
  | .get object name => .get object.bare name.bare
  | .set object name value => .set object.bare name.bare value.bare
  | .this _ _ => .this 0 0
  | .super _ _ method => .super 0 0 method.bare
  | .lambda _ function => .lambda 0 function.bare

def bareArguments : List Expr → List Expr
  | [] => []
  | argument :: rest => argument.bare :: bareArguments rest

/-- A function without its references and lines. -/
def Function.bare : Function → Function
  | .mk params body => .mk (params.map Name.bare) (bareBody body)

def NamedFunction.bare : NamedFunction → NamedFunction
  | .mk name function => .mk name.bare function.bare

def bareMethods : List NamedFunction → List NamedFunction
  | [] => []
  | method :: rest => method.bare :: bareMethods rest

/-- A statement without its references and lines. -/
def Stmt.bare : Stmt → Stmt
  | .expression value => .expression value.bare
  | .print value => .print value.bare
  | .varDecl name none => .varDecl name.bare none
  | .varDecl name (some initial) => .varDecl name.bare (some initial.bare)
  | .block body => .block (bareBody body)
  | .ifThen condition thenBranch none => .ifThen condition.bare thenBranch.bare none
  | .ifThen condition thenBranch (some elseBranch) =>
    .ifThen condition.bare thenBranch.bare (some elseBranch.bare)
  | .whileDo condition body => .whileDo condition.bare body.bare
  | .breakLoop _ => .breakLoop 0
  | .returnWith _ none => .returnWith 0 none
  | .returnWith _ (some value) => .returnWith 0 (some value.bare)
  | .funDecl declared => .funDecl declared.bare
  | .classDecl name superclass traits methods classMethods =>
    .classDecl name.bare (superclass.map Reference.bare) (traits.map Reference.bare)
      (bareMethods methods) (bareMethods classMethods)
  | .traitDecl name traits methods =>
    .traitDecl name.bare (traits.map Reference.bare) (bareMethods methods)

/-- Statements in a row without their references and lines. -/
def bareBody : List Stmt → List Stmt
  | [] => []
  | statement :: rest => statement.bare :: bareBody rest

end

theorem argumentTokens_eq_map (arguments : List Expr) :
    argumentTokens arguments = arguments.map Expr.tokens := by
  induction arguments with
  | nil => rfl
  | cons argument rest ih => simp [argumentTokens, ih]

theorem bodyTokens_eq_flatMap (body : List Stmt) : bodyTokens body = body.flatMap Stmt.tokens := by
  induction body with
  | nil => rfl
  | cons statement rest ih => simp [bodyTokens, ih]

theorem methodTokens_eq_flatMap (front : List Token) (methods : List NamedFunction) :
    methodTokens front methods = methods.flatMap fun method => front ++ method.tokens := by
  induction methods with
  | nil => rfl
  | cons method rest ih => simp [methodTokens, ih]

theorem bareArguments_eq_map (arguments : List Expr) :
    bareArguments arguments = arguments.map Expr.bare := by
  induction arguments with
  | nil => rfl
  | cons argument rest ih => simp [bareArguments, ih]

theorem bareBody_eq_map (body : List Stmt) : bareBody body = body.map Stmt.bare := by
  induction body with
  | nil => rfl
  | cons statement rest ih => simp [bareBody, ih]

theorem bareMethods_eq_map (methods : List NamedFunction) :
    bareMethods methods = methods.map NamedFunction.bare := by
  induction methods with
  | nil => rfl
  | cons method rest ih => simp [bareMethods, ih]

theorem Stmt.bare_expression (value : Expr) :
    (Stmt.expression value).bare = .expression value.bare := by
  rw [Stmt.bare]

theorem Stmt.bare_print (value : Expr) : (Stmt.print value).bare = .print value.bare := by
  rw [Stmt.bare]

end LoxLang
