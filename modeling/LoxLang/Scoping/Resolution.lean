import LoxLang.Scoping.Scope
import LoxLang.Tree.Occurrence

/-!
# Resolution

Resolution walks over a program once. It finds the binding of every occurrence of a local
variable, of `this` and of `super`, and every misuse of a name; a program with a misuse is not
run. An occurrence without a binding denotes a global.

The scopes are those that a run has frames for: a block, a function (its parameters and then
the variables of its body), around the methods of a class or trait one that holds `this`, and
around that one in a class with a superclass one that holds `super`.
-/

namespace LoxLang

namespace Scoping

/-- The nearest function around a place. -/
inductive FunctionContext
  | outside
  | ordinary
  | initializer
deriving Repr, DecidableEq

/-- The nearest class or trait around a place. -/
inductive ClassContext
  | outside
  | plain
  | derived
  | traitBody
deriving Repr, DecidableEq

/-- What is around a place. -/
structure Context where
  function : FunctionContext
  body : ClassContext
deriving Repr, DecidableEq

/-- What a method of this name is around its body. -/
def methodContext (name : Name) : FunctionContext :=
  if name.text = initializerName then .initializer else .ordinary

/-! ## Composition of traits -/

/-- Add a trait's methods, in alphabetical order, to those already provided. -/
def provide (word : Name) : List String → List String × Analysis → List String × Analysis
  | [], state => state
  | method :: rest, (provided, a) =>
    if provided.contains method then
      provide word rest (provided, a.note word (.traitsShare method))
    else provide word rest (provided ++ [method], a)

/-- Add the methods of the known traits among those used. -/
def provideAll : List Reference → List String × Analysis → List String × Analysis
  | [], state => state
  | used :: rest, (provided, a) =>
    match knownTrait? used.name.text a.globalTraits a.scopes with
    | some methods =>
      let sorted := methods.mergeSort fun m n => decide (m ≤ n)
      provideAll rest (provide used.name sorted (provided, a))
    | none => provideAll rest (provided, a)

/-- Report the methods of a body that a trait already provides. -/
def noteProvided (provided : List String) : List NamedFunction → Analysis → Analysis
  | [], a => a
  | method :: rest, a =>
    noteProvided provided rest
      (a.noteIf (provided.contains method.name.text) method.name
        (.providedByTrait method.name.text))

/-- Names with those of a body's methods added. -/
def withMethods (provided : List String) (methods : List NamedFunction) : List String :=
  methods.foldl
    (fun names method =>
      if names.contains method.name.text then names else names ++ [method.name.text])
    provided

/-- Check that the used traits and the body declare no method twice; the names of all methods
that a class or trait composed of them has. -/
def checkComposition (traits : List Reference) (methods : List NamedFunction) (a : Analysis) :
    List String × Analysis :=
  let (provided, a) := provideAll traits ([], a)
  (withMethods provided methods, noteProvided provided methods a)

/-! ## The walk -/

/-- Resolve a variable that is read. -/
def resolveReference (ref : Reference) (a : Analysis) : Analysis :=
  (a.noteIf (a.inOwnInitializer ref.name.text) ref.name .ownInitializer).bindRead
    ref.id ref.name.text

/-- Resolve variables that are read, one after the other. -/
def resolveReferences (refs : List Reference) (a : Analysis) : Analysis :=
  refs.foldl (fun a ref => resolveReference ref a) a

/-- Resolve `this`. -/
def resolveThis (body : ClassContext) (id : RefId) (line : Nat) (a : Analysis) : Analysis :=
  match body with
  | .outside => a.note ⟨thisName, line⟩ .thisOutsideClass
  | _ => a.bindRead id thisName

/-- Resolve `super`. -/
def resolveSuper (body : ClassContext) (id : RefId) (line : Nat) (a : Analysis) : Analysis :=
  match body with
  | .outside => a.note ⟨superName, line⟩ .superOutsideClass
  | .traitBody => a.note ⟨superName, line⟩ .superInTrait
  | .plain => a.note ⟨superName, line⟩ .superWithoutSuperclass
  | .derived => a.bindRead id superName

/-- The word at which a misplaced `return` is reported. -/
def returnWord (line : Nat) : Name :=
  ⟨Keyword.returnWord.spelling, line⟩

/-- Check that a `return` has a function around it. -/
def checkReturn (context : FunctionContext) (line : Nat) (a : Analysis) : Analysis :=
  a.noteIf (context = .outside) (returnWord line) .returnOutsideFunction

/-- Check that a `return` with a value does not stand in an initializer. -/
def checkReturnValue (context : FunctionContext) (line : Nat) (a : Analysis) : Analysis :=
  a.noteIf (context = .initializer) (returnWord line) .valueFromInitializer

/-- Resolve the head of a class: its name, its superclass and its traits. -/
def resolveClassHead (name : Name) (superclass : Option Reference) (traits : List Reference)
    (methods : List NamedFunction) (a : Analysis) : Analysis :=
  let a := (a.declare name).define name
  let a := match superclass with
    | some ref =>
      resolveReference ref (a.noteIf (ref.name.text = name.text) ref.name .ownSuperclass)
    | none => a
  (checkComposition traits methods (resolveReferences traits a)).2

/-- Enter the scopes around the methods of a class. -/
def enterClass (name : Name) (superclass : Option Reference) (a : Analysis) : Analysis :=
  let a := if superclass.isSome then a.enter.bindImplicit superName name.line else a
  a.enter.bindImplicit thisName name.line

/-- Leave the scopes around the methods of a class. -/
def leaveClass (superclass : Option Reference) (a : Analysis) : Analysis :=
  let a := a.leave
  if superclass.isSome then a.leave else a

/-- Resolve the head of a trait, and remember which methods it has. -/
def resolveTraitHead (name : Name) (traits : List Reference) (methods : List NamedFunction)
    (a : Analysis) : Analysis :=
  let a := (a.declare name).define name
  let (provided, a) := checkComposition traits methods (resolveReferences traits a)
  a.changeTraits (·.insert name.text provided)

/-- What is around the methods of a class. -/
def classContext (superclass : Option Reference) : ClassContext :=
  if superclass.isSome then .derived else .plain

mutual

/-- Resolve an expression. -/
def resolveExpr (context : Context) : Expr → Analysis → Analysis
  | .literal _, a => a
  | .unary _ _ operand, a => resolveExpr context operand a
  | .binary left _ _ right, a => resolveExpr context right (resolveExpr context left a)
  | .logical left _ _ right, a => resolveExpr context right (resolveExpr context left a)
  | .conditional condition thenBranch elseBranch, a =>
    resolveExpr context elseBranch
      (resolveExpr context thenBranch (resolveExpr context condition a))
  | .grouping inner, a => resolveExpr context inner a
  | .variable ref, a => resolveReference ref a
  | .assign ref value, a => (resolveExpr context value a).bind ref.id ref.name.text
  | .call callee arguments _, a =>
    resolveArguments context arguments (resolveExpr context callee a)
  | .get object _, a => resolveExpr context object a
  | .set object _ value, a => resolveExpr context object (resolveExpr context value a)
  | .this id line, a => resolveThis context.body id line a
  | .super id line _, a => resolveSuper context.body id line a
  | .lambda _ function, a => resolveFunction { context with function := .ordinary } function a

/-- Resolve the arguments of a call. -/
def resolveArguments (context : Context) : List Expr → Analysis → Analysis
  | [], a => a
  | argument :: rest, a => resolveArguments context rest (resolveExpr context argument a)

/-- Resolve a function in a scope of its own. -/
def resolveFunction (context : Context) : Function → Analysis → Analysis
  | .mk params body, a =>
    (resolveBody context body (params.foldl Analysis.declareParameter a.enter)).leave

/-- Resolve the methods of a class or trait. -/
def resolveMethods (body : ClassContext) : List NamedFunction → Analysis → Analysis
  | [], a => a
  | .mk name function :: rest, a =>
    resolveMethods body rest (resolveFunction ⟨methodContext name, body⟩ function a)

/-- Resolve the methods that a class has itself; none of them is an initializer. -/
def resolveClassMethods (body : ClassContext) : List NamedFunction → Analysis → Analysis
  | [], a => a
  | .mk _ function :: rest, a =>
    resolveClassMethods body rest (resolveFunction ⟨.ordinary, body⟩ function a)

/-- Resolve a statement. -/
def resolveStmt (context : Context) : Stmt → Analysis → Analysis
  | .expression value, a => resolveExpr context value a
  | .print value, a => resolveExpr context value a
  | .varDecl name none, a => (a.declare name).define name
  | .varDecl name (some initial), a =>
    (resolveExpr context initial (a.declare name)).define name
  | .block body, a => (resolveBody context body a.enter).leave
  | .ifThen condition thenBranch none, a =>
    resolveStmt context thenBranch (resolveExpr context condition a)
  | .ifThen condition thenBranch (some elseBranch), a =>
    resolveStmt context elseBranch
      (resolveStmt context thenBranch (resolveExpr context condition a))
  | .whileDo condition body, a => resolveStmt context body (resolveExpr context condition a)
  | .breakLoop _, a => a
  | .returnWith line none, a => checkReturn context.function line a
  | .returnWith line (some value), a =>
    resolveExpr context value
      (checkReturnValue context.function line (checkReturn context.function line a))
  | .funDecl (.mk name function), a =>
    resolveFunction { context with function := .ordinary } function
      ((a.declare name).define name)
  | .classDecl name superclass traits methods classMethods, a =>
    let body := classContext superclass
    let a := enterClass name superclass (resolveClassHead name superclass traits methods a)
    leaveClass superclass
      (resolveClassMethods body classMethods (resolveMethods body methods a))
  | .traitDecl name traits methods, a =>
    let a := (resolveTraitHead name traits methods a).enter.bindImplicit thisName name.line
    (resolveMethods .traitBody methods a).leave

/-- Resolve statements, one after the other. -/
def resolveBody (context : Context) : List Stmt → Analysis → Analysis
  | [], a => a
  | statement :: rest, a => resolveBody context rest (resolveStmt context statement a)

end

/-- A resolver that starts on another program. -/
def Analysis.restart (a : Analysis) : Analysis :=
  { a with
    scopes := []
    globalTraits := Dictionary.empty
    bindings := Bindings.none
    problems := [] }

/-- The bindings of a program, or all misuses of names in it, as found by a resolver that may
have been used before; and what the resolver is left with. -/
def resolveWith (used : Analysis) (program : List Stmt) :
    Except (List Problem) Bindings × Analysis :=
  let a := resolveBody ⟨.outside, .outside⟩ program used.restart
  match a.problems with
  | [] => (.ok a.bindings, { a with bindings := Bindings.none })
  | problems => (.error problems, { a with problems := [] })

/-- The bindings of a program, or all misuses of names in it. -/
def resolve (program : List Stmt) : Except (List Problem) Bindings :=
  (resolveWith Analysis.start program).1

end Scoping

end LoxLang
