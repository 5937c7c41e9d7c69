import LoxLang.Proofs.Scoping.Reports

/-!
# Words that need a certain place

Whether a `return`, a `this` or a `super` may stand where it stands is decided by the nearest
function around it, or by the nearest class or trait around it, whatever else lies between and
further out. The placements of a tree are all these words, each with the functions, classes and
traits around it, and resolution reports exactly those whose nearest enclosure does not admit them
(`placement_by_nearest`).
-/

namespace LoxLang

/-! ## What is around a word -/

/-- A part of a program that can decide what may stand in it: a function, be it declared by a
statement or without a name, a method of the instances of a class or trait, a method of a class
itself, and the body of a class or of a trait. -/
inductive Enclosure
  | function
  | method (name : String)
  | classMethod
  | classBody (derived : Bool)
  | traitBody
deriving Repr, DecidableEq

/-- Parts from which a `return` can lead. -/
def Enclosure.isFunction : Enclosure → Bool
  | function => true
  | method _ => true
  | classMethod => true
  | classBody _ => false
  | traitBody => false

/-- Parts in which there is an object that `this` can be. -/
def Enclosure.isBody (e : Enclosure) : Bool :=
  !e.isFunction

/-- The words that need a certain place. -/
inductive PlacedWord
  | returns (valued : Bool)
  | receiver
  | superclass
deriving Repr, DecidableEq

/-- A word that needs a certain place, its line, and the parts of the program around it, innermost
first. -/
structure Placement where
  word : PlacedWord
  line : Nat
  around : List Enclosure
deriving Repr, DecidableEq

namespace Placement

/-- The nearest function around a word. -/
def function? (p : Placement) : Option Enclosure :=
  p.around.find? Enclosure.isFunction

/-- The nearest class or trait around a word. -/
def body? (p : Placement) : Option Enclosure :=
  p.around.find? Enclosure.isBody

/-- What is wrong with a word at its place. -/
def cause? (p : Placement) : Option Scoping.Cause :=
  match p.word with
  | .returns valued =>
    match p.function? with
    | none => some .returnOutsideFunction
    | some (.method name) =>
      if valued ∧ name = initializerName then some .valueFromInitializer else none
    | some _ => none
  | .receiver =>
    match p.body? with
    | none => some .thisOutsideClass
    | some _ => none
  | .superclass =>
    match p.body? with
    | none => some .superOutsideClass
    | some (.classBody derived) => if derived then none else some .superWithoutSuperclass
    | some _ => some .superInTrait

/-- A word as it is reported. -/
def name (p : Placement) : Name :=
  match p.word with
  | .returns _ => Scoping.returnWord p.line
  | .receiver => ⟨thisName, p.line⟩
  | .superclass => ⟨superName, p.line⟩

/-- The problem of a word that is out of place. -/
def problem? (p : Placement) : Option Scoping.Problem :=
  p.cause?.map fun cause => ⟨p.name, cause⟩

end Placement

/-- The causes that have to do with the place of a word. -/
def Scoping.Cause.ofPlace : Scoping.Cause → Bool
  | returnOutsideFunction => true
  | valueFromInitializer => true
  | thisOutsideClass => true
  | superOutsideClass => true
  | superInTrait => true
  | superWithoutSuperclass => true
  | _ => false

/-! ## The placements of a tree

They come in the order in which resolution gets to them, in which the value that is given to a
property precedes the object that has the property. -/

mutual

/-- The placements of an expression. -/
def Expr.placements (around : List Enclosure) : Expr → List Placement
  | .literal _ => []
  | .unary _ _ operand => operand.placements around
  | .binary left _ _ right => left.placements around ++ right.placements around
  | .logical left _ _ right => left.placements around ++ right.placements around
  | .conditional condition thenBranch elseBranch =>
    condition.placements around ++ thenBranch.placements around ++ elseBranch.placements around
  | .grouping inner => inner.placements around
  | .variable _ => []
  | .assign _ value => value.placements around
  | .call callee arguments _ => callee.placements around ++ placementsInArguments around arguments
  | .get object _ => object.placements around
  | .set object _ value => value.placements around ++ object.placements around
  | .this _ line => [⟨.receiver, line, around⟩]
  | .super _ line _ => [⟨.superclass, line, around⟩]
  | .lambda _ function => function.placements (.function :: around)

/-- The placements of the arguments of a call. -/
def placementsInArguments (around : List Enclosure) : List Expr → List Placement
  | [] => []
  | argument :: rest => argument.placements around ++ placementsInArguments around rest

/-- The placements of a function. -/
def Function.placements (around : List Enclosure) : Function → List Placement
  | .mk _ body => placementsInBody around body

/-- The placements of the methods of a class or trait. -/
def placementsInMethods (around : List Enclosure) : List NamedFunction → List Placement
  | [] => []
  | .mk name function :: rest =>
    function.placements (.method name.text :: around) ++ placementsInMethods around rest

/-- The placements of the methods that a class has itself. -/
def placementsInClassMethods (around : List Enclosure) : List NamedFunction → List Placement
  | [] => []
  | .mk _ function :: rest =>
    function.placements (.classMethod :: around) ++ placementsInClassMethods around rest

/-- The placements of a statement. -/
def Stmt.placements (around : List Enclosure) : Stmt → List Placement
  | .expression value => value.placements around
  | .print value => value.placements around
  | .varDecl _ none => []
  | .varDecl _ (some initial) => initial.placements around
  | .block body => placementsInBody around body
  | .ifThen condition thenBranch none =>
    condition.placements around ++ thenBranch.placements around
  | .ifThen condition thenBranch (some elseBranch) =>
    condition.placements around ++ thenBranch.placements around ++ elseBranch.placements around
  | .whileDo condition body => condition.placements around ++ body.placements around
  | .breakLoop _ => []
  | .returnWith line none => [⟨.returns false, line, around⟩]
  | .returnWith line (some value) => ⟨.returns true, line, around⟩ :: value.placements around
  | .funDecl (.mk _ function) => function.placements (.function :: around)
  | .classDecl _ superclass _ methods classMethods =>
    placementsInMethods (.classBody superclass.isSome :: around) methods ++
      placementsInClassMethods (.classBody superclass.isSome :: around) classMethods
  | .traitDecl _ _ methods => placementsInMethods (.traitBody :: around) methods

/-- The placements of statements that stand one after the other. -/
def placementsInBody (around : List Enclosure) : List Stmt → List Placement
  | [] => []
  | statement :: rest => statement.placements around ++ placementsInBody around rest

end

namespace Scoping

open Analysis

/-! ## What the walk knows of its place -/

/-- What the nearest function is to a `return`. -/
def functionContext (around : List Enclosure) : FunctionContext :=
  match around.find? Enclosure.isFunction with
  | none => .outside
  | some (.method name) => if name = initializerName then .initializer else .ordinary
  | some _ => .ordinary

/-- What the nearest class or trait is to `this` and `super`. -/
def bodyContext (around : List Enclosure) : ClassContext :=
  match around.find? Enclosure.isBody with
  | none => .outside
  | some (.classBody derived) => if derived then .derived else .plain
  | some _ => .traitBody

/-- What the walk has to know in certain parts of a program. -/
def contextOf (around : List Enclosure) : Context :=
  ⟨functionContext around, bodyContext around⟩

theorem bodyContext_classBody (superclass : Option Reference) (around : List Enclosure) :
    bodyContext (.classBody superclass.isSome :: around) = classContext superclass :=
  rfl

/-- A part of the walk reports the placements of the part of the tree that are wrong. -/
def Places (step : Analysis → Analysis) (placements : List Placement) : Prop :=
  Reports Cause.ofPlace step (placements.filterMap Placement.problem?)

theorem unconcerned_ofPlace : Unconcerned Cause.ofPlace :=
  ⟨rfl, rfl, rfl, fun _ => rfl, fun _ => rfl⟩

theorem places_of_reports {step : Analysis → Analysis} (h : Reports Cause.ofPlace step []) :
    Places step [] :=
  h

theorem Places.comp {first second : Analysis → Analysis} {placements placements' : List Placement}
    (h : Places first placements) (h' : Places second placements') :
    Places (fun a => second (first a)) (placements ++ placements') := by
  unfold Places
  rw [List.filterMap_append]
  exact Reports.comp h h'

/-- Scopes are left without a report of a place. -/
theorem places_leave : Reports Cause.ofPlace Analysis.leave [] := by
  intro a
  unfold Analysis.leave
  split
  · rw [List.append_nil]
  · unfold Analysis.reports
    rw [List.filter_append]
    congr 1
    rw [List.filter_eq_nil_iff]
    intro problem hproblem
    obtain ⟨v, -, rfl⟩ := List.mem_map.mp hproblem
    simp [Cause.ofPlace]

theorem places_leaveClass (superclass : Option Reference) :
    Reports Cause.ofPlace (leaveClass superclass) [] := by
  cases superclass with
  | none => exact places_leave
  | some ref => exact places_leave.preceded places_leave

/-! ## Single words -/

theorem places_this (around : List Enclosure) (id : RefId) (line : Nat) :
    Places (resolveThis (bodyContext around) id line) [⟨.receiver, line, around⟩] := by
  unfold Places
  simp only [List.filterMap_cons, List.filterMap_nil, Placement.problem?, Placement.cause?,
    Placement.body?, bodyContext]
  -- Only the nearest class or trait counts, and in any of them the word is in its place.
  rcases hbody : around.find? Enclosure.isBody with _ | body
  · exact reports_note ⟨thisName, line⟩ .thisOutsideClass
  · have hread : Reports Cause.ofPlace (fun a => a.bindRead id thisName) [] :=
      reports_bindRead id thisName
    cases body with
    | classBody derived => cases derived <;> exact hread
    | _ => exact hread

theorem places_super (around : List Enclosure) (id : RefId) (line : Nat) :
    Places (resolveSuper (bodyContext around) id line) [⟨.superclass, line, around⟩] := by
  unfold Places
  simp only [List.filterMap_cons, List.filterMap_nil, Placement.problem?, Placement.cause?,
    Placement.body?, bodyContext]
  rcases hbody : around.find? Enclosure.isBody with _ | body
  · exact reports_note ⟨superName, line⟩ .superOutsideClass
  · cases body with
    | classBody derived =>
      cases derived with
      | false => exact reports_note ⟨superName, line⟩ .superWithoutSuperclass
      | true => exact reports_bindRead id superName
    | _ => exact reports_note ⟨superName, line⟩ .superInTrait

/-- What is wrong with a `return` by what the nearest function is to it. -/
theorem cause_returns (valued : Bool) (line : Nat) (around : List Enclosure) :
    (Placement.mk (.returns valued) line around).cause? =
      match functionContext around with
      | .outside => some .returnOutsideFunction
      | .initializer => if valued then some .valueFromInitializer else none
      | .ordinary => none := by
  simp only [Placement.cause?, Placement.function?, functionContext]
  rcases around.find? Enclosure.isFunction with _ | nearest
  · rfl
  · cases nearest with
    | method name => by_cases hname : name = initializerName <;> simp [hname]
    | _ => rfl

/-- The check of a `return`, with or without a value. -/
theorem places_return (around : List Enclosure) (line : Nat) :
    Places (checkReturn (functionContext around) line) [⟨.returns false, line, around⟩] := by
  intro a
  unfold checkReturn
  rw [reports_noteIf]
  simp only [List.filterMap_cons, List.filterMap_nil, Placement.problem?, cause_returns]
  cases functionContext around <;> rfl

theorem places_returnValue (around : List Enclosure) (line : Nat) :
    Places (fun a => checkReturnValue (functionContext around) line
      (checkReturn (functionContext around) line a)) [⟨.returns true, line, around⟩] := by
  intro a
  unfold checkReturnValue checkReturn
  rw [reports_noteIf, reports_noteIf, List.append_assoc]
  simp only [List.filterMap_cons, List.filterMap_nil, Placement.problem?, cause_returns]
  -- The two checks exclude each other: the nearest function is absent or an initializer.
  cases functionContext around <;> rfl

/-! ## The whole walk -/

/-- A scope that is entered and left. -/
theorem places_scope {step : Analysis → Analysis} {placements : List Placement}
    (h : Places step placements) : Places (fun a => (step a.enter).leave) placements :=
  (Reports.preceded h reports_enter).followed places_leave

mutual

theorem places_resolveExpr : ∀ (e : Expr) (around : List Enclosure),
    Places (resolveExpr (contextOf around) e) (e.placements around)
  | .literal _, _ => places_of_reports (reports_of_eq fun _ => rfl)
  | .unary _ _ operand, around => places_resolveExpr operand around
  | .binary left _ _ right, around =>
    (places_resolveExpr left around).comp (places_resolveExpr right around)
  | .logical left _ _ right, around =>
    (places_resolveExpr left around).comp (places_resolveExpr right around)
  | .conditional condition thenBranch elseBranch, around =>
    ((places_resolveExpr condition around).comp (places_resolveExpr thenBranch around)).comp
      (places_resolveExpr elseBranch around)
  | .grouping inner, around => places_resolveExpr inner around
  | .variable ref, _ => places_of_reports (reports_resolveReference unconcerned_ofPlace ref)
  | .assign ref value, around => by
    have hbound : Reports Cause.ofPlace (fun a => a.bind ref.id ref.name.text) [] :=
      reports_bind ref.id ref.name.text
    have hassigned := Reports.followed (places_resolveExpr value around) hbound
    exact hassigned
  | .call callee arguments _, around =>
    (places_resolveExpr callee around).comp (places_resolveArguments arguments around)
  | .get object _, around => places_resolveExpr object around
  | .set object _ value, around =>
    (places_resolveExpr value around).comp (places_resolveExpr object around)
  | .this id line, around => places_this around id line
  | .super id line _, around => places_super around id line
  | .lambda _ function, around => places_resolveFunction function (.function :: around)

theorem places_resolveArguments : ∀ (arguments : List Expr) (around : List Enclosure),
    Places (resolveArguments (contextOf around) arguments)
      (placementsInArguments around arguments)
  | [], _ => places_of_reports (reports_of_eq fun _ => rfl)
  | argument :: rest, around =>
    (places_resolveExpr argument around).comp (places_resolveArguments rest around)

theorem places_resolveFunction : ∀ (f : Function) (around : List Enclosure),
    Places (resolveFunction (contextOf around) f) (f.placements around)
  | .mk params body, around =>
    places_scope (Reports.preceded (places_resolveBody body around)
      (reports_declareParameters unconcerned_ofPlace params))

theorem places_resolveMethods : ∀ (methods : List NamedFunction) (around : List Enclosure),
    Places (resolveMethods (bodyContext around) methods) (placementsInMethods around methods)
  | [], _ => places_of_reports (reports_of_eq fun _ => rfl)
  | .mk name function :: rest, around =>
    (places_resolveFunction function (.method name.text :: around)).comp
      (places_resolveMethods rest around)

theorem places_resolveClassMethods : ∀ (methods : List NamedFunction)
    (around : List Enclosure),
    Places (resolveClassMethods (bodyContext around) methods)
      (placementsInClassMethods around methods)
  | [], _ => places_of_reports (reports_of_eq fun _ => rfl)
  | .mk _ function :: rest, around =>
    (places_resolveFunction function (.classMethod :: around)).comp
      (places_resolveClassMethods rest around)

theorem places_resolveStmt : ∀ (s : Stmt) (around : List Enclosure),
    Places (resolveStmt (contextOf around) s) (s.placements around)
  | .expression value, around => places_resolveExpr value around
  | .print value, around => places_resolveExpr value around
  | .varDecl name none, _ => places_of_reports (reports_declareName unconcerned_ofPlace name)
  | .varDecl name (some initial), around =>
    (Reports.preceded (places_resolveExpr initial around)
      (reports_declare unconcerned_ofPlace name)).followed (reports_define name)
  | .block body, around => places_scope (places_resolveBody body around)
  | .ifThen condition thenBranch none, around =>
    (places_resolveExpr condition around).comp (places_resolveStmt thenBranch around)
  | .ifThen condition thenBranch (some elseBranch), around =>
    ((places_resolveExpr condition around).comp (places_resolveStmt thenBranch around)).comp
      (places_resolveStmt elseBranch around)
  | .whileDo condition body, around =>
    (places_resolveExpr condition around).comp (places_resolveStmt body around)
  | .breakLoop _, _ => places_of_reports (reports_of_eq fun _ => rfl)
  | .returnWith line none, around => places_return around line
  | .returnWith line (some value), around =>
    (places_returnValue around line).comp (places_resolveExpr value around)
  | .funDecl (.mk name function), around => by
    have hfunction := Reports.preceded (places_resolveFunction function (.function :: around))
      (reports_declareName unconcerned_ofPlace name)
    exact hfunction
  | .classDecl name superclass traits methods classMethods, around => by
    have hopened := (reports_enterClass name superclass).preceded
      (reports_resolveClassHead unconcerned_ofPlace name superclass traits methods)
    have hmethods := (places_resolveMethods methods (.classBody superclass.isSome :: around)).comp
      (places_resolveClassMethods classMethods (.classBody superclass.isSome :: around))
    rw [bodyContext_classBody] at hmethods
    exact (Reports.preceded hmethods hopened).followed (places_leaveClass superclass)
  | .traitDecl name traits methods, around => by
    have hopened := (reports_enterClass name none).preceded
      (reports_resolveTraitHead unconcerned_ofPlace name traits methods)
    exact (Reports.preceded (places_resolveMethods methods (.traitBody :: around)) hopened).followed
      places_leave

theorem places_resolveBody : ∀ (body : List Stmt) (around : List Enclosure),
    Places (resolveBody (contextOf around) body) (placementsInBody around body)
  | [], _ => places_of_reports (reports_of_eq fun _ => rfl)
  | statement :: rest, around =>
    (places_resolveStmt statement around).comp (places_resolveBody rest around)

end

/-! ## Exactly the words out of place -/

/-- The nearest class or trait is a class or a trait. -/
theorem isBody_of_body {p : Placement} {part : Enclosure} (h : p.body? = some part) :
    part.isBody = true := by
  have hfound : p.around.find? Enclosure.isBody = some part := h
  exact List.find?_some hfound

theorem function_eq_none_iff (p : Placement) :
    p.function? = none ↔ ∀ part ∈ p.around, part.isFunction = false := by
  unfold Placement.function?
  rw [List.find?_eq_none]
  simp only [Bool.not_eq_true]

theorem body_eq_none_iff (p : Placement) :
    p.body? = none ↔ ∀ part ∈ p.around, part.isBody = false := by
  unfold Placement.body?
  rw [List.find?_eq_none]
  simp only [Bool.not_eq_true]

/-- All that can be wrong with a word, by what is nearest to it. -/
theorem cause_eq_some_iff (p : Placement) (cause : Cause) :
    p.cause? = some cause ↔
      cause = .returnOutsideFunction ∧ (∃ valued, p.word = .returns valued) ∧ p.function? = none ∨
      cause = .valueFromInitializer ∧ p.word = .returns true ∧
        p.function? = some (.method initializerName) ∨
      cause = .thisOutsideClass ∧ p.word = .receiver ∧ p.body? = none ∨
      cause = .superOutsideClass ∧ p.word = .superclass ∧ p.body? = none ∨
      cause = .superInTrait ∧ p.word = .superclass ∧ p.body? = some .traitBody ∨
      cause = .superWithoutSuperclass ∧ p.word = .superclass ∧
        p.body? = some (.classBody false) := by
  obtain ⟨word, line, around⟩ := p
  cases word with
  | returns valued =>
    rw [cause_returns]
    simp only [functionContext, Placement.function?]
    rcases around.find? Enclosure.isFunction with _ | nearest
    · simp [eq_comm]
    · cases nearest with
      | method name =>
        by_cases hname : name = initializerName <;> cases valued <;> simp [hname, eq_comm]
      | _ => simp
  | receiver =>
    rcases hbody : (Placement.mk .receiver line around).body? with _ | part
    · simp [Placement.cause?, hbody, eq_comm]
    · simp [Placement.cause?, hbody]
  | superclass =>
    rcases hbody : (Placement.mk .superclass line around).body? with _ | part
    · simp [Placement.cause?, hbody, eq_comm]
    · have hpart := isBody_of_body hbody
      cases part with
      | classBody derived => cases derived <;> simp [Placement.cause?, hbody, eq_comm]
      | traitBody => simp [Placement.cause?, hbody, eq_comm]
      | function | method name | classMethod => simp [Enclosure.isBody, Enclosure.isFunction] at hpart

/-- Placement is decided by what is nearest. The problems that resolution reports of the places of
`return`, `this` and `super` are, in order, those of the words of the program that are out of place.
A `return` is so without a function around it; with a value, also if the nearest function is a
method of instances with the name of an initializer. A `this` is so without a class or trait around
it, and a `super` without one or if the nearest one is a trait or a class that extends no other. -/
theorem placement_by_nearest (program : List Stmt) :
    (misuses program).filter (fun problem => problem.cause.ofPlace) =
      (placementsInBody [] program).filterMap Placement.problem? ∧
    ∀ p : Placement,
      (p.cause? = some .returnOutsideFunction ↔
        (∃ valued, p.word = .returns valued) ∧ ∀ part ∈ p.around, part.isFunction = false) ∧
      (p.cause? = some .valueFromInitializer ↔
        p.word = .returns true ∧
          p.around.find? Enclosure.isFunction = some (.method initializerName)) ∧
      (p.cause? = some .thisOutsideClass ↔
        p.word = .receiver ∧ ∀ part ∈ p.around, part.isBody = false) ∧
      (p.cause? = some .superOutsideClass ↔
        p.word = .superclass ∧ ∀ part ∈ p.around, part.isBody = false) ∧
      (p.cause? = some .superInTrait ↔
        p.word = .superclass ∧ p.around.find? Enclosure.isBody = some .traitBody) ∧
      (p.cause? = some .superWithoutSuperclass ↔
        p.word = .superclass ∧ p.around.find? Enclosure.isBody = some (.classBody false)) := by
  constructor
  · have hwalk := places_resolveBody program [] Analysis.start.restart
    rw [misuses_eq]
    exact hwalk
  · intro p
    rw [← function_eq_none_iff, ← body_eq_none_iff]
    simp only [cause_eq_some_iff]
    refine ⟨?_, ?_, ?_, ?_, ?_, ?_⟩ <;> simp [Placement.function?, Placement.body?]

end Scoping

end LoxLang
