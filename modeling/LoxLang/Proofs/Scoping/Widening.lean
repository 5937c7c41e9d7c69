import LoxLang.Proofs.Scoping.Names
import LoxLang.Proofs.Tree.Formed

/-!
# Resolving with one more scope around

An empty scope around a part of a program makes no difference to what resolution finds there, if the
part declares nothing in it: `Widened` relates a walk to one with an empty scope somewhere among its
scopes, and each operation of the walk keeps them so related. Only bindings are left out, which
count the further scope.
-/

namespace LoxLang

namespace Scoping

open Analysis

/-- No variable of the innermost scope is being declared. -/
def Idle (scopes : List Scope) : Prop :=
  ∀ scope ∈ scopes.head?, ∀ v ∈ scope.slots, v.progress ≠ .declared

/-- Scopes, and the same ones with an empty scope behind a number of them, behind which no variable
is being declared. -/
inductive WidenedScopes : Nat → List Scope → List Scope → Prop
  | here {outer : List Scope} (settled : Idle outer) :
      WidenedScopes 0 outer (Scope.empty :: outer)
  | under {depth : Nat} {scope : Scope} {outer outer' : List Scope}
      (rest : WidenedScopes depth outer outer') :
      WidenedScopes (depth + 1) (scope :: outer) (scope :: outer')

/-- What has been found without and with the empty scope. -/
structure Widened (depth : Nat) (a a' : Analysis) : Prop where
  scopes : WidenedScopes depth a.scopes a'.scopes
  globalTraits : a'.globalTraits = a.globalTraits
  problems : a'.problems = a.problems

/-! ## Scopes -/

section

variable {depth : Nat} {scopes scopes' : List Scope}

/-- Reading does not start a declaration. -/
theorem Idle.markRead (settled : Idle scopes) (name : String) :
    Idle (Scoping.markRead name scopes) := by
  cases scopes with
  | nil => exact settled
  | cons scope outer =>
    have hscope := settled scope rfl
    unfold Scoping.markRead
    split
    · intro _ hmem v hv
      cases hmem
      obtain ⟨u, hu, rfl⟩ := List.mem_map.mp hv
      have hprogress := hscope u hu
      split
      · cases hcase : u.progress with
        | declared => exact absurd hcase hprogress
        | defined | read => simp [Progress.markRead]
      · exact hprogress
    · intro _ hmem
      cases hmem
      exact hscope

theorem WidenedScopes.markRead (h : WidenedScopes depth scopes scopes') (name : String) :
    WidenedScopes depth (Scoping.markRead name scopes) (Scoping.markRead name scopes') := by
  induction h with
  | here settled => exact .here (settled.markRead name)
  | under rest ih =>
    unfold Scoping.markRead
    split
    · exact .under rest
    · exact .under ih

theorem WidenedScopes.knownTrait? (h : WidenedScopes depth scopes scopes') (name : String)
    (globals : KnownTraits) :
    Scoping.knownTrait? name globals scopes' = Scoping.knownTrait? name globals scopes := by
  induction h with
  | here => rfl
  | under rest ih =>
    unfold Scoping.knownTrait?
    rw [ih]

end

/-! ## Operations -/

namespace Widened

variable {depth : Nat} {a a' : Analysis}

theorem note (h : Widened depth a a') (word : Name) (cause : Cause) :
    Widened depth (a.note word cause) (a'.note word cause) := by
  refine ⟨h.scopes, h.globalTraits, ?_⟩
  simp only [Analysis.note, h.problems]

theorem noteIf (h : Widened depth a a') (condition : Bool) (word : Name) (cause : Cause) :
    Widened depth (a.noteIf condition word cause) (a'.noteIf condition word cause) := by
  cases condition with
  | true => exact h.note word cause
  | false => exact h

theorem inOwnInitializer (h : Widened depth a a') (name : String) :
    a'.inOwnInitializer name = a.inOwnInitializer name := by
  obtain ⟨scopes, -, -⟩ := h
  unfold Analysis.inOwnInitializer
  generalize a.scopes = s, a'.scopes = s' at scopes
  cases scopes with
  | under rest => rfl
  | here settled =>
    cases s with
    | nil => rfl
    | cons scope outer =>
      -- Where the empty scope is the innermost one, its absence must not make a difference either.
      symm
      show scope.slots.any _ = false
      rw [List.any_eq_false]
      intro v hv
      simp [settled scope rfl v hv]

theorem bind (h : Widened depth a a') (id : RefId) (name : String) :
    Widened depth (a.bind id name) (a'.bind id name) := by
  have hsame : ∀ b : Analysis, (b.bind id name).scopes = b.scopes ∧
      (b.bind id name).globalTraits = b.globalTraits ∧
      (b.bind id name).problems = b.problems := by
    intro b
    unfold Analysis.bind
    split <;> exact ⟨rfl, rfl, rfl⟩
  obtain ⟨hscopes, htraits, hproblems⟩ := hsame a
  obtain ⟨hscopes', htraits', hproblems'⟩ := hsame a'
  refine ⟨?_, ?_, ?_⟩
  · rw [hscopes, hscopes']
    exact h.scopes
  · rw [htraits, htraits', h.globalTraits]
  · rw [hproblems, hproblems', h.problems]

theorem bindRead (h : Widened depth a a') (id : RefId) (name : String) :
    Widened depth (a.bindRead id name) (a'.bindRead id name) := by
  obtain ⟨hscopes, htraits, hproblems⟩ := h.bind id name
  exact ⟨hscopes.markRead name, htraits, hproblems⟩

theorem enter (h : Widened depth a a') : Widened (depth + 1) a.enter a'.enter :=
  ⟨.under h.scopes, h.globalTraits, h.problems⟩

theorem leave (h : Widened (depth + 1) a a') : Widened depth a.leave a'.leave := by
  obtain ⟨scopes, traits, problems⟩ := h
  unfold Analysis.leave
  generalize hs : a.scopes = s, hs' : a'.scopes = s' at scopes
  cases scopes with
  | under rest => exact ⟨rest, traits, by simp only [problems]⟩

theorem changeInnermost (h : Widened (depth + 1) a a') (change : Scope → Scope) :
    Widened (depth + 1) (a.changeInnermost change) (a'.changeInnermost change) := by
  obtain ⟨scopes, traits, problems⟩ := h
  unfold Analysis.changeInnermost
  generalize hs : a.scopes = s, hs' : a'.scopes = s' at scopes
  cases scopes with
  | under rest => exact ⟨.under rest, traits, problems⟩

theorem changeTraits (h : Widened (depth + 1) a a') (change : KnownTraits → KnownTraits) :
    Widened (depth + 1) (a.changeTraits change) (a'.changeTraits change) := by
  obtain ⟨scopes, traits, problems⟩ := h
  unfold Analysis.changeTraits
  generalize hs : a.scopes = s, hs' : a'.scopes = s' at scopes
  cases scopes with
  | under rest => exact ⟨.under rest, traits, problems⟩

theorem declare (h : Widened (depth + 1) a a') (name : Name) :
    Widened (depth + 1) (a.declare name) (a'.declare name) := by
  have htraits := h.changeTraits (·.erase name.text)
  have hscopes := htraits.scopes
  unfold Analysis.declare
  dsimp only
  generalize hs : (a.changeTraits _).scopes = s, hs' : (a'.changeTraits _).scopes = s' at hscopes
  cases hscopes with
  | under rest =>
    dsimp only
    split
    · exact htraits.note name .alreadyDeclared
    · exact htraits.changeInnermost _

theorem define (h : Widened (depth + 1) a a') (name : Name) :
    Widened (depth + 1) (a.define name) (a'.define name) :=
  h.changeInnermost _

theorem declareName (h : Widened (depth + 1) a a') (name : Name) :
    Widened (depth + 1) ((a.declare name).define name) ((a'.declare name).define name) :=
  (h.declare name).define name

theorem declareParameters (h : Widened (depth + 1) a a') (params : List Name) :
    Widened (depth + 1) (params.foldl Analysis.declareParameter a)
      (params.foldl Analysis.declareParameter a') := by
  induction params generalizing a a' with
  | nil => exact h
  | cons param rest ih => exact ih ((h.declare param).changeInnermost _)

theorem bindImplicit (h : Widened (depth + 1) a a') (name : String) (line : Nat) :
    Widened (depth + 1) (a.bindImplicit name line) (a'.bindImplicit name line) :=
  h.changeInnermost _

/-! ## Names and words -/

theorem resolveReference (h : Widened depth a a') (ref : Reference) :
    Widened depth (Scoping.resolveReference ref a) (Scoping.resolveReference ref a') := by
  unfold Scoping.resolveReference
  rw [h.inOwnInitializer]
  exact (h.noteIf _ ref.name .ownInitializer).bindRead ref.id ref.name.text

theorem resolveReferences (h : Widened depth a a') (refs : List Reference) :
    Widened depth (Scoping.resolveReferences refs a) (Scoping.resolveReferences refs a') := by
  induction refs generalizing a a' with
  | nil => exact h
  | cons ref rest ih => exact ih (h.resolveReference ref)

theorem resolveThis (h : Widened depth a a') (body : ClassContext) (id : RefId) (line : Nat) :
    Widened depth (Scoping.resolveThis body id line a) (Scoping.resolveThis body id line a') := by
  cases body with
  | outside => exact h.note ⟨thisName, line⟩ .thisOutsideClass
  | _ => exact h.bindRead id thisName

theorem resolveSuper (h : Widened depth a a') (body : ClassContext) (id : RefId) (line : Nat) :
    Widened depth (Scoping.resolveSuper body id line a) (Scoping.resolveSuper body id line a') := by
  cases body with
  | outside => exact h.note ⟨superName, line⟩ .superOutsideClass
  | traitBody => exact h.note ⟨superName, line⟩ .superInTrait
  | plain => exact h.note ⟨superName, line⟩ .superWithoutSuperclass
  | derived => exact h.bindRead id superName

theorem checkReturn (h : Widened depth a a') (context : FunctionContext) (line : Nat) :
    Widened depth (Scoping.checkReturn context line a) (Scoping.checkReturn context line a') :=
  h.noteIf _ (returnWord line) .returnOutsideFunction

theorem checkReturnValue (h : Widened depth a a') (context : FunctionContext) (line : Nat) :
    Widened depth (Scoping.checkReturnValue context line a)
      (Scoping.checkReturnValue context line a') :=
  h.noteIf _ (returnWord line) .valueFromInitializer

/-! ## Heads of classes and traits -/

theorem provide (h : Widened depth a a') (word : Name) (methods provided : List String) :
    (Scoping.provide word methods (provided, a')).1 =
        (Scoping.provide word methods (provided, a)).1 ∧
      Widened depth (Scoping.provide word methods (provided, a)).2
        (Scoping.provide word methods (provided, a')).2 := by
  induction methods generalizing provided a a' with
  | nil => exact ⟨rfl, h⟩
  | cons method rest ih =>
    unfold Scoping.provide
    split
    · exact ih (h.note word (.traitsShare method)) provided
    · exact ih h _

theorem provideAll (h : Widened depth a a') (traits : List Reference) (provided : List String) :
    (Scoping.provideAll traits (provided, a')).1 = (Scoping.provideAll traits (provided, a)).1 ∧
      Widened depth (Scoping.provideAll traits (provided, a)).2
        (Scoping.provideAll traits (provided, a')).2 := by
  induction traits generalizing provided a a' with
  | nil => exact ⟨rfl, h⟩
  | cons used rest ih =>
    have hknown : knownTrait? used.name.text a'.globalTraits a'.scopes =
        knownTrait? used.name.text a.globalTraits a.scopes := by
      rw [h.globalTraits]
      exact h.scopes.knownTrait? used.name.text a.globalTraits
    unfold Scoping.provideAll
    rw [hknown]
    split
    · next methods _ =>
      let sorted := methods.mergeSort fun m n => decide (m ≤ n)
      obtain ⟨hprovided, hwidened⟩ := h.provide used.name sorted provided
      have hpair : Scoping.provide used.name sorted (provided, a') =
          ((Scoping.provide used.name sorted (provided, a)).1,
            (Scoping.provide used.name sorted (provided, a')).2) :=
        Prod.ext hprovided rfl
      show (Scoping.provideAll rest (Scoping.provide used.name sorted (provided, a'))).1 = _ ∧
        Widened depth _ (Scoping.provideAll rest (Scoping.provide used.name sorted _)).2
      rw [hpair]
      exact ih hwidened _
    · exact ih h provided

theorem noteProvided (h : Widened depth a a') (provided : List String)
    (methods : List NamedFunction) :
    Widened depth (Scoping.noteProvided provided methods a)
      (Scoping.noteProvided provided methods a') := by
  induction methods generalizing a a' with
  | nil => exact h
  | cons method rest ih => exact ih (h.noteIf _ _ _)

theorem checkComposition (h : Widened depth a a') (traits : List Reference)
    (methods : List NamedFunction) :
    (Scoping.checkComposition traits methods a').1 =
        (Scoping.checkComposition traits methods a).1 ∧
      Widened depth (Scoping.checkComposition traits methods a).2
        (Scoping.checkComposition traits methods a').2 := by
  obtain ⟨hprovided, hwidened⟩ := h.provideAll traits []
  unfold Scoping.checkComposition
  simp only [hprovided]
  exact ⟨trivial, hwidened.noteProvided _ methods⟩

theorem resolveClassHead (h : Widened (depth + 1) a a') (name : Name)
    (superclass : Option Reference) (traits : List Reference) (methods : List NamedFunction) :
    Widened (depth + 1) (Scoping.resolveClassHead name superclass traits methods a)
      (Scoping.resolveClassHead name superclass traits methods a') := by
  have hname := h.declareName name
  have hcheck {b b' : Analysis} (hb : Widened (depth + 1) b b') :=
    ((hb.resolveReferences traits).checkComposition traits methods).2
  cases superclass with
  | none => exact hcheck hname
  | some ref => exact hcheck ((hname.noteIf _ ref.name .ownSuperclass).resolveReference ref)

theorem resolveTraitHead (h : Widened (depth + 1) a a') (name : Name) (traits : List Reference)
    (methods : List NamedFunction) :
    Widened (depth + 1) (Scoping.resolveTraitHead name traits methods a)
      (Scoping.resolveTraitHead name traits methods a') := by
  obtain ⟨hprovided, hwidened⟩ :=
    ((h.declareName name).resolveReferences traits).checkComposition traits methods
  unfold Scoping.resolveTraitHead
  simp only [hprovided]
  exact hwidened.changeTraits _

/-- A walk in the scopes around the methods of a class. -/
theorem methods (h : Widened depth a a') (name : Name) (superclass : Option Reference)
    {step : Analysis → Analysis}
    (hstep : ∀ inner (b b' : Analysis), Widened inner b b' → Widened inner (step b) (step b')) :
    Widened depth (leaveClass superclass (step (enterClass name superclass a)))
      (leaveClass superclass (step (enterClass name superclass a'))) := by
  cases superclass with
  | none => exact (hstep _ _ _ (h.enter.bindImplicit thisName name.line)).leave
  | some ref =>
    have hsuper := h.enter.bindImplicit superName name.line
    exact (hstep _ _ _ (hsuper.enter.bindImplicit thisName name.line)).leave.leave

end Widened

/-! ## Trees -/

/-- A statement that can stand behind a number of scopes with the empty scope behind these: in that
scope, only one that declares nothing. -/
def Still (depth : Nat) (s : Stmt) : Prop :=
  depth = 0 → s.Formed ∧ s.declared? = none

theorem Still.exists_succ {depth : Nat} {s : Stmt} (h : Still depth s) {name : Name}
    (declares : s.declared? = some name) : ∃ outer, depth = outer + 1 := by
  cases depth with
  | zero =>
    have hnone := (h rfl).2
    rw [declares] at hnone
    cases hnone
  | succ outer => exact ⟨outer, rfl⟩

theorem still_succ (depth : Nat) (s : Stmt) : Still (depth + 1) s :=
  nofun

mutual

theorem widened_resolveExpr : ∀ (e : Expr) (context : Context) (depth : Nat) (a a' : Analysis),
    Widened depth a a' → Widened depth (resolveExpr context e a) (resolveExpr context e a')
  | .literal _, _, _, _, _, h => h
  | .unary _ _ operand, context, depth, _, _, h => widened_resolveExpr operand context depth _ _ h
  | .binary left _ _ right, context, depth, _, _, h =>
    widened_resolveExpr right context depth _ _ (widened_resolveExpr left context depth _ _ h)
  | .logical left _ _ right, context, depth, _, _, h =>
    widened_resolveExpr right context depth _ _ (widened_resolveExpr left context depth _ _ h)
  | .conditional condition thenBranch elseBranch, context, depth, _, _, h =>
    widened_resolveExpr elseBranch context depth _ _
      (widened_resolveExpr thenBranch context depth _ _
        (widened_resolveExpr condition context depth _ _ h))
  | .grouping inner, context, depth, _, _, h => widened_resolveExpr inner context depth _ _ h
  | .variable ref, _, _, _, _, h => h.resolveReference ref
  | .assign ref value, context, depth, _, _, h =>
    (widened_resolveExpr value context depth _ _ h).bind ref.id ref.name.text
  | .call callee arguments _, context, depth, _, _, h =>
    widened_resolveArguments arguments context depth _ _
      (widened_resolveExpr callee context depth _ _ h)
  | .get object _, context, depth, _, _, h => widened_resolveExpr object context depth _ _ h
  | .set object _ value, context, depth, _, _, h =>
    widened_resolveExpr object context depth _ _ (widened_resolveExpr value context depth _ _ h)
  | .this id line, context, _, _, _, h => h.resolveThis context.body id line
  | .super id line _, context, _, _, _, h => h.resolveSuper context.body id line
  | .lambda _ function, _, depth, _, _, h => widened_resolveFunction function _ depth _ _ h

theorem widened_resolveArguments : ∀ (arguments : List Expr) (context : Context) (depth : Nat)
    (a a' : Analysis), Widened depth a a' →
    Widened depth (resolveArguments context arguments a) (resolveArguments context arguments a')
  | [], _, _, _, _, h => h
  | argument :: rest, context, depth, _, _, h =>
    widened_resolveArguments rest context depth _ _
      (widened_resolveExpr argument context depth _ _ h)

theorem widened_resolveFunction : ∀ (f : Function) (context : Context) (depth : Nat)
    (a a' : Analysis), Widened depth a a' →
    Widened depth (resolveFunction context f a) (resolveFunction context f a')
  | .mk params body, context, depth, _, _, h =>
    (widened_resolveBody body context depth _ _ (h.enter.declareParameters params)).leave

theorem widened_resolveMethods : ∀ (methods : List NamedFunction) (body : ClassContext)
    (depth : Nat) (a a' : Analysis), Widened depth a a' →
    Widened depth (resolveMethods body methods a) (resolveMethods body methods a')
  | [], _, _, _, _, h => h
  | .mk name function :: rest, body, depth, _, _, h =>
    widened_resolveMethods rest body depth _ _
      (widened_resolveFunction function ⟨methodContext name, body⟩ depth _ _ h)

theorem widened_resolveClassMethods : ∀ (methods : List NamedFunction) (body : ClassContext)
    (depth : Nat) (a a' : Analysis), Widened depth a a' →
    Widened depth (resolveClassMethods body methods a) (resolveClassMethods body methods a')
  | [], _, _, _, _, h => h
  | .mk _ function :: rest, body, depth, _, _, h =>
    widened_resolveClassMethods rest body depth _ _
      (widened_resolveFunction function ⟨.ordinary, body⟩ depth _ _ h)

theorem widened_resolveStmt : ∀ (s : Stmt) (context : Context) (depth : Nat) (a a' : Analysis),
    Still depth s → Widened depth a a' →
    Widened depth (resolveStmt context s a) (resolveStmt context s a')
  | .expression value, context, depth, _, _, _, h => widened_resolveExpr value context depth _ _ h
  | .print value, context, depth, _, _, _, h => widened_resolveExpr value context depth _ _ h
  | .varDecl name none, _, _, _, _, still, h => by
    -- The empty scope declares nothing, so that a declaration stands in one of the scopes before
    -- it.
    obtain ⟨outer, rfl⟩ := still.exists_succ rfl
    exact h.declareName name
  | .varDecl name (some initial), context, _, _, _, still, h => by
    obtain ⟨outer, rfl⟩ := still.exists_succ rfl
    exact (widened_resolveExpr initial context _ _ _ (h.declare name)).define name
  | .block body, context, depth, _, _, _, h =>
    (widened_resolveBody body context depth _ _ h.enter).leave
  | .ifThen condition thenBranch none, context, depth, _, _, still, h => by
    have hthen : Still depth thenBranch := fun hzero => (still hzero).1.2
    have hcondition := widened_resolveExpr condition context depth _ _ h
    exact widened_resolveStmt thenBranch context depth _ _ hthen hcondition
  | .ifThen condition thenBranch (some elseBranch), context, depth, _, _, still, h => by
    have hthen : Still depth thenBranch := fun hzero =>
      ⟨(still hzero).1.2.1, (still hzero).1.2.2.1⟩
    have helse : Still depth elseBranch := fun hzero => (still hzero).1.2.2.2
    have hcondition := widened_resolveExpr condition context depth _ _ h
    exact widened_resolveStmt elseBranch context depth _ _ helse
      (widened_resolveStmt thenBranch context depth _ _ hthen hcondition)
  | .whileDo condition body, context, depth, _, _, still, h => by
    have hbody : Still depth body := fun hzero => (still hzero).1.2
    have hcondition := widened_resolveExpr condition context depth _ _ h
    exact widened_resolveStmt body context depth _ _ hbody hcondition
  | .breakLoop _, _, _, _, _, _, h => h
  | .returnWith line none, context, _, _, _, _, h => h.checkReturn context.function line
  | .returnWith line (some value), context, depth, _, _, _, h =>
    widened_resolveExpr value context depth _ _
      ((h.checkReturn context.function line).checkReturnValue context.function line)
  | .funDecl (.mk name function), _, _, _, _, still, h => by
    obtain ⟨outer, rfl⟩ := still.exists_succ rfl
    exact widened_resolveFunction function _ _ _ _ (h.declareName name)
  | .classDecl name superclass traits methods classMethods, _, _, _, _, still, h => by
    obtain ⟨outer, rfl⟩ := still.exists_succ rfl
    have hmethods (inner : Nat) (b b' : Analysis) (hb : Widened inner b b') :=
      widened_resolveClassMethods classMethods (classContext superclass) inner _ _
        (widened_resolveMethods methods (classContext superclass) inner b b' hb)
    exact (h.resolveClassHead name superclass traits methods).methods name superclass hmethods
  | .traitDecl name traits methods, _, _, _, _, still, h => by
    obtain ⟨outer, rfl⟩ := still.exists_succ rfl
    have hopened := (h.resolveTraitHead name traits methods).enter.bindImplicit thisName name.line
    exact (widened_resolveMethods methods .traitBody _ _ _ hopened).leave

theorem widened_resolveBody : ∀ (body : List Stmt) (context : Context) (depth : Nat)
    (a a' : Analysis), Widened (depth + 1) a a' →
    Widened (depth + 1) (resolveBody context body a) (resolveBody context body a')
  | [], _, _, _, _, h => h
  | statement :: rest, context, depth, _, _, h =>
    widened_resolveBody rest context depth _ _
      (widened_resolveStmt statement context (depth + 1) _ _ (still_succ depth statement) h)

end

end Scoping

end LoxLang
