import LoxLang.Proofs.Scoping.Mentions
import LoxLang.Scoping.Problem

/-!
# Extents of scopes

The extent of a scope is the part of the program that it is around: the statements of a block, or
those of a function behind its parameters. An extent has the local variables that its statements
are the first in it to declare, each with the mentions of the extent before its declaration, in its
own initializer, and behind it (`Local`). A mention can refer to a local variable only from within
its extent, and not from before the declaration (`not_readsFrom_earlier`).
-/

namespace LoxLang

namespace Surroundings

/-- The scope of the variable that a name denotes, by the number of scopes outside of it. -/
def level? (name : String) : Surroundings → Option Nat
  | [] => none
  | scope :: outer => if name ∈ scope.names then some outer.length else level? name outer

/-- A level counts the scopes outward that the depth of a binding leaves. -/
theorem level?_eq_some_iff (name : String) (around : Surroundings) (level : Nat) :
    around.level? name = some level ↔
      ∃ b, around.Denotes name b ∧ b.depth + level + 1 = around.length := by
  induction around with
  | nil => simp [level?, not_denotes_nil]
  | cons scope outer ih =>
    by_cases mem : name ∈ scope.names
    · obtain ⟨earlier, later, hsplit⟩ := List.append_of_mem mem
      simp only [level?, mem, if_true, Option.some.injEq, List.length_cons]
      constructor
      · intro hlevel
        refine ⟨⟨0, earlier.length⟩, ?_, by simp [hlevel]⟩
        exact (denotes_cons_of_mem mem outer _).mpr ⟨earlier, later, hsplit, rfl⟩
      · rintro ⟨b, hb, hlength⟩
        obtain ⟨earlier', later', -, rfl⟩ := (denotes_cons_of_mem mem outer b).mp hb
        simp only at hlength
        omega
    · simp only [level?, mem, if_false, ih, List.length_cons]
      constructor
      · rintro ⟨b, hb, hlength⟩
        refine ⟨{ b with depth := b.depth + 1 }, ?_, by simp only; omega⟩
        exact (denotes_cons_of_not_mem mem outer _).mpr ⟨b, hb, rfl⟩
      · rintro ⟨b, hb, hlength⟩
        obtain ⟨b', hb', rfl⟩ := (denotes_cons_of_not_mem mem outer b).mp hb
        exact ⟨b', hb', by simp only at hlength; omega⟩

theorem level?_lt {name : String} {around : Surroundings} {level : Nat}
    (h : around.level? name = some level) : level < around.length := by
  obtain ⟨b, -, hlength⟩ := (level?_eq_some_iff name around level).mp h
  omega

/-- A name denotes no variable of a scope that has not begun to declare it. -/
theorem level?_ne_of_not_mem {name : String} {scope : Begun} {outer : Surroundings}
    (missing : name ∉ scope.names) {around : Surroundings} (within : scope :: outer <:+ around) :
    around.level? name ≠ some outer.length := by
  intro h
  obtain ⟨nearer, rfl⟩ := within
  induction nearer with
  | nil =>
    simp only [List.nil_append, level?, missing, if_false] at h
    exact absurd (level?_lt h) (by simp)
  | cons first rest ih =>
    rw [List.cons_append] at h
    by_cases mem : name ∈ first.names
    · simp only [level?, mem, if_true, Option.some.injEq, List.length_append,
        List.length_cons] at h
      omega
    · simp only [level?, mem, if_false] at h
      exact ih h

/-- Whether the innermost scope has begun to declare a name. -/
def innermostHas (name : String) : Surroundings → Bool
  | [] => false
  | scope :: _ => name ∈ scope.names

end Surroundings

/-- Whether a mention is a variable that is read and denotes the one of this name in the scope with
this many scopes outside of it. -/
def Mention.readsFrom (level : Nat) (name : String) (mention : Mention) : Bool :=
  mention.occurrence.form = .read ∧ mention.occurrence.word = name ∧
    mention.around.level? mention.occurrence.word = some level

/-! ## Local variables -/

/-- A local variable: its name where it is declared, and the mentions of its extent, which are those
before the declaration, those in its own initializer, and those behind that. -/
structure Local where
  name : Name
  earlier : List Mention
  initializer : List Mention
  following : List Mention

namespace Local

/-- A local variable with more of the program before its declaration. -/
def behind (mentions : List Mention) (l : Local) : Local :=
  { l with earlier := mentions ++ l.earlier }

/-- A local variable with more of the program behind its declaration. -/
def before (mentions : List Mention) (l : Local) : Local :=
  { l with following := l.following ++ mentions }

/-- All mentions of the extent. -/
def mentions (l : Local) : List Mention :=
  l.earlier ++ l.initializer ++ l.following

/-- Whether a mention outside its own initializer refers to the variable. -/
def used (level : Nat) (l : Local) : Bool :=
  (l.earlier ++ l.following).any (·.readsFrom level l.name.text)

end Local

/-- The variable that a declaration adds to the innermost scope: none outside of all scopes, and
none if the scope has the name already. -/
def fresh (around : Surroundings) (name : Name) (initializer following : List Mention) :
    List Local :=
  if around = [] ∨ around.innermostHas name.text then []
  else [⟨name, [], initializer, following⟩]

/-- The local variables that a statement adds to the innermost scope. Its branches stand in that
scope. The name of a function, a class or a trait is declared before all its other parts. -/
def Stmt.locals (around : Surroundings) : Stmt → List Local
  | .varDecl name none => fresh around name [] []
  | .varDecl name (some initial) =>
    fresh around name (initial.mentions (around.declare name.text)) []
  | .ifThen condition thenBranch none =>
    (thenBranch.locals around).map (Local.behind (condition.mentions around))
  | .ifThen condition thenBranch (some elseBranch) =>
    ((thenBranch.locals around).map
        (Local.before (elseBranch.mentions (around.declareAll thenBranch.begins))) ++
      (elseBranch.locals (around.declareAll thenBranch.begins)).map
        (Local.behind (thenBranch.mentions around))).map
      (Local.behind (condition.mentions around))
  | .whileDo condition body => (body.locals around).map (Local.behind (condition.mentions around))
  | .funDecl declared =>
    fresh around declared.name [] ((Stmt.funDecl declared).mentions around)
  | .classDecl name superclass traits methods classMethods =>
    fresh around name []
      ((Stmt.classDecl name superclass traits methods classMethods).mentions around)
  | .traitDecl name traits methods =>
    fresh around name [] ((Stmt.traitDecl name traits methods).mentions around)
  | _ => []

/-- The local variables that statements add to the innermost scope, in the order of their slots. -/
def localsInBody (around : Surroundings) : List Stmt → List Local
  | [] => []
  | statement :: rest =>
    (statement.locals around).map
        (Local.before (mentionsInBody (around.declareAll statement.begins) rest)) ++
      (localsInBody (around.declareAll statement.begins) rest).map
        (Local.behind (statement.mentions around))

/-- The names of local variables. -/
def localNames (locals : List Local) : List String :=
  locals.map fun l => l.name.text

@[simp] theorem localNames_behind (mentions : List Mention) (locals : List Local) :
    localNames (locals.map (Local.behind mentions)) = localNames locals := by
  simp [localNames, Function.comp_def, Local.behind]

@[simp] theorem localNames_before (mentions : List Mention) (locals : List Local) :
    localNames (locals.map (Local.before mentions)) = localNames locals := by
  simp [localNames, Function.comp_def, Local.before]

@[simp] theorem localNames_append (locals locals' : List Local) :
    localNames (locals ++ locals') = localNames locals ++ localNames locals' :=
  List.map_append

/-! ## Extents -/

/-- The part of a program that a scope is around: what is around the scope, the parameters that it
starts with, and its statements. -/
structure Extent where
  around : Surroundings
  params : List Name
  body : List Stmt

namespace Extent

/-- What is around the first of the statements. -/
def inside (x : Extent) : Surroundings :=
  Surroundings.declareAll (x.params.map Name.text) (.none :: x.around)

/-- The local variables of the scope, without its parameters. -/
def locals (x : Extent) : List Local :=
  localsInBody x.inside x.body

/-- The mentions in the statements. -/
def mentions (x : Extent) : List Mention :=
  mentionsInBody x.inside x.body

/-- The reports of the local variables that nothing but their own initializer refers to, in the
order of their slots. -/
def unread (x : Extent) : List Scoping.Problem :=
  (x.locals.filter fun l => !l.used x.around.length).map fun l => ⟨l.name, .neverRead⟩

end Extent

mutual

/-- The extents of the scopes in an expression, in the order in which resolution gets to their
ends. -/
def Expr.extents (around : Surroundings) : Expr → List Extent
  | .literal _ => []
  | .unary _ _ operand => operand.extents around
  | .binary left _ _ right => left.extents around ++ right.extents around
  | .logical left _ _ right => left.extents around ++ right.extents around
  | .conditional condition thenBranch elseBranch =>
    condition.extents around ++ thenBranch.extents around ++ elseBranch.extents around
  | .grouping inner => inner.extents around
  | .variable _ => []
  | .assign _ value => value.extents around
  | .call callee arguments _ => callee.extents around ++ extentsInArguments around arguments
  | .get object _ => object.extents around
  | .set object _ value => value.extents around ++ object.extents around
  | .this _ _ => []
  | .super _ _ _ => []
  | .lambda _ function => function.extents around

/-- The extents in the arguments of a call. -/
def extentsInArguments (around : Surroundings) : List Expr → List Extent
  | [] => []
  | argument :: rest => argument.extents around ++ extentsInArguments around rest

/-- The extents of a function: those in its body, and its own. -/
def Function.extents (around : Surroundings) : Function → List Extent
  | .mk params body =>
    extentsInBody (Surroundings.declareAll (params.map Name.text) (.none :: around)) body ++
      [⟨around, params, body⟩]

/-- The extents of a function with a name. -/
def NamedFunction.extents (around : Surroundings) : NamedFunction → List Extent
  | .mk _ function => function.extents around

/-- The extents of the methods of a class or trait. -/
def extentsInMethods (around : Surroundings) : List NamedFunction → List Extent
  | [] => []
  | method :: rest => method.extents around ++ extentsInMethods around rest

/-- The extents of a statement. -/
def Stmt.extents (around : Surroundings) : Stmt → List Extent
  | .expression value => value.extents around
  | .print value => value.extents around
  | .varDecl _ none => []
  | .varDecl name (some initial) => initial.extents (around.declare name.text)
  | .block body => extentsInBody (.none :: around) body ++ [⟨around, [], body⟩]
  | .ifThen condition thenBranch none => condition.extents around ++ thenBranch.extents around
  | .ifThen condition thenBranch (some elseBranch) =>
    condition.extents around ++ thenBranch.extents around ++
      elseBranch.extents (around.declareAll thenBranch.begins)
  | .whileDo condition body => condition.extents around ++ body.extents around
  | .breakLoop _ => []
  | .returnWith _ none => []
  | .returnWith _ (some value) => value.extents around
  | .funDecl declared => declared.extents (around.declare declared.name.text)
  | .classDecl name superclass _ methods classMethods =>
    extentsInMethods (around.methods name superclass.isSome) methods ++
      extentsInMethods (around.methods name superclass.isSome) classMethods
  | .traitDecl name _ methods => extentsInMethods (around.methods name false) methods

/-- The extents of statements that stand one after the other. -/
def extentsInBody (around : Surroundings) : List Stmt → List Extent
  | [] => []
  | statement :: rest =>
    statement.extents around ++ extentsInBody (around.declareAll statement.begins) rest

end

/-! ## A mention sees what is declared around it -/

namespace Surroundings

/-- The mentions of a part of a tree stand within scopes that have begun to declare some of the
names that the part begins with. -/
def Encloses (around : Surroundings) (begins : List String) (mentions : List Mention) : Prop :=
  ∀ mention ∈ mentions, ∃ names, names <+: begins ∧ around.declareAll names <:+ mention.around

theorem encloses_nil (around : Surroundings) (begins : List String) : around.Encloses begins [] :=
  fun mention hmention => by cases hmention

theorem encloses_mentionsAt (around : Surroundings) (occurrences : List Occurrence) :
    around.Encloses [] (mentionsAt around occurrences) := by
  intro mention hmention
  obtain ⟨occurrence, -, rfl⟩ := List.mem_map.mp hmention
  exact ⟨[], List.prefix_rfl, List.suffix_rfl⟩

/-- Parts in the same scopes, none of which begins to declare a name. -/
theorem Encloses.append {around : Surroundings} {begins : List String}
    {mentions mentions' : List Mention} (h : around.Encloses begins mentions)
    (h' : around.Encloses begins mentions') : around.Encloses begins (mentions ++ mentions') := by
  intro mention hmention
  rcases List.mem_append.mp hmention with hmention | hmention
  · exact h mention hmention
  · exact h' mention hmention

/-- More names that are begun. -/
theorem Encloses.mono {around : Surroundings} {begins begins' : List String}
    {mentions : List Mention} (h : around.Encloses begins mentions) (prefixed : begins <+: begins') :
    around.Encloses begins' mentions := by
  intro mention hmention
  obtain ⟨names, hnames, hwithin⟩ := h mention hmention
  exact ⟨names, hnames.trans prefixed, hwithin⟩

/-- A part that follows the declaration of names. -/
theorem Encloses.declared {around : Surroundings} {begins begins' : List String}
    {mentions : List Mention} (h : (around.declareAll begins).Encloses begins' mentions) :
    around.Encloses (begins ++ begins') mentions := by
  intro mention hmention
  obtain ⟨names, hnames, hwithin⟩ := h mention hmention
  refine ⟨begins ++ names, ?_, ?_⟩
  · exact (List.prefix_append_right_inj begins).mpr hnames
  · rwa [declareAll_append]

/-- A part that follows the declaration of one name. -/
theorem Encloses.named {around : Surroundings} {name : String} {mentions : List Mention}
    (h : (around.declare name).Encloses [] mentions) : around.Encloses [name] mentions := by
  have hdeclared : (around.declareAll [name]).Encloses [] mentions := h
  exact hdeclared.declared

/-- A part in a scope of its own. -/
theorem Encloses.inner {around nearer : Surroundings} {begins : List String}
    {mentions : List Mention} (h : nearer.Encloses begins mentions)
    (within : ∀ names, around <:+ nearer.declareAll names) : around.Encloses [] mentions := by
  intro mention hmention
  obtain ⟨names, -, hmentioned⟩ := h mention hmention
  exact ⟨[], List.prefix_rfl, (within names).trans hmentioned⟩

/-- What is declared in an inner scope leaves those outside of it as they are. -/
theorem suffix_declareAll (scope : Begun) (around : Surroundings) (names : List String) :
    around <:+ declareAll names (scope :: around) := by
  obtain ⟨scope', hscope⟩ := exists_declareAll names scope around
  rw [hscope]
  exact List.suffix_cons scope' around

/-- The scopes around methods lie within those around the class. -/
theorem suffix_methods (name : Name) (derived : Bool) (around : Surroundings)
    (names : List String) :
    around.declare name.text <:+ declareAll names (around.methods name derived) := by
  apply List.IsSuffix.trans _ (suffix_declareAll (.only thisName) _ names)
  cases derived with
  | false => exact List.suffix_rfl
  | true => exact List.suffix_cons _ _

end Surroundings

open Surroundings

mutual

theorem Expr.encloses : ∀ (e : Expr) (around : Surroundings),
    around.Encloses [] (e.mentions around)
  | .literal _, around => encloses_nil around []
  | .unary _ _ operand, around => operand.encloses around
  | .binary left _ _ right, around => (left.encloses around).append (right.encloses around)
  | .logical left _ _ right, around => (left.encloses around).append (right.encloses around)
  | .conditional condition thenBranch elseBranch, around =>
    ((condition.encloses around).append (thenBranch.encloses around)).append
      (elseBranch.encloses around)
  | .grouping inner, around => inner.encloses around
  | .variable ref, around => encloses_mentionsAt around [ref.occurrence]
  | .assign _ value, around => (encloses_mentionsAt around _).append (value.encloses around)
  | .call callee arguments _, around =>
    (callee.encloses around).append (encloses_arguments arguments around)
  | .get object _, around => object.encloses around
  | .set object _ value, around => (object.encloses around).append (value.encloses around)
  | .this _ _, around => encloses_mentionsAt around _
  | .super _ _ _, around => encloses_mentionsAt around _
  | .lambda _ function, around => function.encloses around

theorem encloses_arguments : ∀ (arguments : List Expr) (around : Surroundings),
    around.Encloses [] (mentionsInArguments around arguments)
  | [], around => encloses_nil around []
  | argument :: rest, around =>
    (argument.encloses around).append (encloses_arguments rest around)

theorem Function.encloses : ∀ (f : Function) (around : Surroundings),
    around.Encloses [] (f.mentions around)
  | .mk params body, around => by
    apply (encloses_body body (declareAll (params.map Name.text) (.none :: around))).inner
    intro names
    rw [← declareAll_append]
    exact suffix_declareAll .none around _

theorem NamedFunction.encloses : ∀ (f : NamedFunction) (around : Surroundings),
    around.Encloses [] (f.mentions around)
  | .mk _ function, around => function.encloses around

theorem encloses_methods : ∀ (methods : List NamedFunction) (around : Surroundings),
    around.Encloses [] (mentionsInMethods around methods)
  | [], around => encloses_nil around []
  | method :: rest, around => (method.encloses around).append (encloses_methods rest around)

theorem Stmt.encloses : ∀ (s : Stmt) (around : Surroundings),
    around.Encloses s.begins (s.mentions around)
  | .expression value, around => value.encloses around
  | .print value, around => value.encloses around
  | .varDecl _ none, around => encloses_nil around _
  | .varDecl name (some initial), around => (initial.encloses (around.declare name.text)).named
  | .block body, around =>
    (encloses_body body (.none :: around)).inner (suffix_declareAll .none around)
  | .ifThen condition thenBranch none, around =>
    ((condition.encloses around).mono List.nil_prefix).append (thenBranch.encloses around)
  | .ifThen condition thenBranch (some elseBranch), around => by
    have hcondition := (condition.encloses around).mono
      (List.nil_prefix (l := thenBranch.begins ++ elseBranch.begins))
    have hthen := (thenBranch.encloses around).mono
      (List.prefix_append thenBranch.begins elseBranch.begins)
    exact (hcondition.append hthen).append (elseBranch.encloses _).declared
  | .whileDo condition body, around =>
    ((condition.encloses around).mono List.nil_prefix).append (body.encloses around)
  | .breakLoop _, around => encloses_nil around _
  | .returnWith _ none, around => encloses_nil around _
  | .returnWith _ (some value), around => value.encloses around
  | .funDecl declared, around =>
    (declared.encloses (around.declare declared.name.text)).named
  | .classDecl name superclass traits methods classMethods, around => by
    have hheads := (encloses_mentionsAt (around.declare name.text)
      (superclass.toList.map Reference.occurrence)).append
      (encloses_mentionsAt _ (traits.map Reference.occurrence))
    have hmethods := (encloses_methods methods (around.methods name superclass.isSome)).inner
      (suffix_methods name superclass.isSome around)
    have hclassMethods := (encloses_methods classMethods
      (around.methods name superclass.isSome)).inner
      (suffix_methods name superclass.isSome around)
    exact ((hheads.append hmethods).append hclassMethods).named
  | .traitDecl name traits methods, around => by
    have hheads := encloses_mentionsAt (around.declare name.text)
      (traits.map Reference.occurrence)
    have hmethods := (encloses_methods methods (around.methods name false)).inner
      (suffix_methods name false around)
    exact (hheads.append hmethods).named

theorem encloses_body : ∀ (body : List Stmt) (around : Surroundings),
    around.Encloses (beginsInBody body) (mentionsInBody around body)
  | [], around => encloses_nil around _
  | statement :: rest, around => by
    have hfirst := (statement.encloses around).mono
      (List.prefix_append statement.begins (beginsInBody rest))
    exact hfirst.append (encloses_body rest _).declared

end

/-! ## What a scope comes to declare -/

namespace Begun

/-- A scope begins to declare names, one after the other. -/
def addAll (names : List String) (scope : Begun) : Begun :=
  names.foldl (fun scope name => scope.add name) scope

theorem addAll_append (names names' : List String) (scope : Begun) :
    scope.addAll (names ++ names') = (scope.addAll names).addAll names' :=
  List.foldl_append

theorem names_subset_add (name : String) (scope : Begun) :
    scope.names ⊆ (scope.add name).names := by
  rw [names_add]
  by_cases mem : name ∈ scope.names
  · simp [mem]
  · simp [mem]

theorem names_subset_addAll (names : List String) (scope : Begun) :
    scope.names ⊆ (scope.addAll names).names := by
  induction names generalizing scope with
  | nil => exact fun _ h => h
  | cons name rest ih => exact fun other h => ih (scope.add name) (names_subset_add name scope h)

end Begun

theorem Surroundings.declareAll_cons (names : List String) (scope : Begun)
    (outer : Surroundings) :
    declareAll names (scope :: outer) = scope.addAll names :: outer := by
  induction names generalizing scope with
  | nil => rfl
  | cons name rest ih => exact ih (scope.add name)

/-- A declaration adds a local variable if and only if it adds a name. -/
theorem names_fresh (scope : Begun) (outer : Surroundings) (name : Name)
    (initializer following : List Mention) :
    (scope.add name.text).names =
      scope.names ++
        localNames (fresh (scope :: outer) name initializer following) := by
  rw [Begun.names_add]
  by_cases mem : name.text ∈ scope.names <;> simp [fresh, innermostHas, mem, localNames]

/-- The local variables of a statement are the names that it adds to its scope. -/
theorem names_locals : ∀ (s : Stmt) (scope : Begun) (outer : Surroundings),
    (scope.addAll s.begins).names =
      scope.names ++ localNames (s.locals (scope :: outer))
  | .varDecl name none, scope, outer => names_fresh scope outer name _ _
  | .varDecl name (some _), scope, outer => names_fresh scope outer name _ _
  | .funDecl declared, scope, outer => names_fresh scope outer declared.name _ _
  | .classDecl name _ _ _ _, scope, outer => names_fresh scope outer name _ _
  | .traitDecl name _ _, scope, outer => names_fresh scope outer name _ _
  | .ifThen _ thenBranch none, scope, outer => by
    simp only [Stmt.begins, Stmt.locals, localNames_behind]
    exact names_locals thenBranch scope outer
  | .ifThen _ thenBranch (some elseBranch), scope, outer => by
    simp only [Stmt.begins, Stmt.locals, localNames_append, localNames_before, localNames_behind,
      Begun.addAll_append, declareAll_cons]
    rw [names_locals elseBranch (scope.addAll thenBranch.begins) outer,
      names_locals thenBranch scope outer, List.append_assoc]
  | .whileDo _ body, scope, outer => by
    simp only [Stmt.begins, Stmt.locals, localNames_behind]
    exact names_locals body scope outer
  | .expression _, scope, _ => by simp [Stmt.begins, Stmt.locals, Begun.addAll, localNames]
  | .print _, scope, _ => by simp [Stmt.begins, Stmt.locals, Begun.addAll, localNames]
  | .block _, scope, _ => by simp [Stmt.begins, Stmt.locals, Begun.addAll, localNames]
  | .breakLoop _, scope, _ => by simp [Stmt.begins, Stmt.locals, Begun.addAll, localNames]
  | .returnWith _ _, scope, _ => by simp [Stmt.begins, Stmt.locals, Begun.addAll, localNames]

theorem names_localsInBody (body : List Stmt) (scope : Begun) (outer : Surroundings) :
    (scope.addAll (beginsInBody body)).names =
      scope.names ++ localNames (localsInBody (scope :: outer) body) := by
  induction body generalizing scope with
  | nil => simp [beginsInBody, localsInBody, Begun.addAll, localNames]
  | cons statement rest ih =>
    simp only [beginsInBody, localsInBody, localNames_append, localNames_before,
      localNames_behind, Begun.addAll_append, declareAll_cons]
    rw [ih (scope.addAll statement.begins), names_locals statement scope outer, List.append_assoc]

/-- A scope does not have the name of a local variable before it is declared. -/
theorem not_mem_of_names {scope scope' : Begun} {locals : List Local}
    (h : scope'.names = scope.names ++ localNames locals) {l : Local}
    (hl : l ∈ locals) : l.name.text ∉ scope.names := by
  intro mem
  have distinct := scope'.distinct
  rw [h, List.nodup_append] at distinct
  have hname : l.name.text ∈ localNames locals := List.mem_map.mpr ⟨l, hl, rfl⟩
  exact distinct.2.2 _ mem _ hname rfl

/-! ## Mentions before a declaration -/

/-- A mention in a part of the scope in which a name is not begun does not refer to a variable of
the scope with that name. -/
theorem not_readsFrom_of_encloses {scope : Begun} {outer : Surroundings} {begins : List String}
    {mentions : List Mention} (h : Encloses (scope :: outer) begins mentions) {name : String}
    (missing : name ∉ (scope.addAll begins).names) :
    ∀ mention ∈ mentions, mention.readsFrom outer.length name = false := by
  intro mention hmention
  obtain ⟨names, ⟨rest, hprefix⟩, hwithin⟩ := h mention hmention
  rw [declareAll_cons] at hwithin
  have hbegun : name ∉ (scope.addAll names).names := by
    intro mem
    apply missing
    rw [← hprefix, Begun.addAll_append]
    exact Begun.names_subset_addAll rest _ mem
  have hlevel := level?_ne_of_not_mem hbegun hwithin
  unfold Mention.readsFrom
  by_cases hword : mention.occurrence.word = name
  · subst hword
    simp [hlevel]
  · simp [hword]

/-- None of the mentions before the declaration of a local variable refers to it. -/
def Local.Begins (level : Nat) (l : Local) : Prop :=
  ∀ mention ∈ l.earlier, mention.readsFrom level l.name.text = false

theorem begins_fresh {around : Surroundings} {name : Name} {initializer following : List Mention}
    {l : Local} (hl : l ∈ fresh around name initializer following) (level : Nat) :
    l.Begins level := by
  unfold fresh at hl
  split at hl
  · cases hl
  · obtain rfl := List.mem_singleton.mp hl
    intro mention hmention
    cases hmention

/-- A part of the scope that precedes the declarations does not refer to what they declare. -/
theorem begins_behind {scope : Begun} {outer : Surroundings} {begins : List String}
    {mentions : List Mention} (h : Encloses (scope :: outer) begins mentions) {locals : List Local}
    (missing : ∀ l ∈ locals, l.name.text ∉ (scope.addAll begins).names)
    (hlocals : ∀ l ∈ locals, l.Begins outer.length) :
    ∀ l ∈ locals.map (Local.behind mentions), l.Begins outer.length := by
  intro l hl mention hmention
  obtain ⟨l', hl', rfl⟩ := List.mem_map.mp hl
  rcases List.mem_append.mp hmention with hmention | hmention
  · exact not_readsFrom_of_encloses h (missing l' hl') mention hmention
  · exact hlocals l' hl' mention hmention

theorem begins_before {level : Nat} {locals : List Local} (h : ∀ l ∈ locals, l.Begins level)
    (mentions : List Mention) : ∀ l ∈ locals.map (Local.before mentions), l.Begins level := by
  intro l hl
  obtain ⟨l', hl', rfl⟩ := List.mem_map.mp hl
  exact h l' hl'

theorem begins_append {level : Nat} {locals locals' : List Local}
    (h : ∀ l ∈ locals, l.Begins level) (h' : ∀ l ∈ locals', l.Begins level) :
    ∀ l ∈ locals ++ locals', l.Begins level := by
  intro l hl
  rcases List.mem_append.mp hl with hl | hl
  · exact h l hl
  · exact h' l hl

/-- A part of the scope, and behind it others that declare local variables. -/
theorem begins_parts {scope : Begun} {outer : Surroundings} {s : Stmt} {locals : List Local}
    {names : List String} (mentions : List Mention)
    (hnames : ((scope.addAll s.begins).addAll names).names =
      (scope.addAll s.begins).names ++ localNames locals)
    (hs : ∀ l ∈ s.locals (scope :: outer), l.Begins outer.length)
    (hlocals : ∀ l ∈ locals, l.Begins outer.length) :
    ∀ l ∈ (s.locals (scope :: outer)).map (Local.before mentions) ++
        locals.map (Local.behind (s.mentions (scope :: outer))), l.Begins outer.length :=
  begins_append (begins_before hs mentions)
    (begins_behind (s.encloses (scope :: outer)) (fun _ hl => not_mem_of_names hnames hl) hlocals)

/-- No mention before the declaration of a local variable refers to it. -/
theorem begins_locals : ∀ (s : Stmt) (scope : Begun) (outer : Surroundings),
    ∀ l ∈ s.locals (scope :: outer), l.Begins outer.length
  | .varDecl _ none, _, outer => fun _ hl => begins_fresh hl outer.length
  | .varDecl _ (some _), _, outer => fun _ hl => begins_fresh hl outer.length
  | .funDecl _, _, outer => fun _ hl => begins_fresh hl outer.length
  | .classDecl _ _ _ _ _, _, outer => fun _ hl => begins_fresh hl outer.length
  | .traitDecl _ _ _, _, outer => fun _ hl => begins_fresh hl outer.length
  | .ifThen condition thenBranch none, scope, outer =>
    begins_behind (condition.encloses (scope :: outer))
      (fun _ hl => not_mem_of_names (names_locals thenBranch scope outer) hl)
      (begins_locals thenBranch scope outer)
  | .ifThen condition thenBranch (some elseBranch), scope, outer => by
    -- The condition precedes both branches, and the first branch precedes the second one.
    have hnames := names_locals (.ifThen condition thenBranch (some elseBranch)) scope outer
    simp only [Stmt.locals, localNames_behind, declareAll_cons] at hnames ⊢
    have helse := names_locals elseBranch (scope.addAll thenBranch.begins) outer
    have hbranches := begins_parts
      (elseBranch.mentions (scope.addAll thenBranch.begins :: outer)) helse
      (begins_locals thenBranch scope outer)
      (begins_locals elseBranch (scope.addAll thenBranch.begins) outer)
    exact begins_behind (condition.encloses (scope :: outer))
      (fun _ hl => not_mem_of_names hnames hl) hbranches
  | .whileDo condition body, scope, outer =>
    begins_behind (condition.encloses (scope :: outer))
      (fun _ hl => not_mem_of_names (names_locals body scope outer) hl)
      (begins_locals body scope outer)
  | .expression _, _, _ => fun _ hl => by cases hl
  | .print _, _, _ => fun _ hl => by cases hl
  | .block _, _, _ => fun _ hl => by cases hl
  | .breakLoop _, _, _ => fun _ hl => by cases hl
  | .returnWith _ _, _, _ => fun _ hl => by cases hl

theorem begins_localsInBody (body : List Stmt) (scope : Begun) (outer : Surroundings) :
    ∀ l ∈ localsInBody (scope :: outer) body, l.Begins outer.length := by
  induction body generalizing scope with
  | nil => exact fun _ hl => by cases hl
  | cons statement rest ih =>
    simp only [localsInBody, declareAll_cons]
    exact begins_parts _ (names_localsInBody rest (scope.addAll statement.begins) outer)
      (begins_locals statement scope outer) (ih (scope.addAll statement.begins))

/-! ## All mentions of an extent -/

theorem mentions_fresh {around : Surroundings} {name : Name} {initializer following : List Mention}
    {l : Local} (hl : l ∈ fresh around name initializer following) :
    l.mentions = initializer ++ following := by
  unfold fresh at hl
  split at hl
  · cases hl
  · obtain rfl := List.mem_singleton.mp hl
    simp [Local.mentions]

/-- The mentions of a local variable are all those of a statement. -/
theorem mentions_behind {locals : List Local} {mentions all : List Mention}
    (h : ∀ l ∈ locals, l.mentions = all) :
    ∀ l ∈ locals.map (Local.behind mentions), l.mentions = mentions ++ all := by
  intro l hl
  obtain ⟨l', hl', rfl⟩ := List.mem_map.mp hl
  rw [← h l' hl']
  simp [Local.mentions, Local.behind]

theorem mentions_before {locals : List Local} {mentions all : List Mention}
    (h : ∀ l ∈ locals, l.mentions = all) :
    ∀ l ∈ locals.map (Local.before mentions), l.mentions = all ++ mentions := by
  intro l hl
  obtain ⟨l', hl', rfl⟩ := List.mem_map.mp hl
  rw [← h l' hl']
  simp [Local.mentions, Local.before]

theorem mentions_parts {locals locals' : List Local} {mentions mentions' : List Mention}
    (h : ∀ l ∈ locals, l.mentions = mentions) (h' : ∀ l ∈ locals', l.mentions = mentions') :
    ∀ l ∈ locals.map (Local.before mentions') ++ locals'.map (Local.behind mentions),
      l.mentions = mentions ++ mentions' := by
  intro l hl
  rcases List.mem_append.mp hl with hl | hl
  · exact mentions_before h l hl
  · exact mentions_behind h' l hl

theorem mentions_locals : ∀ (s : Stmt) (around : Surroundings),
    ∀ l ∈ s.locals around, l.mentions = s.mentions around
  | .varDecl _ none, _ => fun _ hl => mentions_fresh hl
  | .varDecl _ (some initial), around => fun l hl => by
    rw [mentions_fresh hl, List.append_nil]
    rfl
  | .funDecl _, _ => fun _ hl => mentions_fresh hl
  | .classDecl _ _ _ _ _, _ => fun _ hl => by rw [mentions_fresh hl, List.nil_append]
  | .traitDecl _ _ _, _ => fun _ hl => by rw [mentions_fresh hl, List.nil_append]
  | .ifThen _ thenBranch none, around => mentions_behind (mentions_locals thenBranch around)
  | .ifThen _ thenBranch (some elseBranch), around => by
    have hbranches := mentions_parts (mentions_locals thenBranch around)
      (mentions_locals elseBranch (around.declareAll thenBranch.begins))
    intro l hl
    rw [Stmt.mentions, List.append_assoc]
    exact mentions_behind hbranches l hl
  | .whileDo _ body, around => mentions_behind (mentions_locals body around)
  | .expression _, _ => fun _ hl => by cases hl
  | .print _, _ => fun _ hl => by cases hl
  | .block _, _ => fun _ hl => by cases hl
  | .breakLoop _, _ => fun _ hl => by cases hl
  | .returnWith _ _, _ => fun _ hl => by cases hl

theorem mentions_localsInBody (body : List Stmt) (around : Surroundings) :
    ∀ l ∈ localsInBody around body, l.mentions = mentionsInBody around body := by
  induction body generalizing around with
  | nil => exact fun _ hl => by cases hl
  | cons statement rest ih => exact mentions_parts (mentions_locals statement around) (ih _)

end LoxLang
