import LoxLang.Scoping.Binding
import LoxLang.Tree.Occurrence

/-!
# Mentions

The rule of lexical scoping for any tree, also one that no text is read as: a declaration may be
the branch of an `if`, names may be declared twice, and occurrences may share an identity. A
mention is an occurrence together with the scopes around it, each with the names that it has begun
to declare before the occurrence; `Surroundings.Denotes` says what a name denotes there.
-/

namespace LoxLang

/-- The names that a scope has begun to declare, in the order in which it first did so. -/
structure Begun where
  names : List String
  distinct : names.Nodup

namespace Begun

/-- At the start of a scope no name is declared. -/
def none : Begun := ⟨[], List.nodup_nil⟩

/-- A scope that has one name from its start on. -/
def only (name : String) : Begun := ⟨[name], by simp⟩

/-- A scope begins to declare a name; to declare it again changes nothing. -/
def add (name : String) (scope : Begun) : Begun :=
  if h : name ∈ scope.names then scope
  else ⟨scope.names ++ [name], by
    rw [List.nodup_append]
    refine ⟨scope.distinct, by simp, ?_⟩
    rintro other hother _ hname rfl
    exact h (List.mem_singleton.mp hname ▸ hother)⟩

theorem names_add (name : String) (scope : Begun) :
    (scope.add name).names =
      if name ∈ scope.names then scope.names else scope.names ++ [name] := by
  unfold add
  split <;> rfl

end Begun

theorem findIdx?_of_not_mem {names : List String} {name : String} (missing : name ∉ names) :
    names.findIdx? (· == name) = none := by
  rw [List.findIdx?_eq_none_iff]
  intro other hother
  have hne : other ≠ name := fun heq => missing (heq ▸ hother)
  simpa using hne

/-- Where a name stands in a list without repetitions. -/
theorem findIdx?_of_split {names earlier later : List String} {name : String}
    (distinct : names.Nodup) (h : names = earlier ++ name :: later) :
    names.findIdx? (· == name) = some earlier.length := by
  subst h
  have missing : name ∉ earlier := fun hmem =>
    (List.nodup_append.mp distinct).2.2 name hmem name List.mem_cons_self rfl
  simp [List.findIdx?_append, findIdx?_of_not_mem missing, List.findIdx?_cons]

/-- The scopes around a mention, innermost first. -/
abbrev Surroundings := List Begun

namespace Surroundings

/-- A name is declared in the innermost scope; outside of all scopes it is a global. -/
def declare (name : String) : Surroundings → Surroundings
  | [] => []
  | scope :: outer => scope.add name :: outer

/-- Names are declared one after the other. -/
def declareAll (names : List String) (around : Surroundings) : Surroundings :=
  names.foldl (fun around name => around.declare name) around

theorem length_declare (name : String) (around : Surroundings) :
    (around.declare name).length = around.length := by
  cases around with
  | nil => rfl
  | cons scope outer => rfl

theorem length_declareAll (names : List String) (around : Surroundings) :
    (around.declareAll names).length = around.length := by
  induction names generalizing around with
  | nil => rfl
  | cons name rest ih => exact (ih _).trans (length_declare name around)

theorem declareAll_append (names names' : List String) (around : Surroundings) :
    around.declareAll (names ++ names') = (around.declareAll names).declareAll names' :=
  List.foldl_append

/-- Statements stand in the same scopes from the first to the last. -/
theorem exists_declareAll (names : List String) (scope : Begun)
    (outer : Surroundings) :
    ∃ scope', declareAll names (scope :: outer) = scope' :: outer := by
  induction names generalizing scope with
  | nil => exact ⟨scope, rfl⟩
  | cons name rest ih => exact ih (scope.add name)

/-- The scopes around the methods of a class, and around those of a trait. -/
def methods (name : Name) (derived : Bool) (around : Surroundings) : Surroundings :=
  let around := around.declare name.text
  .only thisName :: if derived then .only superName :: around else around

/-- What a name denotes: a variable of the innermost scope that has begun to declare it. Its depth
is the number of scopes in between, its slot the number of names that this scope began to declare
before it. -/
def Denotes (around : Surroundings) (name : String) (b : Binding) : Prop :=
  ∃ (nearer : Surroundings) (scope : Begun) (further : Surroundings)
    (earlier later : List String),
    around = nearer ++ scope :: further ∧ (∀ other ∈ nearer, name ∉ other.names) ∧
      scope.names = earlier ++ name :: later ∧ b = ⟨nearer.length, earlier.length⟩

theorem not_denotes_nil (name : String) (b : Binding) : ¬Denotes [] name b := by
  rintro ⟨nearer, scope, further, -, -, h, -⟩
  simp at h

/-- A name that the innermost scope declares denotes a variable of that scope. -/
theorem denotes_cons_of_mem {scope : Begun} {name : String} (mem : name ∈ scope.names)
    (outer : Surroundings) (b : Binding) :
    Denotes (scope :: outer) name b ↔
      ∃ earlier later,
        scope.names = earlier ++ name :: later ∧ b = ⟨0, earlier.length⟩ := by
  constructor
  · rintro ⟨nearer, s, further, earlier, later, heq, hnearer, hnames, rfl⟩
    cases nearer with
    | nil =>
      simp only [List.nil_append, List.cons.injEq] at heq
      exact ⟨earlier, later, heq.1 ▸ hnames, rfl⟩
    | cons first rest =>
      simp only [List.cons_append, List.cons.injEq] at heq
      exact absurd (heq.1 ▸ mem) (hnearer first List.mem_cons_self)
  · rintro ⟨earlier, later, hnames, rfl⟩
    exact ⟨[], scope, outer, earlier, later, rfl, by simp, hnames, rfl⟩

/-- A name that the innermost scope does not declare denotes what it denotes outside. -/
theorem denotes_cons_of_not_mem {scope : Begun} {name : String} (missing : name ∉ scope.names)
    (outer : Surroundings) (b : Binding) :
    Denotes (scope :: outer) name b ↔
      ∃ b', Denotes outer name b' ∧ b = { b' with depth := b'.depth + 1 } := by
  constructor
  · rintro ⟨nearer, s, further, earlier, later, heq, hnearer, hnames, rfl⟩
    cases nearer with
    | nil =>
      simp only [List.nil_append, List.cons.injEq] at heq
      refine absurd ?_ missing
      rw [heq.1, hnames]
      simp
    | cons first rest =>
      simp only [List.cons_append, List.cons.injEq] at heq
      refine ⟨⟨rest.length, earlier.length⟩, ?_, rfl⟩
      exact ⟨rest, s, further, earlier, later, heq.2,
        fun other hother => hnearer other (List.mem_cons_of_mem _ hother), hnames, rfl⟩
  · rintro ⟨b', ⟨nearer, s, further, earlier, later, rfl, hnearer, hnames, rfl⟩, rfl⟩
    refine ⟨scope :: nearer, s, further, earlier, later, rfl, ?_, hnames, rfl⟩
    intro other hother
    rcases List.mem_cons.mp hother with rfl | hother
    · exact missing
    · exact hnearer other hother

/-- A name denotes a local variable if and only if some scope around declares it. -/
theorem exists_denotes_iff (around : Surroundings) (name : String) :
    (∃ b, around.Denotes name b) ↔ ∃ scope ∈ around, name ∈ scope.names := by
  induction around with
  | nil => simp [not_denotes_nil]
  | cons scope outer ih =>
    by_cases mem : name ∈ scope.names
    · obtain ⟨earlier, later, hnames⟩ := List.append_of_mem mem
      refine ⟨fun _ => ⟨scope, List.mem_cons_self, mem⟩, fun _ => ?_⟩
      exact ⟨_, (denotes_cons_of_mem mem outer _).mpr ⟨earlier, later, hnames, rfl⟩⟩
    · simp only [denotes_cons_of_not_mem mem, List.mem_cons, exists_eq_or_imp, mem, false_or,
        ← ih]
      constructor
      · rintro ⟨-, b', hb', -⟩
        exact ⟨b', hb'⟩
      · rintro ⟨b', hb'⟩
        exact ⟨_, b', hb', rfl⟩

/-- A name denotes one variable. -/
theorem Denotes.unique {around : Surroundings} {name : String} {b b' : Binding}
    (h : around.Denotes name b) (h' : around.Denotes name b') : b = b' := by
  induction around generalizing b b' with
  | nil => exact absurd h (not_denotes_nil name b)
  | cons scope outer ih =>
    by_cases mem : name ∈ scope.names
    · rw [denotes_cons_of_mem mem] at h h'
      obtain ⟨earlier, later, hsplit, rfl⟩ := h
      obtain ⟨earlier', later', hsplit', rfl⟩ := h'
      have hslot := findIdx?_of_split scope.distinct hsplit
      rw [findIdx?_of_split scope.distinct hsplit', Option.some.injEq] at hslot
      rw [hslot]
    · rw [denotes_cons_of_not_mem mem] at h h'
      obtain ⟨outer1, h1, rfl⟩ := h
      obtain ⟨outer2, h2, rfl⟩ := h'
      rw [ih h1 h2]

end Surroundings

/-! ## Mentions of a tree -/

/-- An occurrence and the scopes around it. -/
structure Mention where
  occurrence : Occurrence
  around : Surroundings

/-- What the occurrence at a mention denotes. -/
def Mention.Denotes (mention : Mention) (b : Binding) : Prop :=
  mention.around.Denotes mention.occurrence.word b

/-- Occurrences with the same scopes around. -/
def mentionsAt (around : Surroundings) (occurrences : List Occurrence) : List Mention :=
  occurrences.map fun occurrence => ⟨occurrence, around⟩

/-- The names that a statement declares in the scope it stands in, in order. Its branches stand in
the same scope. -/
def Stmt.begins : Stmt → List String
  | .varDecl name _ => [name.text]
  | .ifThen _ thenBranch none => thenBranch.begins
  | .ifThen _ thenBranch (some elseBranch) => thenBranch.begins ++ elseBranch.begins
  | .whileDo _ body => body.begins
  | .funDecl declared => [declared.name.text]
  | .classDecl name _ _ _ _ => [name.text]
  | .traitDecl name _ _ => [name.text]
  | _ => []

/-- The names that statements declare in the scope they stand in, in order. -/
def beginsInBody : List Stmt → List String
  | [] => []
  | statement :: rest => statement.begins ++ beginsInBody rest

mutual

/-- The mentions of an expression. -/
def Expr.mentions (around : Surroundings) : Expr → List Mention
  | .literal _ => []
  | .unary _ _ operand => operand.mentions around
  | .binary left _ _ right => left.mentions around ++ right.mentions around
  | .logical left _ _ right => left.mentions around ++ right.mentions around
  | .conditional condition thenBranch elseBranch =>
    condition.mentions around ++ thenBranch.mentions around ++ elseBranch.mentions around
  | .grouping inner => inner.mentions around
  | .variable ref => mentionsAt around [ref.occurrence]
  | .assign ref value =>
    mentionsAt around [⟨.assigned, ref.id, ref.name.text, ref.name.line⟩] ++
      value.mentions around
  | .call callee arguments _ => callee.mentions around ++ mentionsInArguments around arguments
  | .get object _ => object.mentions around
  | .set object _ value => object.mentions around ++ value.mentions around
  | .this id line => mentionsAt around [⟨.receiver, id, thisName, line⟩]
  | .super id line _ => mentionsAt around [⟨.superclass, id, superName, line⟩]
  | .lambda _ function => function.mentions around

/-- The mentions of the arguments of a call. -/
def mentionsInArguments (around : Surroundings) : List Expr → List Mention
  | [] => []
  | argument :: rest => argument.mentions around ++ mentionsInArguments around rest

/-- The mentions of a function: its parameters and its body share a scope. -/
def Function.mentions (around : Surroundings) : Function → List Mention
  | .mk params body =>
    mentionsInBody (Surroundings.declareAll (params.map Name.text) (.none :: around)) body

/-- The mentions of a function with a name. -/
def NamedFunction.mentions (around : Surroundings) : NamedFunction → List Mention
  | .mk _ function => function.mentions around

/-- The mentions of the methods of a class or trait. -/
def mentionsInMethods (around : Surroundings) : List NamedFunction → List Mention
  | [] => []
  | method :: rest => method.mentions around ++ mentionsInMethods around rest

/-- The mentions of a statement. A declaration has begun when its initializer, its head or its body
follows. -/
def Stmt.mentions (around : Surroundings) : Stmt → List Mention
  | .expression value => value.mentions around
  | .print value => value.mentions around
  | .varDecl _ none => []
  | .varDecl name (some initial) => initial.mentions (around.declare name.text)
  | .block body => mentionsInBody (.none :: around) body
  | .ifThen condition thenBranch none => condition.mentions around ++ thenBranch.mentions around
  | .ifThen condition thenBranch (some elseBranch) =>
    condition.mentions around ++ thenBranch.mentions around ++
      elseBranch.mentions (around.declareAll thenBranch.begins)
  | .whileDo condition body => condition.mentions around ++ body.mentions around
  | .breakLoop _ => []
  | .returnWith _ none => []
  | .returnWith _ (some value) => value.mentions around
  | .funDecl declared => declared.mentions (around.declare declared.name.text)
  | .classDecl name superclass traits methods classMethods =>
    mentionsAt (around.declare name.text) (superclass.toList.map Reference.occurrence) ++
      mentionsAt (around.declare name.text) (traits.map Reference.occurrence) ++
      mentionsInMethods (around.methods name superclass.isSome) methods ++
      mentionsInMethods (around.methods name superclass.isSome) classMethods
  | .traitDecl name traits methods =>
    mentionsAt (around.declare name.text) (traits.map Reference.occurrence) ++
      mentionsInMethods (around.methods name false) methods

/-- The mentions of statements that stand one after the other. -/
def mentionsInBody (around : Surroundings) : List Stmt → List Mention
  | [] => []
  | statement :: rest =>
    statement.mentions around ++ mentionsInBody (around.declareAll statement.begins) rest

end

/-! ## Every occurrence has its mention -/

theorem occurrences_mentionsAt (around : Surroundings) (occurrences : List Occurrence) :
    (mentionsAt around occurrences).map Mention.occurrence = occurrences := by
  simp [mentionsAt, Function.comp_def]

mutual

theorem Expr.occurrences_mentions : ∀ (e : Expr) (around : Surroundings),
    (e.mentions around).map Mention.occurrence = e.occurrences
  | .literal _, _ => rfl
  | .unary _ _ operand, around => operand.occurrences_mentions around
  | .binary left _ _ right, around => by
    simp only [Expr.mentions, Expr.occurrences, List.map_append, left.occurrences_mentions,
      right.occurrences_mentions]
  | .logical left _ _ right, around => by
    simp only [Expr.mentions, Expr.occurrences, List.map_append, left.occurrences_mentions,
      right.occurrences_mentions]
  | .conditional condition thenBranch elseBranch, around => by
    simp only [Expr.mentions, Expr.occurrences, List.map_append, condition.occurrences_mentions,
      thenBranch.occurrences_mentions, elseBranch.occurrences_mentions]
  | .grouping inner, around => inner.occurrences_mentions around
  | .variable _, _ => rfl
  | .assign _ value, around => by
    simp only [Expr.mentions, Expr.occurrences, List.map_append, occurrences_mentionsAt,
      value.occurrences_mentions, List.singleton_append]
  | .call callee arguments _, around => by
    simp only [Expr.mentions, Expr.occurrences, List.map_append, callee.occurrences_mentions,
      occurrences_mentionsInArguments]
  | .get object _, around => object.occurrences_mentions around
  | .set object _ value, around => by
    simp only [Expr.mentions, Expr.occurrences, List.map_append, object.occurrences_mentions,
      value.occurrences_mentions]
  | .this _ _, _ => rfl
  | .super _ _ _, _ => rfl
  | .lambda _ function, around => function.occurrences_mentions around

theorem occurrences_mentionsInArguments : ∀ (arguments : List Expr) (around : Surroundings),
    (mentionsInArguments around arguments).map Mention.occurrence = occurrencesInArguments arguments
  | [], _ => rfl
  | argument :: rest, around => by
    simp only [mentionsInArguments, occurrencesInArguments, List.map_append,
      argument.occurrences_mentions, occurrences_mentionsInArguments rest]

theorem Function.occurrences_mentions : ∀ (f : Function) (around : Surroundings),
    (f.mentions around).map Mention.occurrence = f.occurrences
  | .mk _ body, _ => occurrences_mentionsInBody body _

theorem NamedFunction.occurrences_mentions : ∀ (f : NamedFunction) (around : Surroundings),
    (f.mentions around).map Mention.occurrence = f.occurrences
  | .mk _ function, around => function.occurrences_mentions around

theorem occurrences_mentionsInMethods : ∀ (methods : List NamedFunction) (around : Surroundings),
    (mentionsInMethods around methods).map Mention.occurrence = occurrencesInMethods methods
  | [], _ => rfl
  | method :: rest, around => by
    simp only [mentionsInMethods, occurrencesInMethods, List.map_append,
      method.occurrences_mentions, occurrences_mentionsInMethods rest]

theorem Stmt.occurrences_mentions : ∀ (s : Stmt) (around : Surroundings),
    (s.mentions around).map Mention.occurrence = s.occurrences
  | .expression value, around => value.occurrences_mentions around
  | .print value, around => value.occurrences_mentions around
  | .varDecl _ none, _ => rfl
  | .varDecl _ (some initial), _ => initial.occurrences_mentions _
  | .block body, _ => occurrences_mentionsInBody body _
  | .ifThen condition thenBranch none, around => by
    simp only [Stmt.mentions, Stmt.occurrences, List.map_append, condition.occurrences_mentions,
      thenBranch.occurrences_mentions]
  | .ifThen condition thenBranch (some elseBranch), around => by
    simp only [Stmt.mentions, Stmt.occurrences, List.map_append, condition.occurrences_mentions,
      thenBranch.occurrences_mentions, elseBranch.occurrences_mentions]
  | .whileDo condition body, around => by
    simp only [Stmt.mentions, Stmt.occurrences, List.map_append, condition.occurrences_mentions,
      body.occurrences_mentions]
  | .breakLoop _, _ => rfl
  | .returnWith _ none, _ => rfl
  | .returnWith _ (some value), around => value.occurrences_mentions around
  | .funDecl declared, _ => declared.occurrences_mentions _
  | .classDecl _ _ _ methods classMethods, _ => by
    simp only [Stmt.mentions, Stmt.occurrences, List.map_append, occurrences_mentionsAt,
      occurrences_mentionsInMethods]
  | .traitDecl _ _ methods, _ => by
    simp only [Stmt.mentions, Stmt.occurrences, List.map_append, occurrences_mentionsAt,
      occurrences_mentionsInMethods]

theorem occurrences_mentionsInBody : ∀ (body : List Stmt) (around : Surroundings),
    (mentionsInBody around body).map Mention.occurrence = occurrencesInBody body
  | [], _ => rfl
  | statement :: rest, around => by
    simp only [mentionsInBody, occurrencesInBody, List.map_append, statement.occurrences_mentions,
      occurrences_mentionsInBody rest]

end

end LoxLang
