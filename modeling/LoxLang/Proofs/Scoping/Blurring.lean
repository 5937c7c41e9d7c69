import LoxLang.Proofs.Scoping.Mentions
import LoxLang.Proofs.Tree.Recoding
import LoxLang.Proofs.Tree.Renaming

/-!
# Trees without the names of local variables

A blurred tree has no names of the variables of its scopes, and none of the occurrences in them that
a table binds. If the table binds all that denotes a local variable, the tree with another name for
one of the variables is blurred to the same tree (`recodeBody_rename`).
-/

namespace LoxLang

/-- No names of variables in scopes, nor of the occurrences there that a table binds. -/
def blurring (table : Bindings) : Recoding where
  line := fun line => line
  id := fun id => id
  word := fun id text => if id ∈ table then "" else text
  name := fun _ => ""

/-- The scopes around a place hold what they have begun to declare by the old name. -/
inductive Held (ρ : Renaming) : List Holding → Surroundings → Prop
  | nil : Held ρ [] []
  | cons {holding : Holding} {scope : Begun} {around : List Holding} {scopes : Surroundings}
      (inner : holding = .nothing ↔ ρ.old ∉ scope.names) (outer : Held ρ around scopes) :
      Held ρ (holding :: around) (scope :: scopes)

/-- Every mention of a local variable is bound. -/
def Bound (table : Bindings) (mentions : List Mention) : Prop :=
  ∀ mention ∈ mentions, ∀ b, mention.Denotes b → mention.occurrence.id ∈ table

theorem bound_append {table : Bindings} {mentions mentions' : List Mention} :
    Bound table (mentions ++ mentions') ↔ Bound table mentions ∧ Bound table mentions' :=
  List.forall_mem_append

section

variable {ρ : Renaming} {around : List Holding} {scopes : Surroundings}

/-- The old name denotes the renamed variable if and only if by the rule of lexical scoping it
denotes a variable of the scope that holds the renamed one. -/
theorem Held.denotesRenamed_iff (h : Held ρ around scopes) :
    denotesRenamed around = true ↔
      ∃ b, scopes.Denotes ρ.old b ∧ around[b.depth]? = some .renamed := by
  induction h with
  | nil => simp [denotesRenamed, Surroundings.not_denotes_nil]
  | @cons holding scope around scopes inner outer ih =>
    by_cases mem : ρ.old ∈ scope.names
    · simp only [Surroundings.denotes_cons_of_mem mem]
      have hsome : holding ≠ .nothing := fun hnothing => inner.mp hnothing mem
      obtain ⟨earlier, later, hnames⟩ := List.append_of_mem mem
      constructor
      · intro hρ
        cases holding with
        | nothing => exact absurd rfl hsome
        | renamed => exact ⟨_, ⟨earlier, later, hnames, rfl⟩, rfl⟩
        | other => cases hρ
      · rintro ⟨b, ⟨_, _, _, rfl⟩, hheld⟩
        obtain rfl := Option.some.inj hheld
        rfl
    · obtain rfl := inner.mpr mem
      simp only [Surroundings.denotes_cons_of_not_mem mem, denotesRenamed, ih]
      constructor
      · rintro ⟨b, hb, hheld⟩
        exact ⟨_, ⟨b, hb, rfl⟩, hheld⟩
      · rintro ⟨_, ⟨b, hb, rfl⟩, hheld⟩
        exact ⟨b, hb, hheld⟩

theorem Held.enter (h : Held ρ around scopes) : Held ρ (.nothing :: around) (.none :: scopes) :=
  .cons (by simp [Begun.none]) h

theorem Held.declare (h : Held ρ around scopes) (chosen : Bool) (name : String) :
    Held ρ (ρ.declare chosen name around) (scopes.declare name) := by
  cases h with
  | nil => exact .nil
  | @cons holding scope around scopes inner outer =>
    refine .cons ?_ outer
    have hmem : ρ.old ∈ (scope.add name).names ↔ ρ.old ∈ scope.names ∨ ρ.old = name := by
      rw [Begun.names_add]
      split
      · next hname => exact ⟨.inl, fun h => h.elim id fun heq => heq ▸ hname⟩
      · simp
    rw [hmem]
    unfold Renaming.hold
    by_cases hold : name = ρ.old
    · cases chosen <;> simp [hold]
    · simp [hold, Ne.symm hold, inner]

theorem Held.declareParameters (h : Held ρ around scopes) (position : Nat) (params : List Name) :
    Held ρ (ρ.declareParameters position params around)
      (scopes.declareAll (params.map Name.text)) := by
  induction params generalizing position around scopes with
  | nil => exact h
  | cons param rest ih => exact ih (h.declare _ _) (position + 1)

theorem Held.methods (h : Held ρ around scopes) (name : Name) (derived : Bool) :
    Held ρ (holdingsOfMethods ρ name derived around) (scopes.methods name derived) := by
  have hdeclared := h.declare false name.text
  have hthis : ρ.old ∉ (Begun.only thisName).names := by simp [Begun.only, ρ.old_explicit.1]
  have hsuper : ρ.old ∉ (Begun.only superName).names := by simp [Begun.only, ρ.old_explicit.2]
  cases derived with
  | false => exact .cons (by simp [hthis]) hdeclared
  | true => exact .cons (by simp [hthis]) (.cons (by simp [hsuper]) hdeclared)

theorem Held.behind {around : List Holding} {scopes : Surroundings} (h : Held ρ around scopes)
    (position : Nat) : ∀ s : Stmt, Held ρ (s.behind ρ position around) (scopes.declareAll s.begins)
  | .varDecl name _ => h.declare _ name.text
  | .ifThen condition thenBranch none => h.behind (position + condition.names.length) thenBranch
  | .ifThen condition thenBranch (some elseBranch) => by
    have hthen := h.behind (position + condition.names.length) thenBranch
    have helse := hthen.behind
      (position + condition.names.length + thenBranch.names.length) elseBranch
    rwa [← Surroundings.declareAll_append] at helse
  | .whileDo condition body => h.behind (position + condition.names.length) body
  | .funDecl declared => h.declare false declared.name.text
  | .classDecl name _ _ _ _ => h.declare false name.text
  | .traitDecl name _ _ => h.declare false name.text
  | .expression _ => h
  | .print _ => h
  | .block _ => h
  | .breakLoop _ => h
  | .returnWith _ _ => h

end

/-- A place in the tree: the scopes around it with what they hold, none of them for code that
stands outside of all scopes. -/
structure Placed (ρ : Renaming) (inside : Bool) (around : List Holding)
    (scopes : Surroundings) : Prop where
  held : Held ρ around scopes
  outside : inside = false → scopes = []

section

variable {ρ : Renaming} {inside : Bool} {around : List Holding} {scopes : Surroundings}

theorem Placed.enter (h : Placed ρ inside around scopes) :
    Placed ρ true (.nothing :: around) (.none :: scopes) :=
  ⟨h.held.enter, nofun⟩

theorem Placed.declare (h : Placed ρ inside around scopes) (chosen : Bool) (name : String) :
    Placed ρ inside (ρ.declare chosen name around) (scopes.declare name) := by
  refine ⟨h.held.declare chosen name, fun houtside => ?_⟩
  rw [h.outside houtside]
  rfl

theorem Placed.behind (h : Placed ρ inside around scopes) (position : Nat) (s : Stmt) :
    Placed ρ inside (s.behind ρ position around) (scopes.declareAll s.begins) := by
  refine ⟨h.held.behind position s, fun houtside => ?_⟩
  have hlength := Surroundings.length_declareAll s.begins scopes
  rw [h.outside houtside] at hlength ⊢
  exact List.eq_nil_of_length_eq_zero hlength

theorem Placed.methods (h : Placed ρ inside around scopes) (name : Name) (derived : Bool) :
    Placed ρ true (holdingsOfMethods ρ name derived around) (scopes.methods name derived) :=
  ⟨h.held.methods name derived, nofun⟩

/-- Outside of all scopes nothing is renamed. -/
theorem Placed.rename_outside (h : Placed ρ false around scopes) (name : Name) :
    name.rename ρ around = name := by
  obtain ⟨held, outside⟩ := h
  rw [outside rfl] at held
  cases held
  exact name.rename_nil ρ

end

/-! ## Trees -/

section

variable {ρ : Renaming} {table : Bindings} {inside : Bool} {around : List Holding}
  {scopes : Surroundings}

theorem Name.recode_rename (h : Placed ρ inside around scopes) (name : Name) :
    (name.rename ρ around).recode (blurring table) inside =
      name.recode (blurring table) inside := by
  cases inside with
  | false => rw [h.rename_outside]
  | true => rfl

theorem Reference.recode_rename (h : Placed ρ inside around scopes) {ref : Reference}
    {form : OccurrenceForm}
    (bound : Bound table (mentionsAt scopes [⟨form, ref.id, ref.name.text, ref.name.line⟩])) :
    (ref.rename ρ around).recode (blurring table) inside =
      ref.recode (blurring table) inside := by
  cases inside with
  | false => simp only [Reference.rename, h.rename_outside]
  | true =>
    by_cases hold : ref.name.text = ρ.old ∧ denotesRenamed around = true
    · -- A renamed occurrence is bound, so neither name of it is left.
      obtain ⟨b, hb, -⟩ := h.held.denotesRenamed_iff.mp hold.2
      have hmem : ref.id ∈ table :=
        bound _ List.mem_cons_self b (show scopes.Denotes ref.name.text b from hold.1 ▸ hb)
      simp [Reference.recode, Reference.rename, Recoding.referred, blurring, hmem, Name.rename]
    · have hsame : ref.rename ρ around = ref := by
        simp [Reference.rename, Name.rename, Renaming.written, hold]
      rw [hsame]

theorem recode_renameReferences (h : Placed ρ inside around scopes) (refs : List Reference)
    (bound : Bound table (mentionsAt scopes (refs.map Reference.occurrence))) :
    (refs.map (Reference.rename ρ around)).map (Reference.recode (blurring table) inside) =
      refs.map (Reference.recode (blurring table) inside) := by
  rw [List.map_map]
  refine List.map_congr_left fun ref hmem => ?_
  have href : Bound table (mentionsAt scopes [ref.occurrence]) := by
    intro mention hmention
    obtain rfl := List.mem_singleton.mp hmention
    exact bound _ (List.mem_map_of_mem (List.mem_map_of_mem hmem))
  exact Reference.recode_rename h href

theorem recode_renameParameters (params : List Name) (position : Nat) (around : List Holding) :
    (renameParameters ρ position params around).map (Name.recode (blurring table) true) =
      params.map (Name.recode (blurring table) true) := by
  induction params generalizing position around with
  | nil => rfl
  | cons param rest ih =>
    simp only [renameParameters, List.map_cons, ih]
    rfl

mutual

theorem Expr.recode_rename : ∀ (e : Expr) {around : List Holding} {scopes : Surroundings}
    {inside : Bool} (position : Nat), Placed ρ inside around scopes →
    Bound table (e.mentions scopes) →
    (e.rename ρ around position).recode (blurring table) inside =
      e.recode (blurring table) inside
  | .literal _, _, _, _, _, _, _ => rfl
  | .unary _ _ operand, _, _, _, position, h, bound => by
    simp only [Expr.rename, Expr.recode, operand.recode_rename position h bound]
  | .binary left _ _ right, _, _, _, position, h, bound => by
    rw [Expr.mentions, bound_append] at bound
    simp only [Expr.rename, Expr.recode, left.recode_rename position h bound.1,
      right.recode_rename _ h bound.2]
  | .logical left _ _ right, _, _, _, position, h, bound => by
    rw [Expr.mentions, bound_append] at bound
    simp only [Expr.rename, Expr.recode, left.recode_rename position h bound.1,
      right.recode_rename _ h bound.2]
  | .conditional condition thenBranch elseBranch, _, _, _, position, h, bound => by
    rw [Expr.mentions, bound_append, bound_append] at bound
    simp only [Expr.rename, Expr.recode, condition.recode_rename position h bound.1.1,
      thenBranch.recode_rename _ h bound.1.2, elseBranch.recode_rename _ h bound.2]
  | .grouping inner, _, _, _, position, h, bound => by
    simp only [Expr.rename, Expr.recode, inner.recode_rename position h bound]
  | .variable ref, _, _, _, _, h, bound => by
    simp only [Expr.rename, Expr.recode, Reference.recode_rename h bound]
  | .assign ref value, _, _, _, position, h, bound => by
    rw [Expr.mentions, bound_append] at bound
    simp only [Expr.rename, Expr.recode, Reference.recode_rename h bound.1,
      value.recode_rename _ h bound.2]
  | .call callee arguments _, _, _, _, position, h, bound => by
    rw [Expr.mentions, bound_append] at bound
    simp only [Expr.rename, Expr.recode, callee.recode_rename position h bound.1,
      recodeArguments_rename arguments _ h bound.2]
  | .get object _, _, _, _, position, h, bound => by
    simp only [Expr.rename, Expr.recode, object.recode_rename position h bound]
  | .set object _ value, _, _, _, position, h, bound => by
    rw [Expr.mentions, bound_append] at bound
    simp only [Expr.rename, Expr.recode, object.recode_rename position h bound.1,
      value.recode_rename _ h bound.2]
  | .this _ _, _, _, _, _, _, _ => rfl
  | .super _ _ _, _, _, _, _, _, _ => rfl
  | .lambda _ function, _, _, _, position, h, bound => by
    simp only [Expr.rename, Expr.recode, function.recode_rename position h bound]

theorem recodeArguments_rename : ∀ (arguments : List Expr) {around : List Holding}
    {scopes : Surroundings} {inside : Bool} (position : Nat), Placed ρ inside around scopes →
    Bound table (mentionsInArguments scopes arguments) →
    recodeArguments (blurring table) inside (renameArguments ρ around position arguments) =
      recodeArguments (blurring table) inside arguments
  | [], _, _, _, _, _, _ => rfl
  | argument :: rest, _, _, _, position, h, bound => by
    rw [mentionsInArguments, bound_append] at bound
    simp only [renameArguments, recodeArguments, argument.recode_rename position h bound.1,
      recodeArguments_rename rest _ h bound.2]

theorem Function.recode_rename : ∀ (f : Function) {around : List Holding}
    {scopes : Surroundings} {inside : Bool} (position : Nat), Placed ρ inside around scopes →
    Bound table (f.mentions scopes) →
    (f.rename ρ around position).recode (blurring table) = f.recode (blurring table)
  | .mk params body, _, _, _, position, h, bound => by
    have hbody : Placed ρ true _ _ := ⟨h.enter.held.declareParameters position params, nofun⟩
    simp only [Function.rename, Function.recode, recode_renameParameters,
      recodeBody_rename body (position + params.length) hbody bound]

theorem NamedFunction.recode_rename : ∀ (f : NamedFunction) {around : List Holding}
    {scopes : Surroundings} {inside : Bool} (position : Nat), Placed ρ inside around scopes →
    Bound table (f.mentions scopes) →
    (f.rename ρ around position).recode (blurring table) = f.recode (blurring table)
  | .mk _ function, _, _, _, position, h, bound => by
    simp only [NamedFunction.rename, NamedFunction.recode,
      function.recode_rename (position + 1) h bound]

theorem recodeMethods_rename : ∀ (methods : List NamedFunction) {around : List Holding}
    {scopes : Surroundings} {inside : Bool} (position : Nat), Placed ρ inside around scopes →
    Bound table (mentionsInMethods scopes methods) →
    recodeMethods (blurring table) (renameMethods ρ around position methods) =
      recodeMethods (blurring table) methods
  | [], _, _, _, _, _, _ => rfl
  | method :: rest, _, _, _, position, h, bound => by
    rw [mentionsInMethods, bound_append] at bound
    simp only [renameMethods, recodeMethods, method.recode_rename position h bound.1,
      recodeMethods_rename rest _ h bound.2]

theorem Stmt.recode_rename : ∀ (s : Stmt) {around : List Holding} {scopes : Surroundings}
    {inside : Bool} (position : Nat), Placed ρ inside around scopes →
    Bound table (s.mentions scopes) →
    (s.rename ρ around position).recode (blurring table) inside =
      s.recode (blurring table) inside
  | .expression value, _, _, _, position, h, bound => by
    simp only [Stmt.rename, Stmt.recode, value.recode_rename position h bound]
  | .print value, _, _, _, position, h, bound => by
    simp only [Stmt.rename, Stmt.recode, value.recode_rename position h bound]
  | .varDecl name none, _, _, _, position, h, _ => by
    have hdeclared := h.declare (position = ρ.position) name.text
    simp only [Stmt.rename, Stmt.recode, Renaming.declareVariable, Name.recode_rename hdeclared]
  | .varDecl name (some initial), _, _, _, position, h, bound => by
    have hdeclared := h.declare (position = ρ.position) name.text
    simp only [Stmt.rename, Stmt.recode, Renaming.declareVariable, Name.recode_rename hdeclared,
      initial.recode_rename _ hdeclared bound]
  | .block body, _, _, _, position, h, bound => by
    simp only [Stmt.rename, Stmt.recode, recodeBody_rename body position h.enter bound]
  | .ifThen condition thenBranch none, _, _, _, position, h, bound => by
    rw [Stmt.mentions, bound_append] at bound
    simp only [Stmt.rename, Stmt.recode, condition.recode_rename position h bound.1,
      thenBranch.recode_rename _ h bound.2]
  | .ifThen condition thenBranch (some elseBranch), _, _, _, position, h, bound => by
    rw [Stmt.mentions, bound_append, bound_append] at bound
    simp only [Stmt.rename, Stmt.recode, condition.recode_rename position h bound.1.1,
      thenBranch.recode_rename _ h bound.1.2,
      elseBranch.recode_rename _ (h.behind _ thenBranch) bound.2]
  | .whileDo condition body, _, _, _, position, h, bound => by
    rw [Stmt.mentions, bound_append] at bound
    simp only [Stmt.rename, Stmt.recode, condition.recode_rename position h bound.1,
      body.recode_rename _ h bound.2]
  | .breakLoop _, _, _, _, _, _, _ => rfl
  | .returnWith _ none, _, _, _, _, _, _ => rfl
  | .returnWith _ (some value), _, _, _, position, h, bound => by
    simp only [Stmt.rename, Stmt.recode, value.recode_rename position h bound]
  | .funDecl declared, _, _, _, position, h, bound => by
    have hdeclared := h.declare false declared.name.text
    simp only [Stmt.rename, Stmt.recode, declared.recode_rename position hdeclared bound]
  | .classDecl name superclass traits methods classMethods, _, _, _, position, h, bound => by
    rw [Stmt.mentions, bound_append, bound_append, bound_append] at bound
    have hdeclared := h.declare false name.text
    have hmethods := h.methods name superclass.isSome
    have hsuperclass := recode_renameReferences hdeclared superclass.toList bound.1.1.1
    simp only [Stmt.rename, Stmt.recode, recode_renameReferences hdeclared traits bound.1.1.2,
      recodeMethods_rename methods _ hmethods bound.1.2,
      recodeMethods_rename classMethods _ hmethods bound.2]
    cases superclass with
    | none => rfl
    | some ref =>
      have href : (ref.rename ρ _).recode (blurring table) _ = ref.recode (blurring table) _ :=
        (List.cons.inj hsuperclass).1
      simp only [Option.map_some, href]
  | .traitDecl name traits methods, _, _, _, position, h, bound => by
    rw [Stmt.mentions, bound_append] at bound
    simp only [Stmt.rename, Stmt.recode,
      recode_renameReferences (h.declare false name.text) traits bound.1,
      recodeMethods_rename methods _ (h.methods name false) bound.2]

/-- With another name for a variable a tree is blurred to the same tree. -/
theorem recodeBody_rename : ∀ (body : List Stmt) {around : List Holding}
    {scopes : Surroundings} {inside : Bool} (position : Nat), Placed ρ inside around scopes →
    Bound table (mentionsInBody scopes body) →
    recodeBody (blurring table) inside (renameBody ρ around position body) =
      recodeBody (blurring table) inside body
  | [], _, _, _, _, _, _ => rfl
  | statement :: rest, _, _, _, position, h, bound => by
    rw [mentionsInBody, bound_append] at bound
    simp only [renameBody, recodeBody, statement.recode_rename position h bound.1,
      recodeBody_rename rest _ (h.behind position statement) bound.2]

end

end

end LoxLang
