import LoxLang.Proofs.Scoping.Position
import LoxLang.Scoping.Resolution

/-!
# What each operation of a walk does to its scopes

Resolution is a walk that enters and leaves scopes, declares names in them and writes into its
table. Of each of these operations it is said here which names the scopes have afterwards
(`Analysis.names`), that the table is as before, and that problems are only added
(`Analysis.Precedes`), so that a walk that ends without problems never had one.
-/

namespace LoxLang

namespace Scoping

/-! ## Names in scopes -/

/-- The names of a scope in the order of their slots. -/
def Scope.names (s : Scope) : List String :=
  s.slots.map fun v => v.name.text

/-- The names of all scopes, innermost first. -/
def Analysis.names (a : Analysis) : List (List String) :=
  a.scopes.map Scope.names

/-- The scopes of a walk have the names that are begun at a position. -/
def Agrees (a : Analysis) (position : Position) : Prop :=
  a.names = position.map Layer.begun

/-- Add a name to the innermost of some lists. -/
def addName (name : String) : List (List String) → List (List String)
  | [] => []
  | names :: outer => (names ++ [name]) :: outer

theorem Scope.slot?_eq (s : Scope) (name : String) :
    s.slot? name = s.names.findIdx? (· == name) := by
  simp only [Scope.slot?, Scope.names, List.findIdx?_map, Function.comp_def]

theorem Scope.declares_iff {s : Scope} {name : String} :
    s.declares name = true ↔ name ∈ s.names := by
  rw [Scope.declares, Scope.slot?_eq, List.findIdx?_isSome, List.any_eq_true]
  simp

theorem Scope.names_update (s : Scope) (name : String) (change : Progress → Progress) :
    (s.update name change).names = s.names := by
  simp only [Scope.names, Scope.update, List.map_map]
  apply List.map_congr_left
  intro v _
  simp only [Function.comp_apply]
  split <;> rfl

theorem Scope.names_push (s : Scope) (v : Variable) :
    (s.push v).names = s.names ++ [v.name.text] := by
  simp [Scope.names, Scope.push]

/-- Looking a name up among the scopes of a walk is looking it up at its position. -/
theorem Agrees.lookup? {a : Analysis} {position : Position} (h : Agrees a position)
    (name : String) :
    Scoping.lookup? name a.scopes = position.lookup? name := by
  obtain ⟨scopes, globals, bindings, problems⟩ := a
  simp only [Agrees, Analysis.names] at h ⊢
  induction scopes generalizing position with
  | nil =>
    have : position = [] := by simpa using h.symm
    subst this
    rfl
  | cons scope outer ih =>
    cases position with
    | nil => simp at h
    | cons layer position =>
      simp only [List.map_cons, List.cons.injEq] at h
      unfold Scoping.lookup? Position.lookup?
      cases hslot : layer.begun.findIdx? (· == name) with
      | some slot => simp only [Scope.slot?_eq, h.1, hslot]
      | none => simp only [Scope.slot?_eq, h.1, hslot, ih h.2]

theorem names_markRead (name : String) (scopes : List Scope) :
    (markRead name scopes).map Scope.names = scopes.map Scope.names := by
  induction scopes with
  | nil => rfl
  | cons scope outer ih =>
    unfold markRead
    split
    · simp [Scope.names_update]
    · simp [ih]

namespace Analysis

@[simp] theorem names_note (a : Analysis) (word : Name) (cause : Cause) :
    (a.note word cause).names = a.names := rfl

@[simp] theorem names_noteIf (a : Analysis) (condition : Bool) (word : Name) (cause : Cause) :
    (a.noteIf condition word cause).names = a.names := by
  unfold noteIf
  split <;> rfl

@[simp] theorem names_changeTraits (a : Analysis) (change : KnownTraits → KnownTraits) :
    (a.changeTraits change).names = a.names := by
  unfold changeTraits
  split
  · rfl
  · next h => simp [names, h, Scope.names]

theorem names_update (a : Analysis) (name : String) (change : Progress → Progress) :
    (a.changeInnermost (·.update name change)).names = a.names := by
  unfold changeInnermost
  split
  · rfl
  · next h => simp [names, h, Scope.names_update]

@[simp] theorem names_define (a : Analysis) (name : Name) : (a.define name).names = a.names :=
  names_update a name.text Progress.define

@[simp] theorem names_bind (a : Analysis) (id : RefId) (name : String) :
    (a.bind id name).names = a.names := by
  unfold bind
  split <;> rfl

@[simp] theorem names_bindRead (a : Analysis) (id : RefId) (name : String) :
    (a.bindRead id name).names = a.names := by
  unfold bindRead
  simp only [names, names_markRead]
  exact names_bind a id name

@[simp] theorem names_enter (a : Analysis) : a.enter.names = [] :: a.names := rfl

@[simp] theorem names_leave (a : Analysis) : a.leave.names = a.names.tail := by
  unfold leave
  split
  · next h => simp [names, h]
  · next h => simp [names, h]

@[simp] theorem names_bindImplicit (a : Analysis) (name : String) (line : Nat) :
    (a.bindImplicit name line).names = addName name a.names := by
  unfold bindImplicit changeInnermost
  split
  · next h => simp [names, h, addName]
  · next h => simp [names, h, addName, Scope.names_push]

@[simp] theorem bindings_noteIf (a : Analysis) (condition : Bool) (word : Name)
    (cause : Cause) : (a.noteIf condition word cause).bindings = a.bindings := by
  unfold noteIf
  split <;> rfl

@[simp] theorem bindings_changeTraits (a : Analysis) (change : KnownTraits → KnownTraits) :
    (a.changeTraits change).bindings = a.bindings := by
  unfold changeTraits
  split <;> rfl

@[simp] theorem bindings_changeInnermost (a : Analysis) (change : Scope → Scope) :
    (a.changeInnermost change).bindings = a.bindings := by
  unfold changeInnermost
  split <;> rfl

@[simp] theorem bindings_define (a : Analysis) (name : Name) :
    (a.define name).bindings = a.bindings :=
  bindings_changeInnermost a _

@[simp] theorem bindings_declare (a : Analysis) (name : Name) :
    (a.declare name).bindings = a.bindings := by
  unfold declare
  simp only
  split
  · simp
  · split
    · simp [note]
    · simp

@[simp] theorem bindings_enter (a : Analysis) : a.enter.bindings = a.bindings := rfl

@[simp] theorem bindings_leave (a : Analysis) : a.leave.bindings = a.bindings := by
  unfold leave
  split <;> rfl

@[simp] theorem bindings_bindImplicit (a : Analysis) (name : String) (line : Nat) :
    (a.bindImplicit name line).bindings = a.bindings :=
  bindings_changeInnermost a _

/-! ## A walk without problems -/

/-- A later state of a walk has all the problems of an earlier one. -/
def Precedes (a a' : Analysis) : Prop :=
  a.problems <+: a'.problems

theorem Precedes.refl (a : Analysis) : a.Precedes a :=
  List.prefix_rfl

theorem Precedes.trans {a b c : Analysis} (h : a.Precedes b) (h' : b.Precedes c) :
    a.Precedes c :=
  List.IsPrefix.trans h h'

theorem Precedes.clean {a a' : Analysis} (h : a.Precedes a') (clean : a'.problems = []) :
    a.problems = [] := by
  unfold Precedes at h
  rw [clean] at h
  exact List.prefix_nil.mp h

theorem precedes_note (a : Analysis) (word : Name) (cause : Cause) :
    a.Precedes (a.note word cause) :=
  List.prefix_append _ _

theorem precedes_noteIf (a : Analysis) (condition : Bool) (word : Name) (cause : Cause) :
    a.Precedes (a.noteIf condition word cause) := by
  unfold noteIf
  split
  · exact precedes_note a word cause
  · exact .refl a

/-- An operation that leaves the problems as they are. -/
theorem Precedes.of_eq {a a' : Analysis} (h : a'.problems = a.problems) : a.Precedes a' := by
  unfold Precedes
  exact h ▸ List.prefix_rfl

theorem problems_changeTraits (a : Analysis) (change : KnownTraits → KnownTraits) :
    (a.changeTraits change).problems = a.problems := by
  unfold changeTraits
  split <;> rfl

theorem problems_changeInnermost (a : Analysis) (change : Scope → Scope) :
    (a.changeInnermost change).problems = a.problems := by
  unfold changeInnermost
  split <;> rfl

theorem precedes_declare (a : Analysis) (name : Name) : a.Precedes (a.declare name) := by
  unfold declare
  simp only
  split
  · exact .of_eq (problems_changeTraits a _)
  · split
    · exact (Precedes.of_eq (problems_changeTraits a _)).trans (precedes_note _ _ _)
    · exact .of_eq ((problems_changeInnermost _ _).trans (problems_changeTraits a _))

theorem precedes_define (a : Analysis) (name : Name) : a.Precedes (a.define name) :=
  .of_eq (problems_changeInnermost a _)

theorem precedes_bind (a : Analysis) (id : RefId) (name : String) :
    a.Precedes (a.bind id name) := by
  unfold bind
  split <;> exact .refl a

theorem precedes_bindRead (a : Analysis) (id : RefId) (name : String) :
    a.Precedes (a.bindRead id name) :=
  precedes_bind a id name

theorem precedes_bindImplicit (a : Analysis) (name : String) (line : Nat) :
    a.Precedes (a.bindImplicit name line) :=
  .of_eq (problems_changeInnermost a _)

theorem precedes_declareParameter (a : Analysis) (name : Name) :
    a.Precedes (a.declareParameter name) :=
  (precedes_declare a name).trans (.of_eq (problems_changeInnermost _ _))

theorem precedes_leave (a : Analysis) : a.Precedes a.leave := by
  unfold leave
  split
  · exact .refl a
  · exact List.prefix_append _ _

/-- A declaration that is no misuse adds its name to the innermost scope. -/
theorem names_declare {a : Analysis} {name : Name} (clean : (a.declare name).problems = []) :
    (a.declare name).names = addName name.text a.names := by
  have hnames := names_changeTraits a (·.erase name.text)
  revert clean
  unfold declare
  simp only
  split
  · next h =>
    intro _
    rw [← hnames]
    simp [names, h, addName]
  · next scope outer h =>
    split
    · intro clean
      simp [note] at clean
    · intro _
      rw [← hnames]
      simp [names, changeInnermost, h, addName, Scope.names_push]

/-- A parameter that is no misuse adds its name to the innermost scope. -/
theorem names_declareParameter {a : Analysis} {name : Name}
    (clean : (a.declareParameter name).problems = []) :
    (a.declareParameter name).names = addName name.text a.names := by
  unfold declareParameter at clean ⊢
  rw [problems_changeInnermost] at clean
  rw [names_update, names_declare clean]

@[simp] theorem bindings_declareParameter (a : Analysis) (name : Name) :
    (a.declareParameter name).bindings = a.bindings := by
  simp [declareParameter]

end Analysis

/-! ## What is looked up

No scope is changed where a name is looked up, and without misuses the binding is written that the
name has there. -/

@[simp] theorem names_resolveReference (ref : Reference) (a : Analysis) :
    (resolveReference ref a).names = a.names := by
  simp [resolveReference]

@[simp] theorem names_resolveThis (body : ClassContext) (id : RefId) (line : Nat) (a : Analysis) :
    (resolveThis body id line a).names = a.names := by
  cases body <;> simp [resolveThis]

@[simp] theorem names_resolveSuper (body : ClassContext) (id : RefId) (line : Nat) (a : Analysis) :
    (resolveSuper body id line a).names = a.names := by
  cases body <;> simp [resolveSuper]

theorem bindings_resolveReference (ref : Reference) (a : Analysis) :
    (resolveReference ref a).bindings = (a.bind ref.id ref.name.text).bindings := by
  have hscopes : (a.noteIf (a.inOwnInitializer ref.name.text) ref.name .ownInitializer).scopes =
      a.scopes := by
    unfold Analysis.noteIf
    split <;> rfl
  simp only [resolveReference, Analysis.bindRead, Analysis.bind, hscopes]
  split <;> simp

/-- A `this` that is no misuse stands in the body of a class or trait. -/
theorem inBody_of_resolveThis {body : ClassContext} {id : RefId} {line : Nat} {a : Analysis}
    (clean : (resolveThis body id line a).problems = []) : body ≠ .outside := by
  rintro rfl
  simp [resolveThis, Analysis.note] at clean

/-- A `super` that is no misuse stands in the body of a class that extends another. -/
theorem derived_of_resolveSuper {body : ClassContext} {id : RefId} {line : Nat} {a : Analysis}
    (clean : (resolveSuper body id line a).problems = []) : body = .derived := by
  cases body with
  | outside | traitBody | plain => simp [resolveSuper, Analysis.note] at clean
  | derived => rfl

theorem bindings_resolveThis {body : ClassContext} {id : RefId} {line : Nat} {a : Analysis}
    (clean : (resolveThis body id line a).problems = []) :
    (resolveThis body id line a).bindings = (a.bind id thisName).bindings := by
  cases body with
  | outside => exact absurd rfl (inBody_of_resolveThis clean)
  | plain | derived | traitBody => rfl

theorem bindings_resolveSuper {body : ClassContext} {id : RefId} {line : Nat} {a : Analysis}
    (clean : (resolveSuper body id line a).problems = []) :
    (resolveSuper body id line a).bindings = (a.bind id superName).bindings := by
  obtain rfl := derived_of_resolveSuper clean
  rfl

/-! ## Composition of traits

Checking a composition does nothing but add problems. -/

/-- Problems have been added, and nothing else has changed. -/
def OnlyNotes (a a' : Analysis) : Prop :=
  ∃ more, a' = { a with problems := a.problems ++ more }

theorem OnlyNotes.refl (a : Analysis) : OnlyNotes a a :=
  ⟨[], by simp⟩

theorem OnlyNotes.trans {a b c : Analysis} (h : OnlyNotes a b) (h' : OnlyNotes b c) :
    OnlyNotes a c := by
  obtain ⟨more, rfl⟩ := h
  obtain ⟨more', rfl⟩ := h'
  exact ⟨more ++ more', by simp⟩

theorem onlyNotes_noteIf (a : Analysis) (condition : Bool) (word : Name) (cause : Cause) :
    OnlyNotes a (a.noteIf condition word cause) := by
  unfold Analysis.noteIf
  split
  · exact ⟨_, rfl⟩
  · exact .refl a

theorem OnlyNotes.precedes {a a' : Analysis} (h : OnlyNotes a a') : a.Precedes a' := by
  obtain ⟨more, rfl⟩ := h
  exact List.prefix_append _ _

theorem OnlyNotes.names {a a' : Analysis} (h : OnlyNotes a a') : a'.names = a.names := by
  obtain ⟨more, rfl⟩ := h
  rfl

theorem OnlyNotes.bindings {a a' : Analysis} (h : OnlyNotes a a') :
    a'.bindings = a.bindings := by
  obtain ⟨more, rfl⟩ := h
  rfl

theorem onlyNotes_provide (word : Name) (methods : List String) (provided : List String)
    (a : Analysis) : OnlyNotes a (provide word methods (provided, a)).2 := by
  induction methods generalizing provided a with
  | nil => exact .refl a
  | cons method rest ih =>
    unfold provide
    split
    · exact OnlyNotes.trans ⟨_, rfl⟩ (ih _ _)
    · exact ih _ _

theorem onlyNotes_provideAll (traits : List Reference) (provided : List String)
    (a : Analysis) : OnlyNotes a (provideAll traits (provided, a)).2 := by
  induction traits generalizing provided a with
  | nil => exact .refl a
  | cons used rest ih =>
    unfold provideAll
    split
    · exact (onlyNotes_provide _ _ _ _).trans (ih _ _)
    · exact ih _ _

theorem onlyNotes_noteProvided (provided : List String) (methods : List NamedFunction)
    (a : Analysis) : OnlyNotes a (noteProvided provided methods a) := by
  induction methods generalizing a with
  | nil => exact .refl a
  | cons method rest ih => exact (onlyNotes_noteIf _ _ _ _).trans (ih _)

theorem onlyNotes_checkComposition (traits : List Reference) (methods : List NamedFunction)
    (a : Analysis) : OnlyNotes a (checkComposition traits methods a).2 :=
  (onlyNotes_provideAll traits [] a).trans (onlyNotes_noteProvided _ methods _)

end Scoping

end LoxLang
