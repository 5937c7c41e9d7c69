import LoxLang.Dictionary
import LoxLang.Scoping.Binding
import LoxLang.Scoping.Problem

/-!
# Scopes

While a program is checked, the scopes around the present place are kept innermost first. A
scope has its variables in the order of their declaration, so that the place of a variable is
the slot of its value, and what is known of the traits declared in it. Outside of all scopes
lie the globals, of which only the traits are known.
-/

namespace LoxLang

namespace Scoping

/-- How far the declaration and the use of a variable have come. -/
inductive Progress
  | declared
  | defined
  | read
deriving Repr, DecidableEq

/-- A variable of a scope. -/
structure Variable where
  name : Name
  progress : Progress
deriving Repr, DecidableEq

/-- The names of the methods of known traits. -/
abbrev KnownTraits := Dictionary (List String)

/-- The variables of a block, function, or class body, and the traits among them. -/
structure Scope where
  slots : List Variable
  traits : KnownTraits
deriving Repr

namespace Scope

/-- The scope without variables. -/
def empty : Scope := ⟨[], Dictionary.empty⟩

/-- The slot of a variable. -/
def slot? (s : Scope) (name : String) : Option Nat :=
  s.slots.findIdx? fun v => v.name.text == name

/-- Whether a name is declared in the scope. -/
def declares (s : Scope) (name : String) : Bool :=
  (s.slot? name).isSome

/-- Put a variable into the next slot. -/
def push (s : Scope) (v : Variable) : Scope :=
  { s with slots := s.slots ++ [v] }

/-- Change the progress of a variable. -/
def update (s : Scope) (name : String) (change : Progress → Progress) : Scope :=
  { s with
    slots := s.slots.map fun v =>
      if v.name.text = name then { v with progress := change v.progress } else v }

/-- The variables that were never read, in the order of their slots. -/
def neverRead (s : Scope) : List Variable :=
  s.slots.filter fun v => v.progress = .defined

end Scope

/-- A declaration whose variable may now be read. -/
def Progress.define : Progress → Progress
  | declared => defined
  | defined => defined
  | read => read

/-- A variable that is read; reading it in its own initializer does not count. -/
def Progress.markRead : Progress → Progress
  | declared => declared
  | defined => read
  | read => read

/-- Where a name is bound among scopes, if it is. -/
def lookup? (name : String) : List Scope → Option Binding
  | [] => none
  | scope :: outer =>
    match scope.slot? name with
    | some slot => some ⟨0, slot⟩
    | none => (lookup? name outer).map fun b => { b with depth := b.depth + 1 }

/-- Note that a name is read: in the innermost scope that declares it. -/
def markRead (name : String) : List Scope → List Scope
  | [] => []
  | scope :: outer =>
    if scope.declares name then scope.update name Progress.markRead :: outer
    else scope :: markRead name outer

/-- What is known of the trait that a name denotes, with the traits among the globals. -/
def knownTrait? (name : String) (globals : KnownTraits) : List Scope → Option (List String)
  | [] => globals.get? name
  | scope :: outer =>
    if scope.declares name then scope.traits.get? name else knownTrait? name globals outer

/-- What has been found out up to the present place. -/
structure Analysis where
  scopes : List Scope
  globalTraits : KnownTraits
  bindings : Bindings
  problems : List Problem

namespace Analysis

/-- The state before a program is looked at. -/
def start : Analysis := ⟨[], Dictionary.empty, Bindings.none, []⟩

/-- Add a problem. -/
def note (a : Analysis) (word : Name) (cause : Cause) : Analysis :=
  { a with problems := a.problems ++ [⟨word, cause⟩] }

/-- Add a problem if a condition holds. -/
def noteIf (a : Analysis) (condition : Bool) (word : Name) (cause : Cause) : Analysis :=
  if condition then a.note word cause else a

/-- Change the innermost scope, if there is one. -/
def changeInnermost (a : Analysis) (change : Scope → Scope) : Analysis :=
  match a.scopes with
  | [] => a
  | scope :: outer => { a with scopes := change scope :: outer }

/-- Change what is known of the traits declared at the present place. -/
def changeTraits (a : Analysis) (change : KnownTraits → KnownTraits) : Analysis :=
  match a.scopes with
  | [] => { a with globalTraits := change a.globalTraits }
  | scope :: outer => { a with scopes := { scope with traits := change scope.traits } :: outer }

/-- Enter a scope. -/
def enter (a : Analysis) : Analysis :=
  { a with scopes := Scope.empty :: a.scopes }

/-- Leave the innermost scope and report its variables that were never read. -/
def leave (a : Analysis) : Analysis :=
  match a.scopes with
  | [] => a
  | scope :: outer =>
    { a with
      scopes := outer
      problems := a.problems ++ scope.neverRead.map fun v => ⟨v.name, .neverRead⟩ }

/-- Declare a name at the present place, which hides a trait of that name there. A scope
declares a name once; a global needs no declaration. -/
def declare (a : Analysis) (name : Name) : Analysis :=
  let a := a.changeTraits (·.erase name.text)
  match a.scopes with
  | [] => a
  | scope :: _ =>
    if scope.declares name.text then a.note name .alreadyDeclared
    else a.changeInnermost (·.push ⟨name, .declared⟩)

/-- From here on the name may be read. -/
def define (a : Analysis) (name : Name) : Analysis :=
  a.changeInnermost (·.update name.text Progress.define)

/-- Declare a parameter, which need not be read. -/
def declareParameter (a : Analysis) (name : Name) : Analysis :=
  (a.declare name).changeInnermost (·.update name.text fun _ => .read)

/-- Put `this` or `super` into the next slot of the innermost scope. -/
def bindImplicit (a : Analysis) (name : String) (line : Nat) : Analysis :=
  a.changeInnermost (·.push ⟨⟨name, line⟩, .read⟩)

/-- Note the binding of an occurrence, if its name is that of a local variable. -/
def bind (a : Analysis) (id : RefId) (name : String) : Analysis :=
  match lookup? name a.scopes with
  | some binding => { a with bindings := a.bindings.insert id binding }
  | none => a

/-- Note the binding of an occurrence that is read. -/
def bindRead (a : Analysis) (id : RefId) (name : String) : Analysis :=
  let a := a.bind id name
  { a with scopes := markRead name a.scopes }

/-- Whether a name is that of a variable in whose initializer the present place lies. -/
def inOwnInitializer (a : Analysis) (name : String) : Bool :=
  match a.scopes with
  | [] => false
  | scope :: _ => scope.slots.any fun v => v.name.text = name ∧ v.progress = .declared

end Analysis

end Scoping

end LoxLang
