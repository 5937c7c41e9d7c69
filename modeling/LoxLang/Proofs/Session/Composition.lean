import LoxLang.Proofs.Composition.Union
import LoxLang.Proofs.Session.Lineage

/-!
# Composition of traits in a session

The traits of a session were declared by it, so that each has a name of a method once. With that,
every declaration of a class or trait that a session executes is a checked disjoint union.
-/

namespace LoxLang

/-- The parts of a declaration that count for the composition of traits: its name, its superclass,
the traits that it uses and the methods of its body. -/
def Stmt.composition? :
    Stmt → Option (Name × Option Reference × List Reference × List NamedFunction)
  | .classDecl name superclass traits methods _ => some (name, superclass, traits, methods)
  | .traitDecl name traits methods => some (name, none, traits, methods)
  | _ => none

/-- The methods of a class or a trait. -/
def Value.methods? : Value → Option Methods
  | .classValue k => some k.methods
  | .traitValue _ t => some t.methods
  | _ => none

/-- What a declaration can come to: it is refused for its superclass or its traits and has changed
nothing, or it binds its name to a value with the methods of the traits and of the body. -/
def Machine.Declares (m : Machine) (name : Name) (superclass : Option Reference)
    (traits : List Reference) (methods : List NamedFunction) :
    EStateM.Result Stop Machine Completion → Prop
  | .error stop m' => Refused m stop m' ∧
      (m.RefusesSuperclass superclass ∨ m.Refuses traits methods)
  | .ok completion m' => completion = .normal ∧ ¬m.RefusesSuperclass superclass ∧
      ∃ v table, v.methods? = some table ∧ m.Binds name.text v m' ∧
        m.Unites traits methods (m.methodFrame superclass) table

/-- A trait that was declared has a name of a method once. -/
theorem Trait.Made.distinct {past : Step → Prop} {s : Scene} {t : Trait} (h : t.Made past s) :
    t.methods.keys.Nodup := by
  obtain ⟨d, done, -, rfl⟩ := h
  exact nodup_keys_addBody (nodup_keys_composed done.composed) d.methods _

theorem Scene.Made.distinct {past : Step → Prop} {s : Scene} (h : s.Made past) :
    s.machine.Distinct := by
  rintro ref t ⟨id, hread⟩
  have hstored := (ensures_lookUp ref.id ref.name.text ref.name.line s.machine).of_ok hread
  have hmade : (Value.traitValue id t).Made past s := h.stored _ hstored.2
  exact Trait.Made.distinct hmade

theorem Scene.Made.rooted {past : Step → Prop} {s : Scene} (h : s.Made past)
    (recorded : s.Recorded) : s.machine.Rooted := by
  intro frame hframe
  obtain ⟨r, hr, -⟩ := h.current frame hframe
  obtain ⟨hlt, -⟩ := Array.getElem?_eq_some_iff.mp hr
  exact recorded.size ▸ hlt

/-- A declaration that is executed is a checked disjoint union. -/
theorem declares_execute {m : Machine} (distinct : m.Distinct) (rooted : m.Rooted)
    {statement : Stmt} {name : Name} {superclass : Option Reference} {traits : List Reference}
    {methods : List NamedFunction}
    (h : statement.composition? = some (name, superclass, traits, methods)) (budget : Nat) :
    m.Declares name superclass traits methods (execute (budget + 1) statement m) := by
  cases statement with
  | classDecl name superclass traits methods classMethods =>
    cases h
    have hdeclare := ensures_declareClass distinct rooted name superclass traits methods classMethods
    unfold Ensures at hdeclare
    simp only [execute, bind, EStateM.bind, pure, EStateM.pure]
    cases hrun : declareClass name superclass traits methods classMethods m with
    | error stop m' =>
      rw [hrun] at hdeclare
      exact hdeclare
    | ok _ m' =>
      rw [hrun] at hdeclare
      obtain ⟨hsuperclass, k, hbinds, hunites⟩ := hdeclare
      exact ⟨rfl, hsuperclass, .classValue k, k.methods, rfl, hbinds, hunites⟩
  | traitDecl name traits methods =>
    cases h
    have hdeclare := ensures_declareTrait distinct rooted name traits methods
    unfold Ensures at hdeclare
    simp only [execute, bind, EStateM.bind, pure, EStateM.pure]
    cases hrun : declareTrait name traits methods m with
    | error stop m' =>
      rw [hrun] at hdeclare
      exact ⟨hdeclare.1, .inr hdeclare.2⟩
    | ok _ m' =>
      rw [hrun] at hdeclare
      obtain ⟨id, t, hbinds, hunites⟩ := hdeclare
      refine ⟨rfl, ?_, .traitValue id t, t.methods, rfl, hbinds, hunites⟩
      -- A trait extends nothing, so that there is no superclass to be refused.
      rintro ⟨ref, href, -⟩
      cases href
  | _ => cases h

/-- In a session every declaration of a class or trait that is executed is a checked disjoint union.
Its traits are refused exactly if a listed name does not denote a trait, two of the listed traits
have a method of the same name, or the body declares a method that one of them provides. A
declaration that is refused, for its superclass or its traits, is a failure and leaves the machine
as it was. Otherwise it binds its name in the current scope to a value whose methods are those of
the traits, the very functions, and those of the body, the last one of each name. -/
theorem trait_composition_is_union (host : Host) (sink : Sink) (events : List Event) (budget : Nat)
    (input : Input) :
    let s := (Session.start host sink).through events
    let w := ((Account.start host sink).through events).take budget input
    w.outcome = s.take budget input ∧
      ∀ step ∈ w.steps, ∀ statement name superclass traits methods,
        step.moment = .executing statement →
        statement.composition? = some (name, superclass, traits, methods) →
        ((∃ stop m', composeTraits traits methods step.scene.machine = .error stop m') ↔
          step.scene.machine.Refuses traits methods) ∧
        ∀ budget, step.scene.machine.Declares name superclass traits methods
          (execute (budget + 1) statement step.scene.machine) := by
  intro s w
  have hsound : w.Sound := (Account.sound_through host sink events).take budget input
  have hmade := Account.made_take_through host sink events budget input
  refine ⟨Account.outcome_through host sink events budget input, ?_⟩
  intro step hstep statement name superclass traits methods _ hcomposition
  obtain ⟨later, earlier, hsteps⟩ := List.append_of_mem hstep
  have hsuffix : step :: earlier <:+ w.steps := ⟨later, hsteps.symm⟩
  have made := hmade.step hsuffix
  obtain ⟨p, -, ready⟩ := (hsound.steps step hstep).ready
  have distinct := made.distinct
  have rooted := made.rooted ready.sound.scene.recorded
  refine ⟨?_, fun budget => declares_execute distinct rooted hcomposition budget⟩
  have hcompose := ensures_composeTraits distinct traits methods
  constructor
  · rintro ⟨stop, m', hrun⟩
    exact (hcompose.of_error hrun).2
  · intro hrefuses
    cases hrun : composeTraits traits methods step.scene.machine with
    | error stop m' => exact ⟨stop, m', rfl⟩
    | ok composed m' => exact absurd hrefuses (hcompose.of_ok hrun).2.1

end LoxLang
