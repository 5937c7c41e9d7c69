import LoxLang.Proofs.Evaluation.Inheritance
import LoxLang.Proofs.Session.Lineage

/-!
# Inheritance in a session

All classes of a session are in order at all times, and a property of an object that is read is a
field of it or, if it has none of the name, the method of the nearest class that has one.
-/

namespace LoxLang

/-- All classes that a machine stores, or has instances of, are in order. -/
def Scene.LawfulClasses (past : Step → Prop) (s : Scene) : Prop :=
  ∀ v, s.machine.Stores v → ∀ id k kind, v.object? = some (id, k, kind) → k.Lawful past

/-- A property that is read at a step: the object has come to `v`, whose class is in order; it is a
field of `v` if there is one of the name, and otherwise the method of the nearest class that has
one, bound to `v`. -/
def Step.ReadsProperty (step : Step) (past : Step → Prop) (object : Expr) (name : Name) : Prop :=
  ∀ budget v c, Watch.evaluate budget object ⟨step.scene, [step]⟩ = .ok v c →
    ∀ id k kind, v.object? = some (id, k, kind) → k.Lawful (c.Past past) ∧
      evaluate (budget + 1) (.get object name) step.scene.machine =
        match (c.scene.machine.objects.getD id Dictionary.empty).get? name.text with
        | some value => .ok value c.scene.machine
        | none =>
          boundResult (k.chain.findSome? fun found => (found.own kind).get? name.text) v name
            c.scene.machine

theorem Scene.Made.lawfulClasses {past : Step → Prop} {s : Scene} (h : s.Made past) :
    s.LawfulClasses past :=
  fun v hv _ _ _ hobject => ((h.stored v hv).class hobject).lawful

theorem Step.Good.readsProperty {known : Site → Prop} {past : Step → Prop} {step : Step}
    (good : step.Good known) (made : step.scene.Made past) {object : Expr} {name : Name}
    (hmoment : step.moment = .evaluating (.get object name)) :
    step.ReadsProperty past object name := by
  intro budget v c hwatch id k kind hobject
  obtain ⟨p, moment, ready⟩ := good.ready
  obtain ⟨formed, sites⟩ := moment.code _ hmoment
  have ready' : Chronicle.Ready known p ⟨step.scene, [step]⟩ :=
    ready.mark moment (by rw [hmoment]; rfl)
  have made' : Chronicle.Made past ⟨step.scene, [step]⟩ := made.chronicle.marked step.moment
  have hv := ((makingAt known past budget).evaluate object p _ made' ready' formed
    (known_of_cons sites).2).of_ok hwatch |>.2
  have lawful := (hv.class hobject).lawful
  refine ⟨lawful, ?_⟩
  have herased := Watch.erases_evaluate budget object ⟨step.scene, [step]⟩
  rw [hwatch] at herased
  have hread : evaluate (budget + 1) (.get object name) step.scene.machine =
      property v name c.scene.machine := by
    simp only [evaluate, bind, EStateM.bind]
    rw [← herased]
    rfl
  rw [hread, property_of_object hobject, lawful.found]
  cases (c.scene.machine.objects.getD id Dictionary.empty).get? name.text with
  | some value => rfl
  | none => exact bindFound_eq _ _ _ _

/-- In a session all classes are in order at every step of every run and behind it: each was created
after the class that it extends, the metaclasses extend each other as the classes do, and what a
class has is what the nearest class has that has something of the name. A property that is read is
a field of the object or, if it has none of the name, such a method, bound to the object. -/
theorem inheritance_is_lawful (host : Host) (sink : Sink) (events : List Event) (budget : Nat)
    (input : Input) :
    let s := (Session.start host sink).through events
    let history := (Account.start host sink).history events
    let w := ((Account.start host sink).through events).take budget input
    w.outcome = s.take budget input ∧
      (∀ step earlier, step :: earlier <:+ w.steps →
        step.scene.LawfulClasses (· ∈ earlier ++ history) ∧
        ∀ object name, step.moment = .evaluating (.get object name) →
          step.ReadsProperty (· ∈ earlier ++ history) object name) ∧
      w.account.scene.LawfulClasses (· ∈ w.steps ++ history) := by
  intro s history w
  have hsound : w.Sound := (Account.sound_through host sink events).take budget input
  have hmade : w.Made (· ∈ history) := Account.made_take_through host sink events budget input
  refine ⟨Account.outcome_through host sink events budget input, ?_, hmade.behind.lawfulClasses⟩
  intro step earlier hsuffix
  have made := hmade.step hsuffix
  refine ⟨made.lawfulClasses, fun object name hmoment => ?_⟩
  exact (hsound.steps step (hsuffix.subset List.mem_cons_self)).readsProperty made hmoment

/-- A method of a class two levels up, a class method that is inherited, and a field that hides a
method. -/
example : ((Session.start .plain (.working "")).take 60 (.source (Utf8.encode
      ("class A \x7b m() \x7b return \"A\"; \x7d class n() \x7b return \"n\"; \x7d \x7d"
        ++ "class B < A \x7b \x7d class C < B \x7b \x7d"
        ++ "var c = C(); print c.m(); print C.n();"
        ++ "c.m = 1; print c.m;")))).session.machine.sink.written
    = "A\nn\n1\n" := by
  decide +kernel

end LoxLang
