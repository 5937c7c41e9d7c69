import LoxLang.Proofs.Scoping.Nesting
import LoxLang.Proofs.Session.Lineage

/-!
# `super` in a session

What `super` finds was settled when the class around it was declared: the class that the head of
the declaration came to then. Neither the class of the object nor what the variables of the head
hold by now matters. The method that is found is bound to the object of the method around.
-/

namespace LoxLang

theorem evaluate_super (budget : Nat) {id : RefId} {line : Nat} {name : Name} {m : Machine}
    {object : Value} {found : Option Closure}
    (target : superTarget id line name m = .ok (object, found) m) :
    evaluate (budget + 1) (.super id line name) m = boundResult found object name m := by
  rw [← bindFound_eq]
  simp only [evaluate, superMethod, bind, EStateM.bind, target]

/-- What a step finds that evaluates a `super`. The declaration `d` of a class, which is past, came
to the superclass `k` in its head. The `super` is a part of the method `g` of that class, which was
called for an object. Whatever the `super` asks for is looked up from `k` on, among the methods for
objects of this kind, and bound to this object. -/
structure Step.FindsSuper (step : Step) (past : List Step) (id : RefId) (line : Nat) (name : Name)
    (d : ClassDeclaration) (k : Class) (kind : Kind) (g : NamedFunction) (object : Value) :
    Prop where
  declared : d.step ∈ past
  succeeds : d.Succeeds
  head : ∃ ref, d.superclass = some ref ∧ d.extended = some k ∧
    Run.lookUp ref.id ref.name.text ref.name.line d.scene.machine =
      .ok (.classValue k) d.scene.machine
  mem : g ∈ d.methodsFor kind
  answers : object.Answers kind
  inside : ∃ p inner outer : Position,
    ⟨p, step.moment⟩ ∈ g.function.sites outer ∧
    step.scene.InMethod p g.function object d.scene.machine.frames.next k inner outer
  found : ∀ budget, evaluate (budget + 1) (.super id line name) step.scene.machine =
    boundResult (k.find? kind name.text) object name step.scene.machine

theorem Step.Good.findsSuper {a : Account} {step : Step} (good : step.Good a.Known)
    {past : List Step} (made : step.scene.Made (· ∈ past)) {id : RefId} {line : Nat} {name : Name}
    (hmoment : step.moment = .evaluating (.super id line name)) :
    ∃ d k kind g object, step.FindsSuper past id line name d k kind g object := by
  obtain ⟨p, site, formed, here, sound⟩ := good
  have hsite := site.site
  rw [hmoment] at hsite
  obtain ⟨d, g, k, kind, object, inner, outer, done, hextended, mem, answers, inMethod, htarget⟩ :=
    made.superTarget sound here formed hsite
  obtain ⟨ref, hsuperclass⟩ : ∃ ref, d.superclass = some ref := by
    have hderived := done.succeeds.derived
    rw [hextended, Option.isSome_some] at hderived
    exact Option.isSome_iff_exists.mp hderived.symm
  obtain ⟨program, -, hprogram⟩ := site.site
  obtain ⟨call, hp, hcall⟩ := inMethod.body
  exact ⟨d, k, kind, g, object,
    { declared := done.step
      succeeds := done.succeeds
      head := ⟨ref, hsuperclass, hextended, done.succeeds.extended ref k hsuperclass hextended⟩
      mem := mem
      answers := answers
      inside := ⟨p, inner, outer, enclosed_of_program hprogram hp hcall, inMethod⟩
      found := fun budget => evaluate_super budget htarget }⟩

/-- In a session a `super` finds what the class has that the head of the declaration around it came
to when that was executed, whatever the class of the object is and whatever has been assigned
since; and it fails exactly if that class has no such method. -/
theorem super_is_static (host : Host) (sink : Sink) (events : List Event) (budget : Nat)
    (input : Input) :
    let s := (Session.start host sink).through events
    let history := (Account.start host sink).history events
    let w := ((Account.start host sink).through events).take budget input
    w.outcome = s.take budget input ∧
      ∀ step earlier, step :: earlier <:+ w.steps → ∀ id line name,
        step.moment = .evaluating (.super id line name) →
          ∃ d k kind g object,
            step.FindsSuper (earlier ++ history) id line name d k kind g object := by
  intro s history w
  refine ⟨Account.outcome_through host sink events budget input, ?_⟩
  intro step earlier hsuffix id line name hmoment
  have hsound := (Account.sound_through host sink events).take budget input
  have good := hsound.steps step (hsuffix.subset List.mem_cons_self)
  have made := (Account.made_take_through host sink events budget input).step hsuffix
  exact good.findsSuper made hmoment

/-- The variable of the superclass is another class by the time of the call, and the object is of a
class further down. -/
example : ((Session.start .plain (.working "")).take 40 (.source (Utf8.encode
      ("class A \x7b m() \x7b print \"A\"; \x7d \x7d class B < A \x7b m() \x7b super.m(); \x7d \x7d"
        ++ "class C < B \x7b m() \x7b print \"C\"; \x7d n() \x7b super.m(); \x7d \x7d"
        ++ "A = C; C().n();")))).session.machine.sink.written = "A\n" := by
  decide +kernel

end LoxLang
