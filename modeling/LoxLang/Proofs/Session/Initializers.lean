import LoxLang.Proofs.Evaluation.Initializers
import LoxLang.Proofs.Session.Lineage

/-!
# Initializers in a session

In a session an initializer yields the object that it is bound to, whatever its body does, and a
class the instance that it has made. The frame that binds a method to its object holds that object
and nothing else as long as the session goes on.
-/

namespace LoxLang

/-- The frames that bind methods to objects hold one object each, and it is still there later. -/
def Scene.KeepsObjects (s s' : Scene) : Prop :=
  ∀ (id : FrameId) (r : Record), s.records[id]? = some r → r.region = .receiver →
    ∃ object, s.machine.frames.values id = #[object] ∧ s'.machine.frames.values id = #[object]

theorem Scene.Made.keepsObjects {past : Step → Prop} {s s' : Scene} (made : s'.Made past)
    (retains : s.Retains s') (recorded : s.Recorded) (recorded' : s'.Recorded) :
    s.KeepsObjects s' := by
  intro id r hr hregion
  have hr' := retains.implicit hr (hregion ▸ trivial)
  have placed := made.frames id r hr'
  unfold Scene.Placed at placed
  rw [hregion] at placed
  obtain ⟨kind, object, rfl, -⟩ := placed
  exact ⟨object, Array.toList_inj.mp (recorded.values id _ hr),
    Array.toList_inj.mp (recorded'.values id _ hr')⟩

/-- In a session, at every call that is evaluated, a method that was declared as an initializer in
the body of a class or trait yields the object that it is bound to, and a class the instance that
the call makes. A frame that binds a method to an object holds just this object at all later steps
and behind the run. -/
theorem initializers_yield_objects (host : Host) (sink : Sink) (events : List Event) (budget : Nat)
    (input : Input) :
    let s := (Session.start host sink).through events
    let history := (Account.start host sink).history events
    let w := ((Account.start host sink).through events).take budget input
    w.outcome = s.take budget input ∧
      (∀ step earlier, step :: earlier <:+ w.steps →
        (∀ callee arguments line n v vs c, step.ComesTo callee arguments line n v vs c →
          step.YieldsObject (earlier ++ history) callee arguments line n v vs c) ∧
        ∀ before ∈ earlier ++ history, before.scene.KeepsObjects step.scene) ∧
      ∀ before ∈ w.steps ++ history, before.scene.KeepsObjects w.account.scene := by
  intro s history w
  have hsound : w.Sound := (Account.sound_through host sink events).take budget input
  have hmade : w.Made (· ∈ history) := Account.made_take_through host sink events budget input
  -- Receivers are compared through the records of their frames, so both steps have to be recorded.
  have hrecorded : ∀ before ∈ w.steps ++ history, before.scene.Recorded := by
    intro before hbefore
    obtain ⟨known, good⟩ : ∃ known, before.Good known := by
      rcases List.mem_append.mp hbefore with hbefore | hbefore
      · exact ⟨_, hsound.steps before hbefore⟩
      · exact Account.good_of_history host sink events before hbefore
    obtain ⟨-, -, -, -, sound⟩ := good
    exact sound.recorded
  refine ⟨Account.outcome_through host sink events budget input, ?_, ?_⟩
  · intro step earlier hsuffix
    have made := hmade.step hsuffix
    refine ⟨?_, fun before hbefore => ?_⟩
    · intro callee arguments line n v vs c comesTo
      exact (hsound.steps step (hsuffix.subset List.mem_cons_self)).yieldsObject made comesTo
    · have hearlier : before ∈ w.steps ++ history := by
        refine List.mem_append.mpr ((List.mem_append.mp hbefore).imp_left fun h => ?_)
        exact hsuffix.subset (List.mem_cons_of_mem _ h)
      have hstep : step ∈ w.steps ++ history :=
        List.mem_append_left _ (hsuffix.subset List.mem_cons_self)
      exact made.keepsObjects (made.retained before hbefore) (hrecorded before hearlier)
        (hrecorded step hstep)
  · intro before hbefore
    exact hmade.behind.keepsObjects (hmade.behind.retained before hbefore)
      (hrecorded before hbefore) hsound.account.scene.recorded

/-- An initializer that is called again from its own body, and through a stored method. -/
example : ((Session.start .plain (.working "")).take 60 (.source (Utf8.encode
      ("class A \x7b init(n) \x7b this.n = n; if (n > 0) this.init(n - 1); return; \x7d \x7d"
        ++ "var a = A(2); var f = a.init;"
        ++ "print f(0) == a; print A(1) == a;")))).session.machine.sink.written
    = "true\nfalse\n" := by
  decide +kernel

end LoxLang
