import LoxLang.Proofs.Evaluation.Returns
import LoxLang.Proofs.Session.Invariant

/-!
# Completions in a session

Reading refuses a `break` outside of loops, and resolution a `return` outside of functions. So the
statements of a program that is run complete normally if at all, and at each call that is evaluated
the body of the function that is called is orderly: a `break` ends the nearest loop around it, and a
`return` ends the call, which yields the value or, for an initializer, the object.
-/

namespace LoxLang

/-- A statement that is meant for nothing around it completes normally. -/
theorem normal_of_contained {s : Stmt} (h : ¬s.Breaks ∧ ¬s.Returns) {budget : Nat} {m m' : Machine}
    {completion : Completion} (hrun : execute budget s m = .ok completion m') :
    completion = .normal := by
  have hfrom := ((completesAt budget).execute s m).of_ok hrun
  cases completion with
  | normal => rfl
  | broke => exact absurd hfrom h.1
  | returned v => exact absurd hfrom h.2

/-- In a session the statements of all programs accepted so far are orderly and complete normally,
if at all, and every call that is evaluated is orderly: its body does not end in a `break`, and the
call yields what the body returns, the object of an initializer, or `nil`. -/
theorem completions_orderly (host : Host) (sink : Sink) (events : List Event) (budget : Nat)
    (input : Input) :
    let s := (Session.start host sink).through events
    let w := ((Account.start host sink).through events).take budget input
    w.outcome = s.take budget input ∧
      (∀ program ∈ w.account.accepted, ∀ st ∈ program, ∀ n m,
        (⟨n, [st], m⟩ : Execution).Orderly ∧
          ∀ completion m', execute n st m = .ok completion m' → completion = .normal) ∧
      ∀ step ∈ w.steps, step.CallsOrderly := by
  intro s w
  have hsound : w.Sound := (Account.sound_through host sink events).take budget input
  refine ⟨Account.outcome_through host sink events budget input, ?_,
    fun step hstep => (hsound.steps step hstep).callsOrderly⟩
  intro program hprogram st hst n m
  have hcontained := hsound.account.contained program hprogram st hst
  refine ⟨Execution.orderly fun s hs => ?_, fun completion m' => normal_of_contained hcontained⟩
  rw [List.mem_singleton.mp hs]
  exact hcontained.1

/-- The `break` ends the inner loop only, and the `return` both the outer loop and the call. -/
example : ((Session.start .plain (.working "")).take 40 (.source (Utf8.encode
      ("fun f() \x7b while (true) \x7b while (true) \x7b \x7b break; \x7d \x7d return \"out\"; \x7d \x7d"
        ++ "print f();")))).session.machine.sink.written = "out\n" := by
  decide +kernel

end LoxLang
