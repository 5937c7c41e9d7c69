import LoxLang.Proofs.Evaluation.Lineage
import LoxLang.Proofs.Evaluation.Returns

/-!
# Initializers

A closure counts as an initializer exactly if it is a method of that name from the body of a class
or trait, bound to an object (`Closure.Made.isInitializer_iff`). The frame that binds it holds the
object from its start on, and nothing else ever, so that each call of it yields the object; and a
call of a class yields the instance that it has made.
-/

namespace LoxLang

open Evaluation

/-- A method with the name of an initializer, declared for instances in the body of a class or
trait, in a frame that binds it to an object: it holds just that. -/
inductive Closure.Initializes (past : Step → Prop) (s : Scene) : Closure → Value → Prop
  | mk {method : Closure} {id : FrameId} {object : Value}
      (written : method.Written past s .instances) (named : method.name = some initializerName)
      (answers : object.Answers .instances) (holds : s.machine.frames.values id = #[object])
      (outer : s.machine.frames.outer? id = method.frame) :
      Initializes past s { method with frame := some id } object

/-- A call that is evaluated at a step has come to a callee and to arguments. -/
structure Step.ComesTo (step : Step) (callee : Expr) (arguments : List Expr) (line budget : Nat)
    (v : Value) (vs : List Value) (c : Chronicle) : Prop where
  moment : step.moment = .evaluating (.call callee arguments line)
  parts : ∃ c₁, Watch.evaluate budget callee ⟨step.scene, [step]⟩ = .ok v c₁ ∧
    Watch.values (Watch.evaluate budget) arguments c₁ = .ok vs c

/-- What is called yields its object: a method that was declared as an initializer the one that it
is bound to, and a class the one that it makes, to which its own initializer is bound. -/
structure Step.YieldsObject (step : Step) (past : List Step) (callee : Expr)
    (arguments : List Expr) (line budget : Nat) (v : Value) (vs : List Value) (c : Chronicle) :
    Prop where
  flagged : ∀ id f, v = .function id f → (f.isInitializer = true ↔
    ∃ object, f.Initializes (c.Past (· ∈ past)) c.scene object)
  function : ∀ id f object, v = .function id f →
    f.Initializes (c.Past (· ∈ past)) c.scene object → ∀ r m,
      evaluate (budget + 1) (.call callee arguments line) step.scene.machine = .ok r m → r = object
  classValue : ∀ type, v = .classValue type → ∀ r m,
    evaluate (budget + 1) (.call callee arguments line) step.scene.machine = .ok r m →
      r = .instanceOf c.scene.machine.objects.size type ∧
        c.scene.machine.objects.size < m.objects.size
  initializer : ∀ type f m through, v = .classValue type →
    v.Calls vs c.scene.machine f m through → f.isInitializer = true ∧ ∀ n line r m',
      callClosure n f vs line m = .ok r m' → r = .instanceOf c.scene.machine.objects.size type

section

variable {past : Step → Prop} {known : Site → Prop} {s : Scene}

/-! ## Closures -/

/-- A closure is an initializer exactly if it was declared as one and is bound to an object. -/
theorem Closure.Made.isInitializer_iff {f : Closure} (h : f.Made past s) (recorded : s.Recorded) :
    f.isInitializer = true ↔ ∃ object, f.Initializes past s object := by
  refine ⟨fun hinit => ?_, ?_⟩
  · cases h with
    | plain ordinary _ =>
      rw [ordinary] at hinit
      cases hinit
    | @bound kind method id receiver written answers record outer =>
      obtain ⟨rfl, named⟩ := written.isInitializer.mp hinit
      have holds := Array.toList_inj.mp (recorded.values id _ record)
      exact ⟨receiver, .mk written named answers holds outer⟩
  · rintro ⟨object, ⟨written, named, -, -, -⟩⟩
    exact written.isInitializer.mpr ⟨rfl, named⟩

theorem Closure.Initializes.isInitializer {f : Closure} {object : Value}
    (h : f.Initializes past s object) : f.isInitializer = true := by
  obtain ⟨written, named, -, -, -⟩ := h
  exact written.isInitializer.mpr ⟨rfl, named⟩

/-- An initializer yields what its frame holds. -/
theorem Closure.CallsOrderly.yields_object {f : Closure} {vs : List Value} {m m' : Machine}
    (h : f.CallsOrderly vs m) (hinit : f.isInitializer = true) {id : FrameId} {object : Value}
    (hframe : f.frame = some id) (holds : m.frames.values id = #[object]) {budget line : Nat}
    {r : Value} (hcall : callClosure budget f vs line m = .ok r m') : r = object := by
  obtain ⟨completion, yields⟩ := h.yields_of_ok hcall
  unfold Closure.Yields at yields
  rw [if_pos hinit] at yields
  obtain ⟨found, hfound, hvalue⟩ := yields
  rw [hframe, Option.some.injEq] at hfound
  subst hfound
  rw [holds] at hvalue
  exact (Option.some.inj hvalue).symm

/-! ## Classes -/

/-- A class yields an instance that was not there before. -/
theorem ensures_instantiate (call : Closure → List Value → Nat → Run Value) (type : Class)
    (vs : List Value) (line : Nat) (m : Machine) :
    Ensures (instantiate call type vs line) m
      (fun v _ => v = .instanceOf m.objects.size type) fun _ _ => True := by
  have hnew : Ensures Run.newObject m (fun id _ => id = m.objects.size) fun _ _ => True := rfl
  refine hnew.bind ?_
  rintro _ m₁ rfl
  split
  · exact ensures_last (fun f => ensures_last fun _ _ => (ensures_pure _).mpr rfl) m₁
  · exact rfl

theorem ensures_callClass (call : Closure → List Value → Nat → Run Value) (type : Class)
    (vs : List Value) (line : Nat) (m : Machine) :
    Ensures (callValue call (.classValue type) vs line) m
      (fun v _ => v = .instanceOf m.objects.size type) fun _ _ => True := by
  refine Ensures.bind (Ensures.mono (inert_checkArity type.arity vs line) (fun _ _ h => h)
    fun _ _ _ => trivial) ?_
  rintro - _ ⟨rfl, -⟩
  exact ensures_instantiate call type vs line _

/-! ## Calls -/

variable {step : Step} {callee : Expr} {arguments : List Expr} {line budget : Nat} {v : Value}
  {vs : List Value} {c : Chronicle} {past : List Step}

theorem Step.ComesTo.runs (h : step.ComesTo callee arguments line budget v vs c) :
    ∃ m, evaluate budget callee step.scene.machine = .ok v m ∧
      values (evaluate budget) arguments m = .ok vs c.scene.machine := by
  obtain ⟨c₁, hcallee, hvalues⟩ := h.parts
  have herased := Watch.erases_evaluate budget callee ⟨step.scene, [step]⟩
  have herased' := Watch.erases_values (Watch.erases_evaluate budget) arguments c₁
  rw [hcallee] at herased
  rw [hvalues] at herased'
  exact ⟨c₁.scene.machine, herased.symm, herased'.symm⟩

/-- A function is called with the right number of arguments only. -/
theorem arity_of_callValue {call : Closure → List Value → Nat → Run Value} {id : Identity}
    {f : Closure} {m m' : Machine} {r : Value}
    (h : callValue call (.function id f) vs line m = .ok r m') : f.function.arity = vs.length := by
  refine Decidable.byContradiction fun hne => ?_
  have hcheck : checkArity f.function.arity vs line = Run.fail line _ := if_neg hne
  simp only [callValue, hcheck] at h
  cases h

/-- What is called, and the arguments, are sound and were made. -/
theorem Step.ComesTo.made (h : step.ComesTo callee arguments line budget v vs c)
    (good : step.Good known) (made : step.scene.Made (· ∈ past)) :
    c.Made (· ∈ past) ∧ c.Sound known ∧
      (v.Made (c.Past (· ∈ past)) c.scene ∧ v.Sound known c.scene) ∧
      ∀ w ∈ vs, w.Made (c.Past (· ∈ past)) c.scene ∧ w.Sound known c.scene := by
  obtain ⟨p, moment, ready⟩ := good.ready
  have hmoment := h.moment
  obtain ⟨c₁, hcallee, hvalues⟩ := h.parts
  obtain ⟨⟨calleeFormed, argumentsFormed⟩, sites⟩ := moment.code _ hmoment
  obtain ⟨first, others⟩ := known_of_append (known_of_cons sites).2
  have ready' : Chronicle.Ready known p ⟨step.scene, [step]⟩ :=
    ready.mark moment (by rw [hmoment]; rfl)
  have made' : Chronicle.Made (· ∈ past) ⟨step.scene, [step]⟩ := made.chronicle.marked step.moment
  have making := makingAt known (· ∈ past) budget
  have steady := steadyAt known budget
  -- The callee and the arguments are watched twice, for what is sound and for what has been made.
  obtain ⟨⟨made₁, -⟩, hv⟩ :=
    (making.evaluate callee p _ made' ready' calleeFormed first).of_ok hcallee
  obtain ⟨sound₁, later₁, hvsound⟩ :=
    (steady.evaluate callee p _ ready' calleeFormed first).of_ok hcallee
  have ready₁ := ready'.later sound₁ later₁
  obtain ⟨⟨made₂, onward₂⟩, hvs⟩ :=
    (making.values arguments made₁ ready₁ argumentsFormed others).of_ok hvalues
  obtain ⟨sound₂, later₂, hvssound⟩ :=
    (steady.values arguments ready₁ argumentsFormed others).of_ok hvalues
  exact ⟨made₂, sound₂, ⟨hv.onward onward₂, hvsound.keeps later₂.toKeeps⟩,
    fun w hw => ⟨hvs w hw, hvssound w hw⟩⟩

/-- Calls yield objects. -/
theorem Step.Good.yieldsObject (good : step.Good known) (made : step.scene.Made (· ∈ past))
    (h : step.ComesTo callee arguments line budget v vs c) :
    step.YieldsObject past callee arguments line budget v vs c := by
  obtain ⟨m₁, hcallee, hvalues⟩ := h.runs
  obtain ⟨made', sound, ⟨hv, hvsound⟩, hvs⟩ := h.made good made
  have heval : evaluate (budget + 1) (.call callee arguments line) step.scene.machine =
      callValue (callClosure budget) v vs line c.scene.machine := by
    simp only [evaluate, bind, EStateM.bind, hcallee, hvalues]
  have horderly := good.callsOrderly callee arguments line h.moment budget v vs m₁ _ hcallee hvalues
  -- What is an initializer, what one yields when it is called itself, what a class yields, and what
  -- the initializer yields that the class calls.
  refine ⟨?_, ?_, ?_, ?_⟩
  · rintro id f rfl
    exact Closure.Made.isInitializer_iff hv sound.scene.recorded
  · rintro identity f object rfl hinit r m hresult
    have harity := arity_of_callValue (heval ▸ hresult)
    obtain ⟨hcall, orderly⟩ := horderly f _ _ (.function harity)
    rw [hcall, id_map] at hresult
    have hflag := hinit.isInitializer
    obtain ⟨-, -, -, holds, -⟩ := hinit
    exact orderly.yields_object hflag rfl holds hresult
  · rintro type rfl r m hresult
    rw [heval] at hresult
    have hr : r = .instanceOf c.scene.machine.objects.size type :=
      (ensures_callClass _ type vs line _).of_ok hresult
    have making := (makingAt known (· ∈ past) budget).callValue line made' sound hvsound hv
      (fun w hw => (hvs w hw).2) fun w hw => (hvs w hw).1
    obtain ⟨c', hwatch, rfl⟩ := (Watch.erases_callValue (Watch.erasesAt budget).callClosure
      (.classValue type) vs line).exists_ok hresult
    have hmade := (making.of_ok hwatch).2
    rw [hr] at hmade
    exact ⟨hr, hmade.2⟩
  · rintro type f m through rfl hcalls
    obtain ⟨-, orderly⟩ := horderly f m through hcalls
    cases hcalls with
    | @initializer _ method _ object m₁ _ found arity created bound =>
      obtain ⟨rfl, -⟩ := EStateM.Result.ok.inj created
      rw [bind_eq] at bound
      obtain ⟨rfl, rfl⟩ := EStateM.Result.ok.inj bound
      obtain ⟨named, written⟩ := Class.Made.findMethod hv found
      have hflag : method.isInitializer = true := written.isInitializer.mpr ⟨rfl, named⟩
      refine ⟨hflag, fun n line' r m' hcall => ?_⟩
      exact orderly.yields_object hflag rfl
        (Array.toList_inj.mp (m₁.frames.values_framed_next _ _)) hcall

end

end LoxLang
