import LoxLang.Proofs.Evaluation.Completions
import LoxLang.Proofs.Evaluation.Steps

/-!
# What calls yield

The body of a closure is an execution in a frame of its own (`Closure.bodyOf`), and how that
completes decides what the call yields (`Closure.Yields`). In a run of accepted programs the bodies
of all closures that are called are orderly, and an initializer yields the object that its frame
holds at the start of the call (`Step.Good.callsOrderly`).
-/

namespace LoxLang

open Evaluation

/-! ## Bodies -/

/-- The execution of the body of a closure, from the machine of the call. -/
def Closure.bodyOf (f : Closure) (budget : Nat) (arguments : List Value) (m : Machine) :
    Execution :=
  ⟨budget, f.function.body,
    { m with frames := m.frames.framed f.frame arguments, current := some m.frames.next }⟩

/-- What a call yields after a completion of the body: an initializer the object that its frame
holds, another function what is returned, or `nil` at the end of its body. -/
def Closure.Yields (f : Closure) (m : Machine) (completion : Completion) (v : Value) : Prop :=
  if f.isInitializer then ∃ id, f.frame = some id ∧ (m.frames.values id)[0]? = some v
  else
    match completion with
    | .normal => v = .nil
    | .returned value => v = value
    | .broke => False

/-- A call whose body is orderly, and which yields what it should whenever the body completes. -/
structure Closure.CallsOrderly (f : Closure) (arguments : List Value) (m : Machine) : Prop where
  body : ∀ budget, (f.bodyOf budget arguments m).Orderly
  yields : ∀ budget line completion m', (f.bodyOf budget arguments m).result = .ok completion m' →
    ∃ v, f.Yields m completion v ∧
      callClosure (budget + 1) f arguments line m = .ok v { m' with current := m.current }

/-- The closure that the call of a value runs, the machine from which, and what becomes of the
value that this yields: a function is called for its value, and the initializer of a class, bound
to the new instance, for that instance. -/
inductive Value.Calls (arguments : List Value) (m : Machine) :
    Value → Closure → Machine → (Value → Value) → Prop
  | function {identity : Identity} {f : Closure} (arity : f.function.arity = arguments.length) :
      Calls arguments m (.function identity f) f m id
  | initializer {type : Class} {method f : Closure} {object : ObjectId} {m₁ m₂ : Machine}
      (found : type.findMethod? initializerName = some method)
      (arity : method.function.arity = arguments.length)
      (created : Run.newObject m = .ok object m₁)
      (bound : method.bind (.instanceOf object type) m₁ = .ok f m₂) :
      Calls arguments m (.classValue type) f m₂ fun _ => .instanceOf object type

/-- If a call is evaluated at a step, it comes to what the call of the closure yields, which is
orderly. -/
def Step.CallsOrderly (step : Step) : Prop :=
  ∀ callee arguments line, step.moment = .evaluating (.call callee arguments line) →
    ∀ budget v vs m₁ m₂, evaluate budget callee step.scene.machine = .ok v m₁ →
      values (evaluate budget) arguments m₁ = .ok vs m₂ →
        ∀ f m through, v.Calls vs m₂ f m through →
          evaluate (budget + 1) (.call callee arguments line) step.scene.machine =
              (through <$> callClosure budget f vs line) m ∧
            f.CallsOrderly vs m

section

variable {f : Closure} {arguments : List Value} {m m' : Machine} {budget line : Nat}
  {completion : Completion}

theorem body_eq : (callFrame f arguments >>= fun frame =>
      Run.within frame (inOrder (execute budget) f.function.body)) m =
    Run.putBack m.current (f.bodyOf budget arguments m).result := by
  show EStateM.bind _ _ _ = _
  unfold EStateM.bind
  rw [callFrame_eq]
  rfl

theorem callClosure_eq : callClosure (budget + 1) f arguments line m =
    match (f.bodyOf budget arguments m).result with
    | .ok completion m' => callResult f line completion { m' with current := m.current }
    | .error stop m' => .error stop { m' with current := m.current } := by
  unfold callClosure
  rw [← bind_assoc]
  show EStateM.bind _ _ _ = _
  unfold EStateM.bind
  rw [body_eq]
  cases (f.bodyOf budget arguments m).result <;> rfl

/-- A call that comes to a value yields what it should. -/
theorem Closure.CallsOrderly.yields_of_ok (h : f.CallsOrderly arguments m) {v : Value}
    (hcall : callClosure budget f arguments line m = .ok v m') :
    ∃ completion, f.Yields m completion v := by
  cases budget with
  | zero => cases hcall
  | succ budget =>
    cases hresult : (f.bodyOf budget arguments m).result with
    | ok completion m₁ =>
      obtain ⟨w, yields, hw⟩ := h.yields budget line completion m₁ hresult
      cases hcall.symm.trans hw
      exact ⟨completion, yields⟩
    | error stop m₁ =>
      rw [callClosure_eq, hresult] at hcall
      cases hcall

/-- A call of a value comes to what the call of its closure yields. -/
theorem callValue_of_calls {callee : Value} {f : Closure} {through : Value → Value}
    (h : callee.Calls arguments m f m' through) :
    callValue (callClosure budget) callee arguments line m =
      (through <$> callClosure budget f arguments line) m' := by
  cases h with
  | function arity =>
    have hcheck : checkArity f.function.arity arguments line = pure () := if_pos arity
    simp only [callValue, hcheck, pure_bind, id_map]
  | @initializer type method _ object m₁ _ found arity created bound =>
    have harity : type.arity = arguments.length := by
      unfold Class.arity
      rwa [found]
    have hcheck : checkArity type.arity arguments line = pure () := if_pos harity
    simp only [callValue, hcheck, instantiate, found, map_eq_pure_bind, pure_bind]
    simp only [bind, EStateM.bind, created, bound]

end

/-! ## Sound closures -/

variable {known : Site → Prop} {c : Chronicle}

/-- The object of an initializer. -/
theorem Closure.Sound.receiver {s : Scene} {f : Closure} (hf : f.Sound known s)
    (hinit : f.isInitializer = true) :
    ∃ id r v, f.frame = some id ∧ s.records[id]? = some r ∧ r.region.Implicit ∧
      r.values[0]? = some v := by
  obtain ⟨p, hmatches, -, -, -, hreceiver⟩ := hf
  obtain ⟨outer, rfl⟩ := hreceiver hinit
  cases hframe : f.frame with
  | none =>
    rw [hframe] at hmatches
    exact hmatches.elim
  | some id =>
    rw [hframe] at hmatches
    obtain ⟨⟨r, hr, hregion, hnames⟩, -⟩ := hmatches
    have hslot : 0 < r.values.length := by
      have hlength := hnames.length_le
      rw [Record.names, List.length_map] at hlength
      rw [Record.values, List.length_map]
      exact hlength
    exact ⟨id, r, _, rfl, hr, hregion ▸ trivial, List.getElem?_eq_getElem hslot⟩

theorem values_of_record {s : Scene} (recorded : s.Recorded) {id : FrameId} {r : Record}
    (hr : s.records[id]? = some r) (slot : Nat) :
    (s.machine.frames.values id)[slot]? = r.values[slot]? := by
  rw [← recorded.values id r hr, Array.getElem?_toList]

theorem slotValue_here {frame : FrameId} {slot line : Nat} {m : Machine} {v : Value}
    (h : (m.frames.values frame)[slot]? = some v) : slotValue frame 0 slot line m = .ok v m := by
  have hslot := (Array.getElem?_eq_some_iff.mp h).1
  have hholder : m.frames.holder frame 0 slot = .ok frame :=
    (Frames.holder_eq_ok m.frames).mpr ⟨rfl, hslot⟩
  unfold slotValue
  rw [Frames.get_eq_ok m.frames hholder, Array.getD_eq_getD_getElem?, h]
  rfl

/-- The calls of a sound closure are orderly. -/
theorem Closure.Sound.callsOrderly {f : Closure} {arguments : List Value} (sound : c.Sound known)
    (hf : f.Sound known c.scene) (harguments : ∀ v ∈ arguments, v.Sound known c.scene)
    (arity : f.function.arity = arguments.length) :
    f.CallsOrderly arguments c.scene.machine where
  body budget := by
    obtain ⟨-, -, -, code, -⟩ := hf
    exact Execution.orderly code.unbroken
  yields budget line completion m' hresult := by
    rw [callClosure_eq, hresult]
    have hbody := (steadyAt known budget).entered (hf.enters sound harguments arity)
    have herases := (Watch.erases_framing (Watch.callRecord f.function arguments)
      (callFrame f arguments)).bind fun frame =>
        (Watch.erases_inOrder (Watch.erasesAt budget).execute f.function.body).within frame
    have hrun := @body_eq f arguments c.scene.machine budget
    rw [hresult] at hrun
    obtain ⟨c', hmachine, sound', later, -⟩ := hbody.exists_ok herases hrun
    unfold Closure.Yields callResult
    cases hinit : f.isInitializer with
    | true =>
      -- The frame of `this` is implicit: whatever the body does, it holds the same object behind
      -- it.
      obtain ⟨id, r, v, hframe, hr, himplicit, hv⟩ := hf.receiver hinit
      have hr' := later.implicit id r hr himplicit
      have hthen : (c'.scene.machine.frames.values id)[0]? = some v :=
        (values_of_record sound'.scene.recorded hr' 0).trans hv
      rw [hmachine] at hthen
      refine ⟨v, ⟨id, hframe, (values_of_record sound.scene.recorded hr 0).trans hv⟩, ?_⟩
      rw [hframe]
      exact slotValue_here hthen
    | false =>
      cases completion with
      | normal => exact ⟨.nil, rfl, rfl⟩
      | returned v => exact ⟨v, rfl, rfl⟩
      | broke =>
        obtain ⟨-, -, -, code, -⟩ := hf
        exact absurd hresult ((Execution.orderly code.unbroken).unbroken m')

/-- At a good step the closure that is called is called in an orderly way. -/
theorem Step.Good.callsOrderly {step : Step} (h : step.Good known) : step.CallsOrderly := by
  intro callee arguments line hmoment budget v vs m₁ m₂ hcallee hvalues f m through hcalls
  have hcall : evaluate (budget + 1) (.call callee arguments line) step.scene.machine =
      (through <$> callClosure budget f vs line) m := by
    rw [← callValue_of_calls hcalls]
    simp only [evaluate, bind, EStateM.bind, hcallee, hvalues]
  refine ⟨hcall, ?_⟩
  obtain ⟨p, moment, ready⟩ := h.ready
  obtain ⟨⟨calleeFormed, argumentsFormed⟩, sites⟩ := moment.code _ hmoment
  obtain ⟨first, others⟩ := known_of_append (known_of_cons sites).2
  have hsteady := steadyAt known budget
  obtain ⟨c₁, rfl, sound₁, later₁, hv⟩ :=
    (hsteady.evaluate callee p _ ready calleeFormed first).exists_ok
      (Watch.erases_evaluate budget callee) hcallee
  obtain ⟨c₂, rfl, sound₂, later₂, hvs⟩ :=
    (hsteady.values arguments (ready.later sound₁ later₁) argumentsFormed others).exists_ok
      (Watch.erases_values (Watch.erases_evaluate budget) arguments) hvalues
  have hcalled := hv.keeps later₂.toKeeps
  -- A class is called by way of its initializer, bound to an object that is created for it.
  cases hcalls with
  | function arity => exact Closure.Sound.callsOrderly sound₂ hcalled hvs arity
  | @initializer type method _ object m₃ _ found arity created bound =>
    obtain ⟨c₃, rfl, sound₃, later₃, -⟩ :=
      (steady_quietly sound₂ quiet_newObject).exists_ok (Watch.erases_quietly _) created
    have htype : Class.Sound known c₃.scene type := Class.Sound.keeps hcalled later₃.toKeeps
    have hobject : (Value.instanceOf object type).Sound known c₃.scene := htype
    obtain ⟨c₄, rfl, sound₄, later₄, hfunction, hf⟩ :=
      (steady_bind sound₃ (htype.findMethod found) hobject).exists_ok (Watch.erases_framing _ _)
        bound
    refine hf.callsOrderly sound₄ (fun w hw => ?_) (by rw [hfunction, arity])
    exact (hvs w hw).keeps (later₃.trans later₄).toKeeps

end LoxLang
