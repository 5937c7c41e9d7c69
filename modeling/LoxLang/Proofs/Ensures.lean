/-!
# What a computation ensures

Rules of the grammar and pieces of a run are computations that change a state and may stop
with an error, which leaves the state as it then is. `Ensures` says what holds at the end of
one, of its result in one case and of its error in the other. A computation made of parts is
taken apart by `ensures_bind`, so that facts about the parts add up to one about the whole.
-/

namespace LoxLang

variable {ε σ α β : Type}

/-- Started in `s`, a computation ends with a result and a state that satisfy `result`, or
stops with an error and a state that satisfy `error`. -/
def Ensures (x : EStateM ε σ α) (s : σ) (result : α → σ → Prop) (error : ε → σ → Prop) :
    Prop :=
  match x s with
  | .ok a s' => result a s'
  | .error e s' => error e s'

section

variable {x : EStateM ε σ α} {s : σ} {Q : α → σ → Prop} {E : ε → σ → Prop}

/-- Behind a result the second of two computations goes on. -/
theorem bind_of_ok {f : α → EStateM ε σ β} {a : α} {s' : σ} (h : x s = .ok a s') :
    (x >>= f) s = f a s' := by
  show EStateM.bind x f s = _
  unfold EStateM.bind
  rw [h]

/-- Behind an error it does not. -/
theorem bind_of_error {f : α → EStateM ε σ β} {e : ε} {s' : σ} (h : x s = .error e s') :
    (x >>= f) s = .error e s' := by
  show EStateM.bind x f s = _
  unfold EStateM.bind
  rw [h]

@[simp] theorem ensures_pure (a : α) : Ensures (pure a) s Q E ↔ Q a s := Iff.rfl

@[simp] theorem ensures_throw (e : ε) :
    Ensures (throw e : EStateM ε σ α) s Q E ↔ E e s := Iff.rfl

/-- What holds after two computations in a row is what holds after the second, started where
the first one ends. -/
@[simp] theorem ensures_bind {f : α → EStateM ε σ β} {Q : β → σ → Prop} :
    Ensures (x >>= f) s Q E ↔ Ensures x s (fun a s' => Ensures (f a) s' Q E) E := by
  unfold Ensures
  show (match EStateM.bind x f s with
      | .ok a s' => Q a s'
      | .error e s' => E e s') ↔ _
  unfold EStateM.bind
  cases x s <;> exact Iff.rfl

@[simp] theorem ensures_map {f : α → β} {Q : β → σ → Prop} :
    Ensures (f <$> x) s Q E ↔ Ensures x s (fun a s' => Q (f a) s') E := by
  unfold Ensures
  show (match EStateM.map f x s with
      | .ok a s' => Q a s'
      | .error e s' => E e s') ↔ _
  unfold EStateM.map
  cases x s <;> exact Iff.rfl

theorem Ensures.mono {Q' : α → σ → Prop} {E' : ε → σ → Prop} (h : Ensures x s Q E)
    (result : ∀ a s', Q a s' → Q' a s') (error : ∀ e s', E e s' → E' e s') :
    Ensures x s Q' E' := by
  unfold Ensures at h ⊢
  cases hx : x s with
  | ok a s' => rw [hx] at h; exact result a s' h
  | error e s' => rw [hx] at h; exact error e s' h

/-- Facts about the same computation hold together. -/
theorem Ensures.and {Q' : α → σ → Prop} {E' : ε → σ → Prop} (h : Ensures x s Q E)
    (h' : Ensures x s Q' E') :
    Ensures x s (fun a s' => Q a s' ∧ Q' a s') (fun e s' => E e s' ∧ E' e s') := by
  unfold Ensures at h h' ⊢
  cases hx : x s with
  | ok a s' => rw [hx] at h h'; exact ⟨h, h'⟩
  | error e s' => rw [hx] at h h'; exact ⟨h, h'⟩

/-- What holds after the first of two computations may be used for the second. -/
theorem Ensures.bind {f : α → EStateM ε σ β} {R : β → σ → Prop} (first : Ensures x s Q E)
    (second : ∀ a s', Q a s' → Ensures (f a) s' R E) : Ensures (x >>= f) s R E :=
  ensures_bind.mpr (first.mono second fun _ _ h => h)

theorem ensures_trivial (x : EStateM ε σ α) (s : σ) :
    Ensures x s (fun _ _ => True) fun _ _ => True := by
  unfold Ensures
  split <;> trivial

/-- What a computation comes to is what holds after it. -/
theorem Ensures.outcome (h : Ensures x s Q E) :
    Ensures x s (fun a s' => Q a s' ∧ x s = .ok a s') E := by
  unfold Ensures at h ⊢
  cases hx : x s with
  | ok a s' =>
    rw [hx] at h
    exact ⟨h, rfl⟩
  | error e s' =>
    rw [hx] at h
    exact h

/-- What comes last decides. -/
theorem ensures_last {f : α → EStateM ε σ β} {R : β → σ → Prop}
    (h : ∀ a s, Ensures (f a) s R fun _ _ => True) (s : σ) :
    Ensures (x >>= f) s R fun _ _ => True :=
  (ensures_trivial x s).bind fun a s' _ => h a s'

theorem Ensures.of_ok {a : α} {s' : σ} (h : Ensures x s Q E) (hx : x s = .ok a s') :
    Q a s' := by
  unfold Ensures at h
  rwa [hx] at h

theorem Ensures.of_error {e : ε} {s' : σ} (h : Ensures x s Q E) (hx : x s = .error e s') :
    E e s' := by
  unfold Ensures at h
  rwa [hx] at h

end

end LoxLang
