import LoxLang.Proofs.Session.Slots

/-!
# Unbound slots

Resolution counts a variable from the start of its declaration on, and a run puts its value into
the frame only at the end. Resolution notes a name that is read directly in its own initializer,
but not one that is assigned there, read in a function that the initializer calls, or read in
the head of the class or trait that is declared. A run that comes to such an occurrence before
the declaration is completed stops at an unbound slot, and this is the only way to one.
-/

namespace LoxLang

/-- The unbound slot that a run has stopped at. -/
def unboundSlot? {α : Type} : Except (List Diagnostic) α → Option Nat
  | .error [.stopped (.failed _ (.frame (.unbound slot)))] => some slot
  | _ => none

theorem unboundSlot?_eq_some {α : Type} {result : Except (List Diagnostic) α} {slot : Nat} :
    unboundSlot? result = some slot ↔
      ∃ line, result = .error [.stopped (.failed line (.frame (.unbound slot)))] := by
  refine ⟨fun h => ?_, ?_⟩
  · unfold unboundSlot? at h
    split at h
    · next line found =>
      cases h
      exact ⟨line, rfl⟩
    · cases h
  · rintro ⟨line, rfl⟩
    rfl

/-! ## Names within their own declarations -/

/-- At this step a name is looked up within its own declaration, and the frame of the scope that
declares it holds just the variables before it. -/
def Step.Premature (step : Step) (p : Position) (slot : Nat) : Prop :=
  ∃ ref depth layer frame r, step.moment.reference? = some ref ∧
    p.lookup? ref.name.text = some ⟨depth, slot⟩ ∧ p[depth]? = some layer ∧
    layer.pending = some ref.name.text ∧ slot = layer.declared.length ∧
    step.scene.frame? depth = some frame ∧ step.scene.Holds frame layer r ∧
    r.names = layer.declared

/-- What has been declared before a position and what has been begun differ by what is under
way. -/
theorem Layer.pending_of_begun {layer : Layer} {slot : Nat} {name : String}
    (hname : layer.begun[slot]? = some name) (hslot : layer.declared.length ≤ slot) :
    slot = layer.declared.length ∧ layer.pending = some name := by
  unfold begun at hname
  rw [List.getElem?_append_right hslot] at hname
  cases hpending : layer.pending with
  | none => simp [hpending] at hname
  | some other =>
    rw [hpending, Option.toList_some, List.getElem?_singleton] at hname
    split at hname
    · next hzero =>
      cases hname
      exact ⟨by omega, rfl⟩
    · cases hname

/-- A variable that is missing is looked up within its own declaration. -/
theorem Step.Good.premature {known : Site → Prop} {step : Step} (h : step.Good known) {slot : Nat}
    (missing : step.Missing slot) :
    ∃ p, known ⟨p, step.moment⟩ ∧ step.Premature p slot := by
  obtain ⟨p, ⟨site, -⟩, -, here, sound⟩ := h
  obtain ⟨ref, b, id, href, hb, hid, hfault⟩ := missing
  rw [sound.agreed _ site ref href] at hb
  obtain ⟨⟨layer, hlayer, hname⟩, -⟩ := Position.lookup?_eq_some hb
  have hreached := here.reached
  rw [hid] at hreached
  obtain ⟨frame, r, hframe, hholds⟩ := hreached.holds sound.recorded hlayer
  obtain ⟨hsize, hslot⟩ := (Frames.holder_eq_error _ hframe).mp hfault
  cases hslot
  rw [sound.recorded.length_names hholds.record] at hsize
  have hlength := hholds.declared.length_le
  obtain ⟨hlast, hpending⟩ := Layer.pending_of_begun hname (Nat.le_trans hlength hsize)
  have hnames : r.names = layer.declared :=
    (hholds.declared.eq_of_length_le (by omega)).symm
  exact ⟨p, site, ref, b.depth, layer, frame, r, href, hb, hlayer, hpending, hlast,
    (Scene.frame?_eq hid _).trans hframe, hholds, hnames⟩

/-- A variable that is looked up within its own declaration is missing. -/
theorem Step.Premature.missing {known : Site → Prop} {step : Step} {p : Position} {slot : Nat}
    (h : step.Premature p slot) (site : known ⟨p, step.moment⟩)
    (sound : step.scene.Sound known) : step.Missing slot := by
  obtain ⟨ref, depth, layer, frame, r, href, hlookup, -, -, hslot, hframe, hholds, hnames⟩ := h
  cases hid : step.scene.machine.current with
  | none =>
    unfold Scene.frame? at hframe
    rw [hid] at hframe
    cases hframe
  | some id =>
    rw [Scene.frame?_eq hid] at hframe
    have hbound := (sound.agreed _ site ref href).trans hlookup
    refine ⟨ref, _, id, href, hbound, hid, (Frames.holder_eq_error _ hframe).mpr ⟨?_, rfl⟩⟩
    have hsize := sound.recorded.length_names hholds.record
    rw [hnames, ← hslot] at hsize
    exact Nat.le_of_eq hsize

/-! ## Runs that stop at an unbound slot -/

theorem Step.Missing.unique {step : Step} {slot slot' : Nat} (h : step.Missing slot)
    (h' : step.Missing slot') : slot = slot' := by
  obtain ⟨ref, b, id, href, hb, hid, hfault⟩ := h
  obtain ⟨ref', b', id', href', hb', hid', hfault'⟩ := h'
  rw [href, Option.some.injEq] at href'
  subst href'
  rw [hb, Option.some.injEq] at hb'
  rw [hid, Option.some.injEq] at hid'
  subst hb'
  subst hid'
  rw [hfault] at hfault'
  cases hfault'
  rfl

/-- A run stops at an unbound slot exactly if that is missing at its last step. -/
theorem Watched.Ending.unbound_iff {α : Type} {w : Watched α} (h : w.Ending) (slot : Nat) :
    unboundSlot? w.result = some slot ↔ ∃ step ∈ w.steps.head?, step.Missing slot := by
  cases h with
  | elsewhere found cause =>
    refine ⟨fun hslot => ?_, ?_⟩
    · obtain ⟨line, hresult⟩ := unboundSlot?_eq_some.mp hslot
      exact absurd rfl (FailureCause.ne_frame_of_ordinary
        (cause line _ ⟨_, hresult, List.mem_singleton_self _⟩) _)
    · rintro ⟨step, hstep, missing⟩
      exact absurd missing (found step (List.mem_of_mem_head? hstep) slot)
  | @missing step earlier line last steps found missing result =>
    have hlast : unboundSlot? w.result = some last := unboundSlot?_eq_some.mpr ⟨line, result⟩
    rw [hlast, steps]
    refine ⟨?_, ?_⟩
    · rintro ⟨⟩
      exact ⟨step, rfl, missing⟩
    · rintro ⟨_, ⟨⟩, missing'⟩
      rw [missing.unique missing']

/-- In a session a run stops at an unbound slot exactly if its last step looks up a name within
the declaration of that name, in one of the trees accepted so far, while the frame does not have
the variable yet. -/
theorem unbound_slot_iff_premature (host : Host) (sink : Sink) (events : List Event) (budget : Nat)
    (input : Input) :
    let s := (Session.start host sink).through events
    let w := ((Account.start host sink).through events).take budget input
    w.outcome = s.take budget input ∧
      ∀ slot, unboundSlot? (s.take budget input).result = some slot ↔
        ∃ step ∈ w.steps.head?, ∃ program ∈ w.account.accepted, ∃ p,
          ⟨p, step.moment⟩ ∈ sitesInBody [] program ∧ step.Premature p slot := by
  intro s w
  have houtcome : w.outcome = s.take budget input :=
    Account.outcome_through host sink events budget input
  have hsound : w.Sound := (Account.sound_through host sink events).take budget input
  refine ⟨houtcome, fun slot => ?_⟩
  have hresult : (s.take budget input).result = w.result := by
    rw [← houtcome]
    rfl
  rw [hresult, hsound.ending.unbound_iff slot]
  refine ⟨?_, ?_⟩
  · rintro ⟨step, hstep, missing⟩
    have good := hsound.steps step (List.mem_of_mem_head? hstep)
    obtain ⟨p, ⟨program, hprogram, site⟩, premature⟩ := good.premature missing
    exact ⟨step, hstep, program, hprogram, p, site, premature⟩
  · rintro ⟨step, hstep, program, hprogram, p, site, premature⟩
    obtain ⟨-, -, -, -, sound⟩ := hsound.steps step (List.mem_of_mem_head? hstep)
    exact ⟨step, hstep, premature.missing ⟨program, hprogram, site⟩ sound⟩

/-- A program that resolves, and stops where the initializer of a variable calls a function that
reads the variable. -/
theorem unbound_slot_of_call_in_initializer :
    unboundSlot? ((Session.start .plain (.working "")).take 30 (.source (Utf8.encode
      "\x7b var a = fun() \x7b return a; \x7d(); print a; \x7d"))).result = some 0 := by
  decide +kernel

end LoxLang
