import LoxLang.Proofs.Machine.Frames

/-!
# Frames that are shared

A frame is reached in many ways: as itself, and from all frames inside it. What may be asked of
frames are new ones, new variables and new values (`Request`), and a history of requests goes from
no frames to those there are (`History`). It names only frames that it was answered before. Behind
any history the frames are shared by all ways to reach them (`frames_are_shared`): a variable that
is assigned in one way is found to be so in every other one that leads to its slot, and in no more.
-/

namespace LoxLang

namespace Frames

/-! ## Requests -/

/-- What frames are asked for. -/
inductive Request
  | alloc (outer : Option FrameId)
  | define (frame : FrameId) (value : Value)
  | assign (frame : FrameId) (depth slot : Nat) (value : Value)

/-- What is answered: the name of a new frame, the slot of a new variable, that a variable has its
new value, or why there is no such variable. -/
inductive Answer
  | frame (id : FrameId)
  | slot (slot : Nat)
  | assigned
  | refused (fault : FrameFault)

namespace Request

/-- The frames that a request names. -/
def frames : Request → List FrameId
  | alloc outer => outer.toList
  | define frame _ => [frame]
  | assign frame _ _ _ => [frame]

/-- The answer to a request, and the frames behind it. -/
def run (fs : Frames) : Request → Answer × Frames
  | alloc outer => (.frame fs.next, fs.alloc outer)
  | define frame value => (.slot (fs.nextSlot frame), fs.define frame value)
  | assign frame depth slot value =>
    match fs.assign frame depth slot value with
    | .ok fs' => (.assigned, fs')
    | .error fault => (.refused fault, fs)

end Request

/-- Requests with their answers, the latest first. -/
abbrev Journal := List (Request × Answer)

/-- A frame that has been answered. -/
def Issued (past : Journal) (id : FrameId) : Prop :=
  ∃ outer, (Request.alloc outer, Answer.frame id) ∈ past

/-- What has been asked for since there were no frames, and the frames there are now. -/
inductive History : Journal → Frames → Prop
  | start : History [] Frames.empty
  | next {past : Journal} {fs : Frames} (before : History past fs) (request : Request)
      (known : ∀ id ∈ request.frames, Issued past id) :
      History ((request, (request.run fs).1) :: past) (request.run fs).2

/-- All by which frames differ from earlier ones is the value of one slot. -/
structure Differ (fs fs' : Frames) (frame : FrameId) (slot : Nat) (value : Value) : Prop where
  /-- The value is found in every way that leads to the slot. -/
  here : ∀ id depth, fs.ancestor id depth = .ok frame → fs'.get id depth slot = .ok value
  /-- In all other ways is found what was found before, be it a value or a fault. -/
  elsewhere : ∀ id depth slot', ¬(fs.ancestor id depth = .ok frame ∧ slot' = slot) →
    fs'.get id depth slot' = fs.get id depth slot'

/-- Frames that are shared by all ways to reach them. -/
structure Shared (past : Journal) (fs : Frames) : Prop where
  /-- A new frame gets a name that no frame has had before. -/
  fresh : ∀ outer id, ((Request.alloc outer).run fs).1 = .frame id → ¬Issued past id
  /-- A frame lies for good where it was put, which is in an older one, if in any. -/
  nested : ∀ later outer id earlier, past = later ++ (.alloc outer, .frame id) :: earlier →
    fs.outer? id = outer ∧ ∀ o ∈ outer, Issued earlier o
  /-- No variable is taken away. -/
  grows : ∀ later fs', History (later ++ past) fs' → ∀ id, fs.nextSlot id ≤ fs'.nextSlot id
  /-- Some steps outward and some more are as many as there are together. -/
  outward : ∀ id m n frame, fs.ancestor id (m + n) = .ok frame ↔
    ∃ middle, fs.ancestor id m = .ok middle ∧ fs.ancestor middle n = .ok frame
  /-- A new frame has no variables, and all others are as before. -/
  allocated : ∀ outer id, Issued past id → ∀ depth slot,
    (fs.alloc outer).get id depth slot = fs.get id depth slot ∧
      (fs.alloc outer).get fs.next 0 slot = .error (.unbound slot)
  /-- A new variable is found in the slot that is answered, where there was none, and all others
  are as before. -/
  defined : ∀ id value, Issued past id → ∃ slot fs',
    (Request.define id value).run fs = (.slot slot, fs') ∧ Differ fs fs' id slot value ∧
      ∀ id' depth, fs.ancestor id' depth = .ok id → fs.get id' depth slot = .error (.unbound slot)
  /-- A new value is found wherever the same slot of the same frame is reached, and all else is as
  before. -/
  assigned : ∀ id depth slot value fs',
    (Request.assign id depth slot value).run fs = (.assigned, fs') →
      ∃ frame, fs.ancestor id depth = .ok frame ∧ Differ fs fs' frame slot value
  /-- Only a variable that is there can be assigned, and where it is not nothing is changed. -/
  refused : ∀ id depth slot value fault, fs.get id depth slot = .error fault ↔
    (Request.assign id depth slot value).run fs = (.refused fault, fs)

/-! ## What is found -/

section

variable {fs : Frames} {id frame : FrameId} {depth slot : Nat} {value : Value}

theorem ancestor_eq_ok : fs.ancestor id depth = .ok frame ↔ fs.outward? id depth = some frame := by
  unfold ancestor
  cases fs.outward? id depth <;> simp

/-- What is found is what the frame that is reached has in the slot. -/
theorem get_eq (fs : Frames) (id : FrameId) (depth slot : Nat) :
    fs.get id depth slot =
      match fs.ancestor id depth with
      | .error fault => .error fault
      | .ok frame =>
        match (fs.values frame)[slot]? with
        | some value => .ok value
        | none => .error (.unbound slot) := by
  unfold get holder nextSlot
  cases fs.ancestor id depth with
  | error fault => rfl
  | ok frame =>
    by_cases hslot : slot < (fs.values frame).size
    · simp [hslot]
    · simp [hslot]

theorem get_of_ancestor (h : fs.ancestor id depth = .ok frame)
    (hvalue : (fs.values frame)[slot]? = some value) : fs.get id depth slot = .ok value := by
  rw [get_eq, h]
  simp only [hvalue]

theorem get_of_unbound (h : fs.ancestor id depth = .ok frame)
    (hnone : (fs.values frame)[slot]? = none) : fs.get id depth slot = .error (.unbound slot) := by
  rw [get_eq, h]
  simp only [hnone]

/-- Frames that lie in the same way and of which one slot is another one. -/
theorem Differ.of_values {fs' : Frames}
    (same : ∀ id depth, fs'.ancestor id depth = fs.ancestor id depth)
    (here : (fs'.values frame)[slot]? = some value)
    (elsewhere : ∀ id slot', ¬(id = frame ∧ slot' = slot) →
      (fs'.values id)[slot']? = (fs.values id)[slot']?) : Differ fs fs' frame slot value where
  here id depth hreached := get_of_ancestor ((same id depth).trans hreached) here
  elsewhere id depth slot' hother := by
    rw [get_eq, get_eq, same]
    cases hreached : fs.ancestor id depth with
    | error fault => rfl
    | ok other =>
      have hvalues := elsewhere other slot' fun h => hother ⟨by rw [hreached, h.1], h.2⟩
      simp only [hvalues]

theorem ancestor_congr {fs' : Frames} (h : ∀ id, fs'.outer? id = fs.outer? id) (id : FrameId)
    (depth : Nat) : fs'.ancestor id depth = fs.ancestor id depth := by
  unfold ancestor
  rw [outward?_congr fs h]

end

/-! ## Single requests -/

section

variable {fs fs' : Frames} {id frame : FrameId} {depth slot : Nat} {value : Value}

theorem differ_replace (h : slot < (fs.values frame).size) :
    Differ fs (fs.replace frame slot value) frame slot value := by
  have hframe := lt_size_of_slot fs h
  refine .of_values (ancestor_congr (outer?_replace_eq fs frame slot value)) ?_ ?_
  · rw [values_replace fs frame frame slot value hframe, if_pos rfl]
    simp [h]
  · intro other slot' hother
    by_cases hlt : other < fs.size
    · rw [values_replace fs frame other slot value hlt]
      split
      · next hsame =>
        subst hsame
        rw [Array.getElem?_setIfInBounds_ne fun hslot => hother ⟨rfl, hslot.symm⟩]
      · rfl
    · have hge := Nat.le_of_not_lt hlt
      rw [values_eq_empty _ hge, values_eq_empty _ (by rwa [size_replace])]

theorem differ_define (h : id < fs.size) :
    Differ fs (fs.define id value) id (fs.nextSlot id) value := by
  refine .of_values (ancestor_congr (outer?_define_eq fs id value)) ?_ ?_
  · rw [values_define fs id id value h, if_pos rfl]
    simp [nextSlot]
  · intro other slot' hother
    by_cases hlt : other < fs.size
    · rw [values_define fs id other value hlt]
      split
      · next hsame =>
        subst hsame
        have hslot : slot' ≠ (fs.values id).size := fun hslot => hother ⟨rfl, hslot⟩
        rw [Array.getElem?_push, if_neg hslot]
      · rfl
    · have hge := Nat.le_of_not_lt hlt
      rw [values_eq_empty _ hge, values_eq_empty _ (by rwa [size_define])]

/-- An assignment replaces the value in the frame that is reached. -/
theorem assign_eq_ok (h : fs.assign id depth slot value = .ok fs') :
    ∃ frame, fs.ancestor id depth = .ok frame ∧ slot < (fs.values frame).size ∧
      fs' = fs.replace frame slot value := by
  unfold assign at h
  cases hholder : fs.holder id depth slot with
  | error fault =>
    rw [hholder] at h
    cases h
  | ok frame =>
    rw [hholder] at h
    cases h
    obtain ⟨hout, hslot⟩ := (holder_eq_ok fs).mp hholder
    exact ⟨frame, ancestor_eq_ok.mpr hout, hslot, rfl⟩

theorem assign_eq_error {fault : FrameFault} :
    fs.assign id depth slot value = .error fault ↔ fs.get id depth slot = .error fault := by
  unfold assign get
  cases fs.holder id depth slot <;> simp

/-- An assignment is made where a variable is found, and refused for the reason for which none
is. -/
theorem run_assign_of_ok (h : fs.assign id depth slot value = .ok fs') :
    (Request.assign id depth slot value).run fs = (.assigned, fs') := by
  simp only [Request.run, h]

theorem run_assign_of_error {fault : FrameFault}
    (h : fs.assign id depth slot value = .error fault) :
    (Request.assign id depth slot value).run fs = (.refused fault, fs) := by
  simp only [Request.run, h]

/-- What a request does to the number of frames: it makes one, or none. -/
theorem size_run (fs : Frames) (request : Request) :
    (∃ outer, request = .alloc outer ∧ request.run fs = (.frame fs.size, fs.alloc outer)) ∨
      (request.run fs).2.size = fs.size ∧ (∀ id, (request.run fs).1 ≠ .frame id) ∧
        ∀ id, (request.run fs).2.outer? id = fs.outer? id := by
  cases request with
  | alloc outer => exact .inl ⟨outer, rfl, rfl⟩
  | define frame value =>
    exact .inr ⟨size_define fs frame value, nofun, outer?_define_eq fs frame value⟩
  | assign frame depth slot value =>
    refine .inr ?_
    cases hassign : fs.assign frame depth slot value with
    | error fault =>
      rw [run_assign_of_error hassign]
      exact ⟨rfl, nofun, fun _ => rfl⟩
    | ok fs' =>
      rw [run_assign_of_ok hassign]
      obtain ⟨holder, -, -, rfl⟩ := assign_eq_ok hassign
      exact ⟨size_replace .., nofun, outer?_replace_eq fs holder slot value⟩

/-- No request takes a variable away. -/
theorem nextSlot_le_run (fs : Frames) (request : Request) (id : FrameId) :
    fs.nextSlot id ≤ (request.run fs).2.nextSlot id := by
  by_cases hlt : id < fs.size
  · unfold nextSlot
    cases request with
    | alloc outer => exact Nat.le_of_eq (congrArg Array.size (values_alloc_of_lt fs outer hlt).symm)
    | define frame value =>
      show _ ≤ ((fs.define frame value).values id).size
      rw [values_define fs frame id value hlt]
      split <;> simp
    | assign frame depth slot value =>
      cases hassign : fs.assign frame depth slot value with
      | error fault => exact Nat.le_of_eq (by rw [run_assign_of_error hassign])
      | ok fs' =>
        rw [run_assign_of_ok hassign]
        obtain ⟨holder, -, -, rfl⟩ := assign_eq_ok hassign
        show _ ≤ ((fs.replace holder slot value).values id).size
        rw [values_replace fs holder id slot value hlt]
        split <;> simp
  · unfold nextSlot
    rw [values_eq_empty fs (Nat.le_of_not_lt hlt)]
    exact Nat.zero_le _

end

/-! ## Histories -/

namespace History

variable {past later : Journal} {fs fs' : Frames}

/-- The frames that have been answered are those there are. -/
theorem issued_iff (h : History past fs) (id : FrameId) : Issued past id ↔ id < fs.size := by
  unfold Issued
  induction h with
  | start => exact ⟨nofun, fun h => absurd h (Nat.not_lt_zero id)⟩
  | @next past fs before request known ih =>
    -- Either the request allocates, with the new frame as its answer, or there are as many frames
    -- behind it as before.
    rcases size_run fs request with ⟨outer, rfl, hrun⟩ | ⟨hsize, hanswer, -⟩
    · rw [hrun, size_alloc, Nat.lt_succ_iff_lt_or_eq, ← ih]
      constructor
      · rintro ⟨other, hmem⟩
        rcases List.mem_cons.mp hmem with heq | hmem
        · injection heq with _ hid
          injection hid with hid
          exact .inr hid
        · exact .inl ⟨other, hmem⟩
      · rintro (⟨other, hmem⟩ | rfl)
        · exact ⟨other, List.mem_cons_of_mem _ hmem⟩
        · exact ⟨outer, List.mem_cons_self⟩
    · rw [hsize, ← ih]
      constructor
      · rintro ⟨other, hmem⟩
        rcases List.mem_cons.mp hmem with heq | hmem
        · injection heq with _ hid
          exact absurd hid.symm (hanswer id)
        · exact ⟨other, hmem⟩
      · rintro ⟨other, hmem⟩
        exact ⟨other, List.mem_cons_of_mem _ hmem⟩

/-- A frame lies where it was put, which was there before. -/
theorem nested (h : History past fs) {later earlier : Journal} {outer : Option FrameId}
    {id : FrameId} (hpast : past = later ++ (.alloc outer, .frame id) :: earlier) :
    fs.outer? id = outer ∧ ∀ o ∈ outer, Issued earlier o := by
  induction h generalizing later with
  | start => simp at hpast
  | @next past fs before request known ih =>
    cases later with
    | nil =>
      obtain ⟨hentry, rfl⟩ := List.cons.inj hpast
      obtain ⟨rfl, hanswer⟩ := Prod.mk.inj hentry
      obtain rfl : fs.next = id := by injection hanswer
      exact ⟨outer?_alloc_next fs outer, fun o ho => known o (Option.mem_toList.mpr ho)⟩
    | cons entry later =>
      obtain ⟨-, rfl⟩ := List.cons.inj hpast
      obtain ⟨houter, holder⟩ := ih rfl
      refine ⟨?_, holder⟩
      have hid : id < fs.size := (before.issued_iff id).mp ⟨outer, by simp⟩
      rcases size_run fs request with ⟨other, rfl, hrun⟩ | ⟨-, -, hsame⟩
      · rw [hrun]
        exact (outer?_alloc_of_lt fs other hid).trans houter
      · exact (hsame id).trans houter

/-- What has been asked for tells the frames. -/
theorem unique (h : History past fs) (h' : History past fs') : fs = fs' := by
  induction h generalizing fs' with
  | start =>
    cases h'
    rfl
  | @next past fs before request known ih =>
    generalize hpast : (request, (request.run fs).1) :: past = all at h'
    cases h' with
    | start => cases hpast
    | next before' request' known' =>
      obtain ⟨hentry, rfl⟩ := List.cons.inj hpast
      obtain ⟨rfl, -⟩ := Prod.mk.inj hentry
      rw [ih before']

theorem nextSlot_le (h : History past fs) (h' : History (later ++ past) fs') (id : FrameId) :
    fs.nextSlot id ≤ fs'.nextSlot id := by
  induction later generalizing fs' with
  | nil => exact Nat.le_of_eq (by rw [h.unique h'])
  | cons entry later ih =>
    generalize hall : entry :: later ++ past = all at h'
    cases h' with
    | start => simp at hall
    | @next past' fs₁ before request known =>
      obtain ⟨-, rfl⟩ := List.cons.inj hall
      exact Nat.le_trans (ih before) (nextSlot_le_run fs₁ request id)

/-- From a frame that is there only frames that are there can be reached. -/
theorem outward_lt (h : History past fs) {id frame : FrameId} {steps : Nat} (hid : id < fs.size)
    (hout : fs.outward? id steps = some frame) : frame < fs.size := by
  induction steps generalizing frame with
  | zero =>
    cases hout
    exact hid
  | succ steps ih =>
    rw [outward?_succ, Option.bind_eq_some_iff] at hout
    obtain ⟨middle, hmiddle, houter⟩ := hout
    -- What lies around a frame was there when it was made.
    obtain ⟨outer, hmem⟩ := (h.issued_iff middle).mpr (ih hmiddle)
    obtain ⟨later, earlier, hpast⟩ := List.append_of_mem hmem
    obtain ⟨hlies, hknown⟩ := h.nested hpast
    obtain rfl : outer = some frame := hlies.symm.trans houter
    obtain ⟨other, hissued⟩ := hknown frame rfl
    exact (h.issued_iff frame).mp ⟨other, by simp [hpast, hissued]⟩

/-- A new frame is reached from none that was there. -/
theorem outward?_alloc (h : History past fs) (outer : Option FrameId) {id : FrameId}
    (hid : id < fs.size) (steps : Nat) :
    (fs.alloc outer).outward? id steps = fs.outward? id steps := by
  induction steps with
  | zero => rfl
  | succ steps ih =>
    rw [outward?_succ, outward?_succ, ih]
    cases hmiddle : fs.outward? id steps with
    | none => rfl
    | some middle => exact outer?_alloc_of_lt fs outer (h.outward_lt hid hmiddle)

theorem get_alloc (h : History past fs) (outer : Option FrameId) {id : FrameId}
    (hid : id < fs.size) (depth slot : Nat) :
    (fs.alloc outer).get id depth slot = fs.get id depth slot := by
  have hsame : (fs.alloc outer).ancestor id depth = fs.ancestor id depth := by
    unfold ancestor
    rw [h.outward?_alloc outer hid]
  rw [get_eq, get_eq, hsame]
  cases hreached : fs.ancestor id depth with
  | error fault => rfl
  | ok frame =>
    have hframe := h.outward_lt hid (ancestor_eq_ok.mp hreached)
    simp only [values_alloc_of_lt fs outer hframe]

end History

/-- Behind any history of requests frames are shared by all ways to reach them. -/
theorem frames_are_shared {past : Journal} {fs : Frames} (h : History past fs) :
    Shared past fs where
  fresh outer id hanswer := by
    rw [h.issued_iff]
    injection hanswer with hid
    exact Nat.not_lt.mpr (Nat.le_of_eq hid)
  nested _ _ _ _ hpast := h.nested hpast
  grows _ _ h' := h.nextSlot_le h'
  outward id m n frame := by
    simp only [ancestor_eq_ok, outward?_add_eq_bind, Option.bind_eq_some_iff]
  allocated outer id hid depth slot := by
    refine ⟨h.get_alloc outer ((h.issued_iff id).mp hid) depth slot, ?_⟩
    have hreached : (fs.alloc outer).ancestor fs.next 0 = .ok fs.next := rfl
    exact get_of_unbound hreached (by rw [values_alloc_next]; rfl)
  defined id value hid := by
    refine ⟨fs.nextSlot id, fs.define id value, rfl, ?_, fun id' depth hreached => ?_⟩
    · exact differ_define ((h.issued_iff id).mp hid)
    · exact get_of_unbound hreached (by simp [nextSlot])
  assigned id depth slot value fs' hrun := by
    cases hassign : fs.assign id depth slot value with
    | error fault =>
      rw [run_assign_of_error hassign] at hrun
      cases hrun
    | ok made =>
      rw [run_assign_of_ok hassign] at hrun
      obtain ⟨-, rfl⟩ := Prod.mk.inj hrun
      obtain ⟨frame, hreached, hslot, rfl⟩ := assign_eq_ok hassign
      exact ⟨frame, hreached, differ_replace hslot⟩
  refused id depth slot value fault := by
    cases hassign : fs.assign id depth slot value with
    | error other =>
      rw [run_assign_of_error hassign, assign_eq_error.mp hassign]
      simp
    | ok made =>
      have hget : fs.get id depth slot ≠ .error fault := by
        intro hfault
        rw [assign_eq_error.mpr hfault] at hassign
        cases hassign
      rw [run_assign_of_ok hassign]
      exact ⟨fun hfault => absurd hfault hget, nofun⟩

/-- Two frames, one in the other, and a variable of the outer one that is assigned from the inner
one. -/
theorem frames_are_shared_by_two :
    ∃ past fs, History past fs ∧ past.length = 4 ∧ fs.get 0 0 0 = .ok (.bool true) ∧
      fs.get 1 1 0 = .ok (.bool true) ∧ Shared past fs := by
  have outer := History.start.next (.alloc none) nofun
  have inner := outer.next (.alloc (some 0)) (List.forall_mem_singleton.mpr ⟨none, .head _⟩)
  have defined := inner.next (.define 0 .nil)
    (List.forall_mem_singleton.mpr ⟨none, .tail _ (.head _)⟩)
  have assigned := defined.next (.assign 1 1 0 (.bool true))
    (List.forall_mem_singleton.mpr ⟨some 0, .tail _ (.head _)⟩)
  exact ⟨_, _, assigned, rfl, rfl, rfl, frames_are_shared assigned⟩

end Frames

end LoxLang
