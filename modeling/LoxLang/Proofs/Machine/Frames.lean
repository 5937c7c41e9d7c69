import LoxLang.Machine.Frames

/-!
# Laws of frames

What the three operations that change frames do to the values of a frame and to the frame
around it, and when a variable is found.
-/

namespace LoxLang

namespace Frames

variable (fs : Frames)

/-! ## New frames -/

@[simp] theorem size_alloc (outer : Option FrameId) : (fs.alloc outer).size = fs.size + 1 :=
  Array.size_push _

theorem getD_alloc_of_lt {id : FrameId} (outer : Option FrameId) (h : id < fs.size) :
    (fs.alloc outer).all.getD id default = fs.all.getD id default := by
  unfold size at h
  have h' : id < fs.all.size + 1 := Nat.lt_succ_of_lt h
  simp [alloc, Array.getD, h, h', Array.getElem_push_lt]

theorem getD_alloc_next (outer : Option FrameId) :
    (fs.alloc outer).all.getD fs.next default = ⟨#[], outer⟩ := by
  simp [alloc, next, Array.getD]

theorem values_alloc_of_lt {id : FrameId} (outer : Option FrameId) (h : id < fs.size) :
    (fs.alloc outer).values id = fs.values id := by
  unfold values
  rw [getD_alloc_of_lt fs outer h]

theorem outer?_alloc_of_lt {id : FrameId} (outer : Option FrameId) (h : id < fs.size) :
    (fs.alloc outer).outer? id = fs.outer? id := by
  unfold outer?
  rw [getD_alloc_of_lt fs outer h]

@[simp] theorem values_alloc_next (outer : Option FrameId) :
    (fs.alloc outer).values fs.next = #[] := by
  unfold values
  rw [getD_alloc_next]

@[simp] theorem outer?_alloc_next (outer : Option FrameId) :
    (fs.alloc outer).outer? fs.next = outer := by
  unfold outer?
  rw [getD_alloc_next]

/-! ## New variables and new values -/

theorem getD_modify (id other : FrameId) (change : Frame → Frame)
    (h : other < fs.size) :
    (fs.all.modify id change).getD other default =
      if id = other then change (fs.all.getD other default) else fs.all.getD other default := by
  unfold size at h
  simp only [Array.getD, Array.size_modify, h, dif_pos, Array.getInternal_eq_getElem,
    Array.getElem_modify]

@[simp] theorem size_define (id : FrameId) (value : Value) : (fs.define id value).size = fs.size :=
  Array.size_modify

@[simp] theorem size_replace (id : FrameId) (slot : Nat) (value : Value) :
    (fs.replace id slot value).size = fs.size :=
  Array.size_modify

theorem values_define (id other : FrameId) (value : Value) (h : other < fs.size) :
    (fs.define id value).values other =
      if id = other then (fs.values other).push value else fs.values other := by
  unfold values define
  rw [getD_modify fs id other _ h]
  split <;> rfl

theorem outer?_define (id other : FrameId) (value : Value) (h : other < fs.size) :
    (fs.define id value).outer? other = fs.outer? other := by
  unfold outer? define
  rw [getD_modify fs id other _ h]
  split <;> rfl

theorem values_replace (id other : FrameId) (slot : Nat) (value : Value) (h : other < fs.size) :
    (fs.replace id slot value).values other =
      if id = other then (fs.values other).setIfInBounds slot value else fs.values other := by
  unfold values replace
  rw [getD_modify fs id other _ h]
  split <;> rfl

theorem outer?_replace (id other : FrameId) (slot : Nat) (value : Value) (h : other < fs.size) :
    (fs.replace id slot value).outer? other = fs.outer? other := by
  unfold outer? replace
  rw [getD_modify fs id other _ h]
  split <;> rfl

/-! ## A frame with its first variables -/

/-- Put values into the next slots of a frame. -/
def defineAll (id : FrameId) (values : List Value) : Frames :=
  values.foldl (fun fs value => fs.define id value) fs

/-- A new frame with values in its first slots. -/
def framed (outer : Option FrameId) (values : List Value) : Frames :=
  (fs.alloc outer).defineAll fs.next values

@[simp] theorem size_defineAll (id : FrameId) (values : List Value) :
    (fs.defineAll id values).size = fs.size := by
  induction values generalizing fs with
  | nil => rfl
  | cons value rest ih => exact (ih (fs.define id value)).trans (size_define fs id value)

theorem outer?_defineAll (id other : FrameId) (values : List Value) (h : other < fs.size) :
    (fs.defineAll id values).outer? other = fs.outer? other := by
  induction values generalizing fs with
  | nil => rfl
  | cons value rest ih =>
    have hrest := ih (fs.define id value) (by rwa [size_define])
    exact hrest.trans (outer?_define fs id other value h)

theorem values_defineAll (id other : FrameId) (values : List Value) (h : other < fs.size) :
    ((fs.defineAll id values).values other).toList =
      if id = other then (fs.values other).toList ++ values else (fs.values other).toList := by
  induction values generalizing fs with
  | nil => simp [defineAll]
  | cons value rest ih =>
    have hrest := ih (fs.define id value) (by rwa [size_define])
    refine hrest.trans ?_
    rw [values_define fs id other value h]
    split
    · simp
    · rfl

@[simp] theorem size_framed (outer : Option FrameId) (values : List Value) :
    (fs.framed outer values).size = fs.size + 1 := by
  unfold framed
  rw [size_defineAll, size_alloc]

theorem next_lt_size_alloc (outer : Option FrameId) : fs.next < (fs.alloc outer).size := by
  rw [size_alloc]
  exact Nat.lt_succ_self fs.size

theorem outer?_framed_next (outer : Option FrameId) (values : List Value) :
    (fs.framed outer values).outer? fs.next = outer := by
  unfold framed
  rw [outer?_defineAll _ _ _ _ (fs.next_lt_size_alloc outer), outer?_alloc_next]

theorem values_framed_next (outer : Option FrameId) (values : List Value) :
    ((fs.framed outer values).values fs.next).toList = values := by
  unfold framed
  rw [values_defineAll _ _ _ _ (fs.next_lt_size_alloc outer), if_pos rfl, values_alloc_next]
  rfl

theorem outer?_framed_of_lt {id : FrameId} (outer : Option FrameId) (values : List Value)
    (h : id < fs.size) : (fs.framed outer values).outer? id = fs.outer? id := by
  unfold framed
  have h' : id < (fs.alloc outer).size := by
    rw [size_alloc]
    exact Nat.lt_succ_of_lt h
  rw [outer?_defineAll _ _ _ _ h', outer?_alloc_of_lt fs outer h]

theorem values_framed_of_lt {id : FrameId} (outer : Option FrameId) (values : List Value)
    (h : id < fs.size) : (fs.framed outer values).values id = fs.values id := by
  unfold framed
  have h' : id < (fs.alloc outer).size := by
    rw [size_alloc]
    exact Nat.lt_succ_of_lt h
  have hne : fs.next ≠ id := Nat.ne_of_gt h
  apply Array.toList_inj.mp
  rw [values_defineAll _ _ _ _ h', if_neg hne, values_alloc_of_lt fs outer h]

/-- There is nothing in frames that are not there. -/
theorem values_eq_empty {id : FrameId} (h : fs.size ≤ id) : fs.values id = #[] := by
  unfold size at h
  unfold values
  rw [Array.getD, dif_neg (Nat.not_lt.mpr h)]
  rfl

/-- A frame that is not there lies in none. -/
theorem outer?_eq_none {id : FrameId} (h : fs.size ≤ id) : fs.outer? id = none := by
  unfold size at h
  unfold outer?
  rw [Array.getD, dif_neg (Nat.not_lt.mpr h)]
  rfl

/-- The values in all frames are those there were, and the new ones. -/
theorem mem_values_framed {id : FrameId} {outer : Option FrameId} {values : List Value}
    {v : Value} (h : v ∈ (fs.framed outer values).values id) : v ∈ fs.values id ∨ v ∈ values := by
  rcases Nat.lt_trichotomy id fs.size with hlt | rfl | hgt
  · rw [values_framed_of_lt fs outer values hlt] at h
    exact .inl h
  · rw [← Array.mem_toList_iff] at h
    have hnext : ((fs.framed outer values).values fs.size).toList = values :=
      fs.values_framed_next outer values
    rw [hnext] at h
    exact .inr h
  · have hsize : (fs.framed outer values).size ≤ id := by
      rw [size_framed]
      exact hgt
    rw [values_eq_empty _ hsize] at h
    simp at h

theorem mem_values_define {id other : FrameId} {value v : Value}
    (h : v ∈ (fs.define id value).values other) : v ∈ fs.values other ∨ v = value := by
  by_cases hlt : other < fs.size
  · rw [values_define fs id other value hlt] at h
    split at h
    · exact Array.mem_push.mp h
    · exact .inl h
  · rw [values_eq_empty _ (by rw [size_define]; exact Nat.le_of_not_lt hlt)] at h
    simp at h

theorem mem_values_replace {id other : FrameId} {slot : Nat} {value v : Value}
    (h : v ∈ (fs.replace id slot value).values other) : v ∈ fs.values other ∨ v = value := by
  by_cases hlt : other < fs.size
  · rw [values_replace fs id other slot value hlt] at h
    split at h
    · exact Array.mem_or_eq_of_mem_setIfInBounds h
    · exact .inl h
  · rw [values_eq_empty _ (by rw [size_replace]; exact Nat.le_of_not_lt hlt)] at h
    simp at h

/-! ## Finding a variable -/

/-- One step further outward. -/
theorem outward?_succ (id : FrameId) (steps : Nat) :
    fs.outward? id (steps + 1) = (fs.outward? id steps).bind fs.outer? := by
  induction steps generalizing id with
  | zero =>
    simp only [outward?, Option.bind_some]
    cases fs.outer? id <;> rfl
  | succ steps ih =>
    unfold outward?
    cases houter : fs.outer? id with
    | none => rfl
    | some outer => exact ih outer

/-- Some steps outward, and then some more. -/
theorem outward?_add_eq_bind (id : FrameId) (m n : Nat) :
    fs.outward? id (m + n) = (fs.outward? id m).bind fun middle => fs.outward? middle n := by
  induction n with
  | zero =>
    cases fs.outward? id m <;> rfl
  | succ n ih =>
    rw [← Nat.add_assoc, outward?_succ, ih, Option.bind_assoc]
    congr 1
    funext middle
    exact (outward?_succ fs middle n).symm

theorem holder_eq_ok {id : FrameId} {depth slot : Nat} {frame : FrameId} :
    fs.holder id depth slot = .ok frame ↔
      fs.outward? id depth = some frame ∧ slot < (fs.values frame).size := by
  unfold holder ancestor nextSlot
  cases hout : fs.outward? id depth with
  | none => simp
  | some found =>
    simp only [Option.some.injEq]
    constructor
    · intro h
      split at h
      · next hslot =>
        cases h
        exact ⟨rfl, hslot⟩
      · cases h
    · rintro ⟨rfl, hslot⟩
      rw [if_pos hslot]

/-- A variable whose frame is there is missing only when its slot is not yet filled. -/
theorem holder_eq_error {id : FrameId} {depth slot : Nat} {frame : FrameId}
    (h : fs.outward? id depth = some frame) {fault : FrameFault} :
    fs.holder id depth slot = .error fault ↔
      (fs.values frame).size ≤ slot ∧ fault = .unbound slot := by
  unfold holder ancestor nextSlot
  simp only [h]
  constructor
  · intro hfault
    split at hfault
    · cases hfault
    · next hslot =>
      cases hfault
      exact ⟨Nat.le_of_not_lt hslot, rfl⟩
  · rintro ⟨hslot, rfl⟩
    rw [if_neg (Nat.not_lt.mpr hslot)]

theorem get_eq_ok {id : FrameId} {depth slot : Nat} {frame : FrameId}
    (h : fs.holder id depth slot = .ok frame) :
    fs.get id depth slot = .ok ((fs.values frame).getD slot .nil) := by
  unfold get
  rw [h]

theorem get_eq_error {id : FrameId} {depth slot : Nat} {fault : FrameFault}
    (h : fs.holder id depth slot = .error fault) : fs.get id depth slot = .error fault := by
  unfold get
  rw [h]

/-- Whoever has a slot is there. -/
theorem lt_size_of_slot {frame : FrameId} {slot : Nat} (h : slot < (fs.values frame).size) :
    frame < fs.size := by
  refine Nat.lt_of_not_le fun hge => ?_
  rw [values_eq_empty fs hge] at h
  exact Nat.not_lt_zero slot h

/-- A new variable leaves all frames where they are. -/
theorem outer?_define_eq (frame : FrameId) (value : Value) (id : FrameId) :
    (fs.define frame value).outer? id = fs.outer? id := by
  by_cases hlt : id < fs.size
  · exact outer?_define fs frame id value hlt
  · have hge := Nat.le_of_not_lt hlt
    rw [outer?_eq_none _ hge, outer?_eq_none _ (by rwa [size_define])]

/-- So does a new value. -/
theorem outer?_replace_eq (frame : FrameId) (slot : Nat) (value : Value) (id : FrameId) :
    (fs.replace frame slot value).outer? id = fs.outer? id := by
  by_cases hlt : id < fs.size
  · exact outer?_replace fs frame id slot value hlt
  · have hge := Nat.le_of_not_lt hlt
    rw [outer?_eq_none _ hge, outer?_eq_none _ (by rwa [size_replace])]

/-- Where frames lie tells what is reached from them. -/
theorem outward?_congr {fs' : Frames} (h : ∀ id, fs'.outer? id = fs.outer? id) (id : FrameId)
    (steps : Nat) : fs'.outward? id steps = fs.outward? id steps := by
  have houter : fs'.outer? = fs.outer? := funext h
  induction steps with
  | zero => rfl
  | succ steps ih => rw [outward?_succ, outward?_succ, ih, houter]

/-- A new variable does not change how the frames are nested. -/
theorem outward?_define (frame : FrameId) (value : Value) (id : FrameId) (steps : Nat) :
    (fs.define frame value).outward? id steps = fs.outward? id steps :=
  outward?_congr fs (outer?_define_eq fs frame value) id steps

/-- A variable that is there is still there when another one has been declared. -/
theorem get_define {id : FrameId} {depth slot : Nat} {v : Value}
    (h : fs.get id depth slot = .ok v) (frame : FrameId) (value : Value) :
    (fs.define frame value).get id depth slot = .ok v := by
  cases hholder : fs.holder id depth slot with
  | error fault =>
    rw [get_eq_error _ hholder] at h
    cases h
  | ok found =>
    rw [get_eq_ok _ hholder, Except.ok.injEq] at h
    obtain ⟨hfound, hslot⟩ := (holder_eq_ok fs).mp hholder
    have hlt : found < fs.size := lt_size_of_slot fs hslot
    have hvalues := values_define fs frame found value hlt
    -- The frame may be the one that has got the variable: then its slots before are as they were.
    have hslot' : slot < ((fs.define frame value).values found).size := by
      rw [hvalues]
      split
      · exact Nat.lt_of_lt_of_le hslot (by simp)
      · exact hslot
    have hholder' : (fs.define frame value).holder id depth slot = .ok found :=
      (holder_eq_ok _).mpr ⟨(outward?_define fs frame value id depth).trans hfound, hslot'⟩
    rw [get_eq_ok _ hholder', hvalues, ← h]
    split
    · simp [Array.getD, hslot, Nat.lt_succ_of_lt hslot, Array.getElem_push]
    · rfl

end Frames

end LoxLang
