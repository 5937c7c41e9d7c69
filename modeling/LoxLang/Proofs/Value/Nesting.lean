import LoxLang.Value.Text
import Mathlib.Data.Fintype.Pigeonhole
import Mathlib.Logic.Relation

/-!
# Which values have a text

What is shown of a value stays a beginning as long as there is a way from array to array that is as
long as the depth (`not_whole_iff`). There are only so many arrays, so a way that is longer than
their number comes to one of them twice. The values without a text are the arrays from which there is
a way to one that contains itself (`text?_eq_none_iff`). Of their lines there are beginnings of any
length (`length_le_line`), all of which begin alike (`take_line`).
-/

namespace LoxLang

open Relation

/-! ## What is shown of several things -/

namespace Rendering

variable {first second r r' s s' : Rendering}

theorem append_of_whole (h : first.whole = true) (second : Rendering) :
    first ++ second = ⟨first.text ++ second.text, second.whole⟩ :=
  if_pos h

theorem append_of_not_whole (h : first.whole = false) (second : Rendering) :
    first ++ second = first :=
  if_neg (by rw [h]; exact Bool.false_ne_true)

@[simp] theorem whole_all (text : String) : (all text).whole = true :=
  rfl

@[simp] theorem text_all (text : String) : (all text).text = text :=
  rfl

@[simp] theorem whole_append (first second : Rendering) :
    (first ++ second).whole = (first.whole && second.whole) := by
  cases h : first.whole with
  | true => rw [append_of_whole h, Bool.true_and]
  | false => rw [append_of_not_whole h, h, Bool.false_and]

theorem isPrefix_append (first second : Rendering) :
    first.text.toList <+: (first ++ second).text.toList := by
  cases h : first.whole with
  | true =>
    rw [append_of_whole h, String.toList_append]
    exact List.prefix_append _ _
  | false => rw [append_of_not_whole h]

theorem length_append_le (first second : Rendering) :
    first.text.length ≤ (first ++ second).text.length := by
  rw [← String.length_toList, ← String.length_toList]
  exact (isPrefix_append first second).length_le

theorem whole_separated (separator : String) (first : Rendering) (rest : List Rendering) :
    (separated separator first rest).whole = (first.whole && rest.all whole) := by
  induction rest generalizing first with
  | nil => rw [separated, List.all_nil, Bool.and_true]
  | cons next rest ih =>
    rw [separated, ih, whole_append, whole_append, whole_all, Bool.and_true, List.all_cons,
      Bool.and_assoc]

/-- Texts are shown as a whole together if each of them is. -/
theorem whole_join (separator : String) (parts : List Rendering) :
    (join separator parts).whole = parts.all whole := by
  cases parts with
  | nil => rfl
  | cons first rest => rw [join, whole_separated, List.all_cons]

/-- What is shown instead of a mere beginning begins with it, and a whole text stays what it is. -/
def Begins (r r' : Rendering) : Prop :=
  if r.whole then r' = r else r.text.toList <+: r'.text.toList

theorem Begins.refl (r : Rendering) : r.Begins r := by
  unfold Begins
  split
  · rfl
  · exact List.prefix_rfl

theorem Begins.eq_of_whole (h : r.Begins r') (whole : r.whole = true) : r' = r := by
  unfold Begins at h
  rwa [if_pos whole] at h

theorem begins_of_not_whole (h : r.whole = false) (h' : r.text.toList <+: r'.text.toList) :
    r.Begins r' := by
  unfold Begins
  rwa [h, if_neg Bool.false_ne_true]

theorem Begins.text (h : r.Begins r') : r.text.toList <+: r'.text.toList := by
  cases hwhole : r.whole with
  | true => rw [h.eq_of_whole hwhole]
  | false =>
    unfold Begins at h
    rwa [hwhole, if_neg Bool.false_ne_true] at h

theorem Begins.trans {r'' : Rendering} (h : r.Begins r') (h' : r'.Begins r'') : r.Begins r'' := by
  cases hwhole : r.whole with
  | true =>
    obtain rfl := h.eq_of_whole hwhole
    exact h'
  | false => exact begins_of_not_whole hwhole (h.text.trans h'.text)

theorem Begins.append (h : r.Begins r') (h' : s.Begins s') : (r ++ s).Begins (r' ++ s') := by
  cases hr : r.whole with
  | false =>
    rw [append_of_not_whole hr]
    exact begins_of_not_whole hr (h.text.trans (isPrefix_append r' s'))
  | true =>
    obtain rfl := h.eq_of_whole hr
    cases hs : s.whole with
    | true =>
      obtain rfl := h'.eq_of_whole hs
      exact .refl _
    | false =>
      rw [append_of_whole hr, append_of_whole hr]
      refine begins_of_not_whole hs ?_
      rw [String.toList_append, String.toList_append]
      exact (List.prefix_append_right_inj _).mpr h'.text

theorem begins_separated {rest rest' : List Rendering} (separator : String) (h : r.Begins r')
    (h' : List.Forall₂ Begins rest rest') :
    (separated separator r rest).Begins (separated separator r' rest') := by
  induction h' generalizing r r' with
  | nil => exact h
  | cons hnext _ ih => exact ih ((h.append (.refl _)).append hnext)

theorem begins_join {parts parts' : List Rendering} (separator : String)
    (h : List.Forall₂ Begins parts parts') :
    (join separator parts).Begins (join separator parts') := by
  cases h with
  | nil => exact .refl _
  | cons h h' => exact begins_separated separator h h'

/-- Where a text comes behind another one, no less is shown than of either. -/
theorem length_le_append_of_whole (h : first.whole = true) (second : Rendering) :
    second.text.length ≤ (first ++ second).text.length := by
  rw [append_of_whole h, String.length_append]
  exact Nat.le_add_left _ _

theorem length_le_separated (separator : String) (first : Rendering) (rest : List Rendering) :
    first.text.length ≤ (separated separator first rest).text.length := by
  induction rest generalizing first with
  | nil => exact Nat.le_refl _
  | cons next rest ih =>
    exact ((length_append_le _ _).trans (length_append_le _ _)).trans (ih _)

/-- If what is shown of several texts breaks off, it does so no sooner than what is shown of one of
them. -/
theorem exists_of_separated {separator : String} {rest : List Rendering}
    (h : (separated separator r rest).whole = false) :
    ∃ part ∈ r :: rest, part.whole = false ∧
      part.text.length ≤ (separated separator r rest).text.length := by
  induction rest generalizing r with
  | nil => exact ⟨r, List.mem_cons_self, h, Nat.le_refl _⟩
  | cons next rest ih =>
    obtain ⟨part, hmem, hpart, hlength⟩ := ih h
    rcases List.mem_cons.mp hmem with rfl | hrest
    · cases hr : r.whole with
      | false =>
        refine ⟨r, List.mem_cons_self, hr, ?_⟩
        exact length_le_separated separator r (next :: rest)
      | true =>
        rw [whole_append, whole_append, hr] at hpart
        refine ⟨next, List.mem_cons_of_mem _ List.mem_cons_self, hpart, ?_⟩
        refine (length_le_append_of_whole ?_ next).trans hlength
        rw [whole_append, hr]
        rfl
    · exact ⟨part, List.mem_cons_of_mem _ (List.mem_cons_of_mem _ hrest), hpart, hlength⟩

theorem exists_of_join {separator : String} {parts : List Rendering}
    (h : (join separator parts).whole = false) :
    ∃ part ∈ parts, part.whole = false ∧
      part.text.length ≤ (join separator parts).text.length := by
  cases parts with
  | nil => cases h
  | cons first rest => exact exists_of_separated h

end Rendering

/-! ## Ways from array to array -/

namespace Arrays

variable {arrays : Arrays} {a b : ArrayId}

/-- An array is an element of another one. -/
def Nests (arrays : Arrays) (a b : ArrayId) : Prop :=
  Value.array b ∈ (arrays.getD a #[]).toList

/-- There is a way of so many steps from an array, each to an element. -/
def Way (arrays : Arrays) : Nat → ArrayId → Prop
  | 0, _ => True
  | steps + 1, a => ∃ b, arrays.Nests a b ∧ arrays.Way steps b

/-- Only an array that there is has elements. -/
theorem lt_size_of_nests (h : arrays.Nests a b) : a < arrays.size := by
  unfold Nests at h
  by_contra hsize
  rw [Array.getD_eq_getD_getElem?, Array.getElem?_eq_none (Nat.le_of_not_lt hsize)] at h
  cases h

/-- The arrays that a way comes to. -/
theorem Way.exists_stations {steps : Nat} (h : arrays.Way steps a) :
    ∃ station : Nat → ArrayId, station 0 = a ∧
      ∀ i < steps, arrays.Nests (station i) (station (i + 1)) := by
  induction steps generalizing a with
  | zero => exact ⟨fun _ => a, rfl, nofun⟩
  | succ steps ih =>
    obtain ⟨b, hstep, hrest⟩ := h
    obtain ⟨station, hfirst, hsteps⟩ := ih hrest
    refine ⟨fun i => if i = 0 then a else station (i - 1), rfl, ?_⟩
    rintro (_ | i) hi
    · show arrays.Nests a (station 0)
      rwa [hfirst]
    · exact hsteps i (Nat.lt_of_succ_lt_succ hi)

theorem reflTransGen_stations {station : Nat → ArrayId} {steps i j : Nat}
    (h : ∀ i < steps, arrays.Nests (station i) (station (i + 1))) (hle : i ≤ j)
    (hj : j ≤ steps) : ReflTransGen arrays.Nests (station i) (station j) := by
  induction j, hle using Nat.le_induction with
  | base => exact .refl
  | succ j _ ih => exact (ih (Nat.le_of_succ_le hj)).tail (h j hj)

/-- A way with more steps than there are arrays comes to one of them twice. -/
theorem Way.exists_loop (h : arrays.Way (arrays.size + 1) a) :
    ∃ b, ReflTransGen arrays.Nests a b ∧ TransGen arrays.Nests b b := by
  obtain ⟨station, rfl, hsteps⟩ := h.exists_stations
  let place : Fin (arrays.size + 1) → Fin arrays.size :=
    fun i => ⟨station i, lt_size_of_nests (hsteps i i.isLt)⟩
  obtain ⟨i, j, hne, heq⟩ := Fintype.exists_ne_map_eq_of_card_lt place (by simp)
  have hsame : station i = station j := congrArg Fin.val heq
  -- The way from the one to the other has a first step, as they are not the same on the way.
  have hloop : ∀ i j : Nat, i < j → j < arrays.size + 1 → station i = station j →
      ∃ b, ReflTransGen arrays.Nests (station 0) b ∧ TransGen arrays.Nests b b := by
    intro i j hlt hj hsame
    refine ⟨station i, reflTransGen_stations hsteps (Nat.zero_le i) (by omega), ?_⟩
    have hrest := reflTransGen_stations hsteps hlt (Nat.le_of_lt hj)
    exact TransGen.head' (hsteps i (by omega)) (hsame ▸ hrest)
  rcases Nat.lt_or_gt_of_ne (Fin.val_ne_of_ne hne) with hlt | hgt
  · exact hloop i j hlt j.isLt hsame
  · exact hloop j i hgt i.isLt hsame.symm

/-- From an array that contains itself there are ways of any length. -/
theorem way_of_loop (hway : ReflTransGen arrays.Nests a b) (hloop : TransGen arrays.Nests b b)
    (steps : Nat) : arrays.Way steps a := by
  induction steps generalizing a with
  | zero => trivial
  | succ steps ih =>
    obtain ⟨c, hstep, hrest⟩ : ∃ c, arrays.Nests a c ∧ ReflTransGen arrays.Nests c b := by
      rcases hway.cases_head with rfl | hhead
      · exact TransGen.head'_iff.mp hloop
      · exact hhead
    exact ⟨c, hstep, ih hrest⟩

end Arrays

namespace Value

variable {arrays : Arrays} {depth : Nat} {v : Value} {id : ArrayId}

/-- All values but arrays are shown as a whole, whatever the depth is. -/
theorem textWithin_of_not_array {arrays : Arrays} (h : ∀ id, v ≠ array id) (depth : Nat) :
    (v.textWithin arrays depth).whole = true ∧
      v.textWithin arrays depth = v.textWithin arrays 0 := by
  cases v with
  | array id => exact absurd rfl (h id)
  | bool value => cases value <;> cases depth <;> exact ⟨rfl, rfl⟩
  | _ => cases depth <;> exact ⟨rfl, rfl⟩

theorem exists_array_of_not_whole (h : (v.textWithin arrays depth).whole = false) :
    ∃ id, v = array id := by
  by_contra harray
  have hnot := not_exists.mp harray
  exact Bool.false_ne_true (h.symm.trans (textWithin_of_not_array hnot depth).1)

theorem textWithin_array (arrays : Arrays) (depth : Nat) (id : ArrayId) :
    (array id).textWithin arrays (depth + 1) =
      .all "[ " ++ Rendering.join " , "
        ((arrays.getD id #[]).toList.map (asElement (textWithin arrays depth))) ++ .all " ]" :=
  rfl

theorem whole_textWithin_array (arrays : Arrays) (depth : Nat) (id : ArrayId) :
    ((array id).textWithin arrays (depth + 1)).whole = false ↔
      ∃ element ∈ (arrays.getD id #[]).toList,
        (asElement (textWithin arrays depth) element).whole = false := by
  simp only [textWithin_array, Rendering.whole_append, Rendering.whole_all, Rendering.whole_join,
    Bool.true_and, Bool.and_true, List.all_map, List.all_eq_false, Function.comp_apply,
    Bool.not_eq_true]

theorem asElement_of_not_whole {element : Value}
    (h : (asElement (textWithin arrays depth) element).whole = false) :
    asElement (textWithin arrays depth) element = element.textWithin arrays depth := by
  cases element with
  | text value => cases h
  | _ => rfl

/-- What is shown of a value with some depth is no more than a beginning if the value is an array
with a way as long, and only then. -/
theorem not_whole_iff : (v.textWithin arrays depth).whole = false ↔
    ∃ id, v = array id ∧ arrays.Way depth id := by
  induction depth generalizing v with
  | zero =>
    refine ⟨fun h => ?_, fun ⟨id, hid, _⟩ => hid ▸ rfl⟩
    obtain ⟨id, rfl⟩ := exists_array_of_not_whole h
    exact ⟨id, rfl, trivial⟩
  | succ depth ih =>
    constructor
    · intro h
      obtain ⟨id, rfl⟩ := exists_array_of_not_whole h
      obtain ⟨element, hmem, helement⟩ := (whole_textWithin_array arrays depth id).mp h
      rw [asElement_of_not_whole helement] at helement
      obtain ⟨b, rfl, hway⟩ := ih.mp helement
      exact ⟨id, rfl, b, hmem, hway⟩
    · rintro ⟨id, rfl, b, hnests, hway⟩
      exact (whole_textWithin_array arrays depth id).mpr ⟨array b, hnests, ih.mpr ⟨b, rfl, hway⟩⟩

theorem text?_eq_none : v.text? arrays = none ↔ (v.shown arrays 0).whole = false := by
  unfold text?
  cases h : (v.shown arrays 0).whole <;> simp [h]

theorem text?_eq_some {text : String} : v.text? arrays = some text ↔
    v.shown arrays 0 = .all text := by
  unfold text?
  obtain ⟨shown, whole⟩ := v.shown arrays 0
  cases whole <;> simp [Rendering.all]

/-- A value has no text if it is an array from which there is a way to one that contains itself, and
only then. -/
theorem text?_eq_none_iff : v.text? arrays = none ↔
    ∃ a b, v = array a ∧ ReflTransGen arrays.Nests a b ∧ TransGen arrays.Nests b b := by
  rw [text?_eq_none, shown, not_whole_iff]
  constructor
  · rintro ⟨a, rfl, hway⟩
    obtain ⟨b, hreach, hloop⟩ := hway.exists_loop
    exact ⟨a, b, rfl, hreach, hloop⟩
  · rintro ⟨a, b, rfl, hreach, hloop⟩
    exact ⟨a, rfl, Arrays.way_of_loop hreach hloop _⟩

/-! ## Beginnings -/

theorem begins_asElement {shown shown' : Value → Rendering}
    (h : ∀ element, (shown element).Begins (shown' element)) (element : Value) :
    (asElement shown element).Begins (asElement shown' element) := by
  cases element with
  | text value => exact .refl _
  | _ => exact h _

/-- What is shown with more depth begins with what is shown with less, and what is shown as a whole
stays the same. -/
theorem begins_textWithin (arrays : Arrays) (depth : Nat) (v : Value) :
    (v.textWithin arrays depth).Begins (v.textWithin arrays (depth + 1)) := by
  induction depth generalizing v with
  | zero =>
    by_cases harray : ∃ id, v = array id
    · obtain ⟨id, rfl⟩ := harray
      exact Rendering.begins_of_not_whole rfl List.nil_prefix
    · rw [(textWithin_of_not_array (not_exists.mp harray) 1).2]
      exact .refl _
  | succ depth ih =>
    by_cases harray : ∃ id, v = array id
    · obtain ⟨id, rfl⟩ := harray
      rw [textWithin_array, textWithin_array]
      refine (Rendering.Begins.append (.refl _) (Rendering.begins_join _ ?_)).append (.refl _)
      rw [List.forall₂_map_left_iff, List.forall₂_map_right_iff, List.forall₂_same]
      exact fun element _ => begins_asElement ih element
    · have hnot := not_exists.mp harray
      rw [(textWithin_of_not_array hnot _).2, (textWithin_of_not_array hnot (depth + 2)).2]
      exact .refl _

theorem begins_textWithin_of_le (v : Value) {depth' : Nat} (h : depth ≤ depth') :
    (v.textWithin arrays depth).Begins (v.textWithin arrays depth') := by
  induction depth', h using Nat.le_induction with
  | base => exact .refl _
  | succ depth' _ ih => exact ih.trans (begins_textWithin arrays depth' v)

/-- What is shown as a mere beginning has a character at least for each level. -/
theorem depth_le_length (h : (v.textWithin arrays depth).whole = false) :
    depth ≤ (v.textWithin arrays depth).text.length := by
  induction depth generalizing v with
  | zero => exact Nat.zero_le _
  | succ depth ih =>
    obtain ⟨id, rfl⟩ := exists_array_of_not_whole h
    rw [textWithin_array] at h ⊢
    generalize hparts : (arrays.getD id #[]).toList.map (asElement (textWithin arrays depth)) =
      parts at h ⊢
    have hjoin : (Rendering.join " , " parts).whole = false := by simpa using h
    obtain ⟨part, hmem, hpart, hlength⟩ := Rendering.exists_of_join hjoin
    obtain ⟨element, -, rfl⟩ := List.mem_map.mp (hparts ▸ hmem)
    have hsame := asElement_of_not_whole hpart
    rw [hsame] at hpart hlength
    have hopened : (Rendering.all "[ " ++ Rendering.join " , " parts).text.length =
        2 + (Rendering.join " , " parts).text.length := by
      rw [Rendering.append_of_whole rfl, String.length_append]
      rfl
    have hclosed := Rendering.length_append_le
      (Rendering.all "[ " ++ Rendering.join " , " parts) (.all " ]")
    have hdepth := ih hpart
    omega

/-- Something is shown of each line. -/
theorem line_ne_empty (arrays : Arrays) (v : Value) (length : Nat) :
    (v.line arrays length).text ≠ "" := by
  unfold line
  cases hwhole : (v.shown arrays length).whole with
  | true =>
    rw [Rendering.append_of_whole hwhole, ne_eq, String.append_eq_empty_iff]
    exact fun h => absurd h.2 (by decide)
  | false =>
    rw [Rendering.append_of_not_whole hwhole]
    intro hempty
    have hdepth : arrays.size + 1 + length ≤ (v.shown arrays length).text.length :=
      depth_le_length hwhole
    rw [hempty, String.length_empty] at hdepth
    omega

/-- A line that is not shown as a whole is shown with as many characters as it has to be. -/
theorem length_le_line {length : Nat} (h : (v.line arrays length).whole = false) :
    length ≤ (v.line arrays length).text.length := by
  unfold line at *
  have hshown : (v.shown arrays length).whole = false := by simpa using h
  have hdepth := depth_le_length hshown
  rw [Rendering.append_of_not_whole hshown]
  exact (Nat.le_add_left length _).trans hdepth

/-- The first characters of a line are the same however many more are shown. -/
theorem take_line (v : Value) {length length' : Nat} (h : length ≤ length') :
    (v.line arrays length').text.toList.take length =
      (v.line arrays length).text.toList.take length := by
  have hbegins : (v.line arrays length).Begins (v.line arrays length') :=
    (begins_textWithin_of_le v (Nat.add_le_add_left h _)).append (.refl _)
  cases hwhole : (v.line arrays length).whole with
  | true => rw [hbegins.eq_of_whole hwhole]
  | false =>
    obtain ⟨more, hmore⟩ := hbegins.text
    have hlength := length_le_line hwhole
    rw [← String.length_toList] at hlength
    rw [← hmore, List.take_append_of_le_length hlength]

end Value

end LoxLang
