import LoxLang.Proofs.Composition.Tables
import LoxLang.Proofs.Evaluation.Declaring
import LoxLang.Proofs.Evaluation.Inheritance

/-!
# Composition is a checked disjoint union

A class or trait that is declared either is refused, and the machine is as before, or gets under its
name the methods of the traits that it uses and of its body. It is refused for its traits exactly if
one of the names does not denote a trait, two of them have a method of the same name, or one has a
method that the body declares (`Machine.Refuses`). The traits are composed one after the other; what
has been composed so far only counts by its names (`Machine.Apart`).
-/

namespace LoxLang

/-! ## Traits that are used -/

/-- A reference denotes a trait. -/
def Machine.Holds (m : Machine) (ref : Reference) (t : Trait) : Prop :=
  ∃ id, Run.lookUp ref.id ref.name.text ref.name.line m = .ok (.traitValue id t) m

/-- The traits that a declaration uses cannot be composed, or not with the methods of its body. -/
def Machine.Refuses (m : Machine) (traits : List Reference) (methods : List NamedFunction) :
    Prop :=
  (∃ ref ∈ traits, ∀ t, ¬m.Holds ref t) ∨
  (∃ (i j : Nat) (ref ref' : Reference) (t t' : Trait) (name : String),
    i < j ∧ traits[i]? = some ref ∧ traits[j]? = some ref' ∧
      m.Holds ref t ∧ m.Holds ref' t' ∧ name ∈ t.methods.keys ∧ name ∈ t'.methods.keys) ∨
  ∃ ref ∈ traits, ∃ t, ∃ method ∈ methods, m.Holds ref t ∧ method.name.text ∈ t.methods.keys

/-- References that denote traits, no two of which have a method of the same name, nor any of them
one of a name that is taken. -/
structure Machine.Apart (m : Machine) (traits : List Reference) (taken : List String) : Prop where
  held : ∀ ref ∈ traits, ∃ t, m.Holds ref t
  pairs : traits.Pairwise fun ref other => ∀ t t', m.Holds ref t → m.Holds other t' →
    ∀ name ∈ t.methods.keys, name ∉ t'.methods.keys
  free : ∀ ref ∈ traits, ∀ t, m.Holds ref t → ∀ name ∈ t.methods.keys, name ∉ taken

/-- In a machine that a run can come to, a table of methods has each name once. -/
def Machine.Distinct (m : Machine) : Prop :=
  ∀ ref t, m.Holds ref t → t.methods.keys.Nodup

section

variable {m : Machine} {ref : Reference} {t : Trait} {rest : List Reference}
  {taken taken' : List String}

theorem Machine.Holds.unique {t' : Trait} (h : m.Holds ref t) (h' : m.Holds ref t') : t = t' := by
  obtain ⟨id, h⟩ := h
  obtain ⟨id', h'⟩ := h'
  rw [h] at h'
  cases h'
  rfl

theorem Machine.apart_nil (m : Machine) (taken : List String) : m.Apart [] taken :=
  ⟨by simp, .nil, by simp⟩

/-- After a first trait its names are taken, too. -/
theorem Machine.apart_cons_iff (h : m.Holds ref t)
    (hmore : ∀ name, name ∈ taken' ↔ name ∈ taken ∨ name ∈ t.methods.keys) :
    m.Apart (ref :: rest) taken ↔
      (∀ name ∈ t.methods.keys, name ∉ taken) ∧ m.Apart rest taken' := by
  constructor
  · intro apart
    obtain ⟨hfirst, hrest⟩ := List.pairwise_cons.mp apart.pairs
    refine ⟨apart.free ref List.mem_cons_self t h, ?_⟩
    refine ⟨fun other ho => apart.held other (List.mem_cons_of_mem _ ho), hrest, ?_⟩
    intro other ho t' ht' name hname htaken
    rcases (hmore name).mp htaken with htaken | hown
    · exact apart.free other (List.mem_cons_of_mem _ ho) t' ht' name hname htaken
    · exact hfirst other ho t t' h ht' name hown hname
  · rintro ⟨hfree, apart⟩
    refine ⟨?_, List.pairwise_cons.mpr ⟨?_, apart.pairs⟩, ?_⟩
    · intro other ho
      rcases List.mem_cons.mp ho with rfl | ho
      · exact ⟨t, h⟩
      · exact apart.held other ho
    · intro other ho t₁ t' h₁ ht' name hown hname
      obtain rfl := h.unique h₁
      exact apart.free other ho t' ht' name hname ((hmore name).mpr (.inr hown))
    · intro other ho t' ht' name hname htaken
      rcases List.mem_cons.mp ho with rfl | ho
      · obtain rfl := h.unique ht'
        exact hfree name hname htaken
      · exact apart.free other ho t' ht' name hname ((hmore name).mpr (.inl htaken))

/-- Traits are refused if they are not apart, or if one of them has a method of the body. -/
theorem Machine.not_refuses_iff {traits : List Reference} {methods : List NamedFunction} :
    ¬m.Refuses traits methods ↔ m.Apart traits [] ∧
      ∀ ref ∈ traits, ∀ t, m.Holds ref t →
        ∀ method ∈ methods, method.name.text ∉ t.methods.keys := by
  constructor
  · intro h
    refine ⟨⟨?_, ?_, by simp⟩, ?_⟩
    · intro ref href
      apply Classical.byContradiction
      intro hnone
      exact h (Or.inl ⟨ref, href, fun t ht => hnone ⟨t, ht⟩⟩)
    -- Two traits clash at two places of the list, which may hold the same reference.
    · rw [List.pairwise_iff_getElem]
      intro i j hi hj hij t t' ht ht' name hname hname'
      exact h (Or.inr (.inl ⟨i, j, traits[i], traits[j], t, t', name, hij,
        List.getElem?_eq_getElem hi, List.getElem?_eq_getElem hj, ht, ht', hname, hname'⟩))
    · intro ref href t ht method hmethod hname
      exact h (Or.inr (.inr ⟨ref, href, t, method, hmethod, ht, hname⟩))
  · rintro ⟨apart, hbody⟩ (⟨ref, href, hnone⟩ | hpair | ⟨ref, href, t, method, hmethod, ht, hname⟩)
    · obtain ⟨t, ht⟩ := apart.held ref href
      exact hnone t ht
    · obtain ⟨i, j, ref, ref', t, t', name, hij, hi, hj, ht, ht', hname, hname'⟩ := hpair
      obtain ⟨hlti, rfl⟩ := List.getElem?_eq_some_iff.mp hi
      obtain ⟨hltj, rfl⟩ := List.getElem?_eq_some_iff.mp hj
      exact List.pairwise_iff_getElem.mp apart.pairs i j hlti hltj hij t t' ht ht' name hname hname'
    · exact hbody ref href t ht method hmethod hname

end

/-! ## Composing -/

/-- A run is refused: it stops with a failure and has changed nothing. -/
def Refused (m : Machine) (stop : Stop) (m' : Machine) : Prop :=
  m' = m ∧ ∃ line cause, stop = .failed line cause

/-- A reference is looked up without any change, or refused. -/
theorem lookUp_or_refused (ref : Reference) (m : Machine) :
    (∃ v, Run.lookUp ref.id ref.name.text ref.name.line m = .ok v m) ∨
      ∃ stop, Run.lookUp ref.id ref.name.text ref.name.line m = .error stop m ∧
        Refused m stop m := by
  rcases local_or_global m ref.id with
    ⟨b, frame, holder, hb, hframe, hholder⟩ | ⟨b, frame, fault, hb, hframe, hfault⟩ | hglobal
  · rw [lookUp_local hb hframe, slotValue, Frames.get_eq_ok _ hholder]
    exact .inl ⟨_, rfl⟩
  · rw [lookUp_local hb hframe, slotValue, Frames.get_eq_error _ hfault]
    exact .inr ⟨_, rfl, rfl, _, _, rfl⟩
  · rw [lookUp_global hglobal]
    cases m.globals.get? ref.name.text with
    | none => exact .inr ⟨_, rfl, rfl, _, _, rfl⟩
    | some v => exact .inl ⟨v, rfl⟩

/-- The trait that a reference denotes, if it does denote one. -/
theorem ensures_trait (ref : Reference) (m : Machine) :
    Ensures (Run.lookUp ref.id ref.name.text ref.name.line >>= traitOf ref) m
      (fun t m' => m' = m ∧ m.Holds ref t)
      fun stop m' => Refused m stop m' ∧ ∀ t, ¬m.Holds ref t := by
  rw [ensures_bind]
  unfold Ensures
  rcases lookUp_or_refused ref m with ⟨v, hv⟩ | ⟨stop, hv, refused⟩
  · rw [hv]
    cases v with
    | traitValue id t => exact ⟨rfl, id, hv⟩
    | _ =>
      refine ⟨⟨rfl, _, _, rfl⟩, ?_⟩
      rintro t ⟨id, ht⟩
      rw [hv] at ht
      cases ht
  · rw [hv]
    refine ⟨refused, ?_⟩
    rintro t ⟨id, ht⟩
    rw [hv] at ht
    cases ht

/-- The methods of one trait are added unless one of the names is taken. -/
theorem ensures_addMethods_apart (line : Nat) (provided : Methods) {names : List String}
    (own : ∀ name ∈ names, name ∈ provided.keys) (distinct : names.Nodup) (composed : Methods)
    (m : Machine) :
    Ensures (addMethods line provided names composed) m
      (fun table m' => m' = m ∧ (∀ name ∈ names, name ∉ composed.keys) ∧
        ∀ name, name ∈ table.keys ↔ name ∈ composed.keys ∨ name ∈ names)
      fun stop m' => Refused m stop m' ∧ ¬∀ name ∈ names, name ∉ composed.keys := by
  induction names generalizing composed with
  | nil => exact ⟨rfl, by simp, by simp⟩
  | cons first rest ih =>
    obtain ⟨hfirst, hdistinct⟩ := List.nodup_cons.mp distinct
    unfold addMethods
    by_cases taken : composed.contains first = true
    · rw [if_pos taken]
      refine ⟨⟨rfl, _, _, rfl⟩, fun hfree => ?_⟩
      exact hfree first List.mem_cons_self ((Dictionary.mem_keys_iff composed first).mpr taken)
    · rw [if_neg taken]
      have hnew : first ∉ composed.keys := by rwa [Dictionary.mem_keys_iff]
      obtain ⟨method, hmethod⟩ :=
        Dictionary.exists_get?_of_mem_keys (own first List.mem_cons_self)
      simp only [hmethod]
      -- The names behind the first one are tried against a table that has it already; they differ
      -- from it, so nothing is refused that was not refused before.
      refine (ih (fun name hname => own name (List.mem_cons_of_mem _ hname)) hdistinct
        (composed.insert first method)).mono ?_ ?_
      · rintro table _ ⟨rfl, hfree, hkeys⟩
        simp only [Dictionary.mem_keys_insert, not_or] at hfree hkeys
        refine ⟨rfl, ?_, ?_⟩
        · intro name hname
          rcases List.mem_cons.mp hname with rfl | hname
          · exact hnew
          · exact (hfree name hname).2
        · intro name
          rw [hkeys, List.mem_cons, or_assoc, or_left_comm]
      · rintro stop _ ⟨hrefused, hclash⟩
        refine ⟨hrefused, fun hfree => hclash fun name hname => ?_⟩
        rw [Dictionary.mem_keys_insert, not_or]
        exact ⟨fun heq => hfirst (heq ▸ hname), hfree name (List.mem_cons_of_mem _ hname)⟩

/-- The methods of traits are added unless a name denotes no trait or a method is there already. -/
theorem ensures_addTraits_apart {m : Machine} (distinct : m.Distinct) (traits : List Reference)
    (composed : Methods) :
    Ensures (addTraits traits composed) m
      (fun table m' => m' = m ∧ m.Apart traits composed.keys ∧
        ∀ name, name ∈ table.keys ↔ name ∈ composed.keys ∨
          ∃ ref ∈ traits, ∃ t, m.Holds ref t ∧ name ∈ t.methods.keys)
      fun stop m' => Refused m stop m' ∧ ¬m.Apart traits composed.keys := by
  induction traits generalizing composed with
  | nil => exact ⟨rfl, m.apart_nil _, by simp⟩
  | cons ref rest ih =>
    have hnoTrait : (∀ t, ¬m.Holds ref t) → ¬m.Apart (ref :: rest) composed.keys := by
      intro hnone apart
      obtain ⟨t, ht⟩ := apart.held ref List.mem_cons_self
      exact hnone t ht
    have htrait := ensures_trait ref m
    simp only [addTraits, ensures_bind] at htrait ⊢
    refine htrait.mono (fun v m' h => h.mono ?_ ?_) ?_
    · rintro t m ⟨rfl, hholds⟩
      have hsorted : ∀ name, name ∈ t.methods.sortedKeys ↔ name ∈ t.methods.keys :=
        Dictionary.mem_sortedKeys t.methods
      have hadd := ensures_addMethods_apart ref.name.line t.methods
        (fun name hname => (hsorted name).mp hname)
        ((List.mergeSort_perm _ _).nodup_iff.mpr (distinct ref t hholds)) composed m
      simp only [hsorted] at hadd
      refine hadd.mono ?_ ?_
      · rintro table m ⟨rfl, hfree, hkeys⟩
        -- For the traits behind it, the methods of this one are taken, too.
        have hcons : m.Apart (ref :: rest) composed.keys ↔
            (∀ name ∈ t.methods.keys, name ∉ composed.keys) ∧ m.Apart rest table.keys :=
          Machine.apart_cons_iff hholds hkeys
        refine (ih table).mono ?_ ?_
        · rintro table' m ⟨rfl, hrest, hkeys'⟩
          refine ⟨rfl, hcons.mpr ⟨hfree, hrest⟩, fun name => ?_⟩
          rw [hkeys', hkeys, or_assoc]
          simp only [List.mem_cons, exists_eq_or_imp]
          have hhere : (∃ t', m.Holds ref t' ∧ name ∈ t'.methods.keys) ↔
              name ∈ t.methods.keys := by
            refine ⟨?_, fun hname => ⟨t, hholds, hname⟩⟩
            rintro ⟨t', ht', hname⟩
            exact hholds.unique ht' ▸ hname
          rw [hhere]
        · rintro stop _ ⟨hrefused, hclash⟩
          exact ⟨hrefused, fun apart => hclash (hcons.mp apart).2⟩
      · rintro stop _ ⟨hrefused, hclash⟩
        exact ⟨hrefused, fun apart => hclash (apart.free ref List.mem_cons_self t hholds)⟩
    · rintro stop _ ⟨hrefused, hnone⟩
      exact ⟨hrefused, hnoTrait hnone⟩
    · rintro stop _ ⟨hrefused, hnone⟩
      exact ⟨hrefused, hnoTrait hnone⟩

/-- What has been composed has each name once. -/
theorem ensures_addMethods_nodup (line : Nat) (provided : Methods) (names : List String)
    {composed : Methods} (h : composed.keys.Nodup) (m : Machine) :
    Ensures (addMethods line provided names composed) m (fun table _ => table.keys.Nodup)
      fun _ _ => True := by
  induction names generalizing composed with
  | nil => exact h
  | cons first rest ih =>
    unfold addMethods
    split
    · trivial
    · split
      · exact ih (Dictionary.nodup_keys_insert h _ _)
      · exact ih h

theorem ensures_addTraits_nodup (traits : List Reference) {composed : Methods}
    (h : composed.keys.Nodup) (m : Machine) :
    Ensures (addTraits traits composed) m (fun table _ => table.keys.Nodup)
      fun _ _ => True := by
  induction traits generalizing composed m with
  | nil => exact h
  | cons ref rest ih =>
    unfold addTraits
    refine ensures_last (fun v m => ensures_last (fun t m => ?_) m) m
    exact (ensures_addMethods_nodup ref.name.line t.methods t.methods.sortedKeys h m).bind
      fun table m hnodup => ih hnodup m

theorem nodup_keys_composed {traits : List Reference} {methods : List NamedFunction}
    {composed : Methods} {m m' : Machine} (h : composeTraits traits methods m = .ok composed m') :
    composed.keys.Nodup := by
  have hcompose : Ensures (composeTraits traits methods) m (fun table _ => table.keys.Nodup)
      fun _ _ => True := by
    have hempty : (Dictionary.empty : Methods).keys.Nodup := List.nodup_nil
    refine (ensures_addTraits_nodup traits hempty m).bind ?_
    intro table m hnodup
    exact ensures_last (fun _ _ => (ensures_pure _).mpr hnodup) m
  exact hcompose.of_ok h

theorem ensures_checkProvided_free (composed : Methods) (methods : List NamedFunction)
    (m : Machine) :
    Ensures (checkProvided composed methods) m
      (fun _ m' => m' = m ∧ ∀ method ∈ methods, method.name.text ∉ composed.keys)
      fun stop m' => Refused m stop m' ∧
        ∃ method ∈ methods, method.name.text ∈ composed.keys := by
  induction methods with
  | nil => exact ⟨rfl, by simp⟩
  | cons first rest ih =>
    unfold checkProvided
    by_cases taken : composed.contains first.name.text = true
    · rw [if_pos taken]
      have hmem := (Dictionary.mem_keys_iff composed first.name.text).mpr taken
      exact ⟨⟨rfl, _, _, rfl⟩, first, List.mem_cons_self, hmem⟩
    · rw [if_neg taken]
      refine ih.mono ?_ ?_
      · rintro _ _ ⟨rfl, hfree⟩
        refine ⟨rfl, fun method hmethod => ?_⟩
        rcases List.mem_cons.mp hmethod with rfl | hmethod
        · rwa [Dictionary.mem_keys_iff]
        · exact hfree method hmethod
      · rintro stop _ ⟨hrefused, method, hmethod, hmem⟩
        exact ⟨hrefused, method, List.mem_cons_of_mem _ hmethod, hmem⟩

/-- Traits are composed unless they are refused. -/
theorem ensures_composeTraits {m : Machine} (distinct : m.Distinct) (traits : List Reference)
    (methods : List NamedFunction) :
    Ensures (composeTraits traits methods) m
      (fun table m' => m' = m ∧ ¬m.Refuses traits methods ∧
        ∀ name, name ∈ table.keys ↔ ∃ ref ∈ traits, ∃ t, m.Holds ref t ∧ name ∈ t.methods.keys)
      fun stop m' => Refused m stop m' ∧ m.Refuses traits methods := by
  refine ensures_bind.mpr ((ensures_addTraits_apart distinct traits Dictionary.empty).mono ?_ ?_)
  · rintro table m ⟨rfl, apart, hkeys⟩
    have hnames : ∀ name, name ∈ table.keys ↔
        ∃ ref ∈ traits, ∃ t, m.Holds ref t ∧ name ∈ t.methods.keys := by
      intro name
      rw [hkeys]
      exact or_iff_right List.not_mem_nil
    refine ensures_bind.mpr ((ensures_checkProvided_free table methods m).mono ?_ ?_)
    · rintro _ m ⟨rfl, hfree⟩
      refine ⟨rfl, Machine.not_refuses_iff.mpr ⟨apart, ?_⟩, hnames⟩
      intro ref href t ht method hmethod hname
      exact hfree method hmethod ((hnames _).mpr ⟨ref, href, t, ht, hname⟩)
    · rintro stop m' ⟨hrefused, method, hmethod, hmem⟩
      obtain ⟨ref, href, t, ht, hname⟩ := (hnames _).mp hmem
      exact ⟨hrefused, .inr (.inr ⟨ref, href, t, method, hmethod, ht, hname⟩)⟩
  · rintro stop m' ⟨hrefused, hclash⟩
    refine ⟨hrefused, ?_⟩
    -- A clash among the traits is a refusal, since what is not refused would be apart.
    apply Classical.byContradiction
    intro haccepted
    exact hclash (Machine.not_refuses_iff.mp haccepted).1

/-! ## Declaring -/

/-- The methods of a class or trait are the disjoint union of those of the traits that it uses and
of those of its body: each name of a trait has the very function of the trait, and each name of the
body the last function of that name in it. -/
structure Machine.Unites (m : Machine) (traits : List Reference) (methods : List NamedFunction)
    (frame : Option FrameId) (table : Methods) : Prop where
  accepted : ¬m.Refuses traits methods
  distinct : table.keys.Nodup
  keys : ∀ name, name ∈ table.keys ↔
    (∃ ref ∈ traits, ∃ t, m.Holds ref t ∧ name ∈ t.methods.keys) ∨
      ∃ method ∈ methods, method.name.text = name
  ofTraits : ∀ ref ∈ traits, ∀ t, m.Holds ref t → ∀ name ∈ t.methods.keys,
    table.get? name = t.methods.get? name
  ofBody : ∀ name method, methodNamed? methods name = some method →
    table.get? name = some (method.closure frame (method.name.text = initializerName))

/-- A name is bound in the current scope, in which it takes the next slot if it is not a global, and
apart from that all that there was is as before. -/
structure Machine.Binds (m : Machine) (name : String) (v : Value) (m' : Machine) : Prop where
  current : m'.current = m.current
  outside : m.current = none → m'.globals = m.globals.insert name v
  inside : ∀ frame, m.current = some frame → m'.globals = m.globals ∧
    m'.frames.values frame = (m.frames.values frame).push v
  frames : ∀ id < m.frames.size, m.current ≠ some id →
    m'.frames.values id = m.frames.values id
  outer : ∀ id < m.frames.size, m'.frames.outer? id = m.frames.outer? id
  objects : ∀ id < m.objects.size, m'.objects[id]? = m.objects[id]?
  arrays : m'.arrays = m.arrays
  bindings : m'.bindings = m.bindings
  sink : m'.sink = m.sink

/-- The current frame is there. -/
def Machine.Rooted (m : Machine) : Prop :=
  ∀ frame, m.current = some frame → frame < m.frames.size

/-- What has been composed, with the methods of the body, is a disjoint union. -/
theorem unites_addBody {m : Machine} (distinct : m.Distinct) {traits : List Reference}
    {methods : List NamedFunction} {composed : Methods} {m' : Machine}
    (h : composeTraits traits methods m = .ok composed m') (frame : Option FrameId) :
    m.Unites traits methods frame (addBody composed methods frame) := by
  obtain ⟨-, haccepted, hkeys⟩ := (ensures_composeTraits distinct traits methods).of_ok h
  have hbody : ∀ ref ∈ traits, ∀ t, m.Holds ref t →
      ∀ method ∈ methods, method.name.text ∉ t.methods.keys :=
    (Machine.not_refuses_iff.mp haccepted).2
  refine ⟨haccepted, nodup_keys_addBody (nodup_keys_composed h) methods frame, ?_, ?_, ?_⟩
  · intro name
    rw [mem_keys_addBody, hkeys]
  · intro ref href t ht name hname
    obtain ⟨f, hf⟩ := Dictionary.exists_get?_of_mem_keys hname
    -- The body has no function of this name, which would have taken the place of that of the trait.
    have hnone : methodNamed? methods name = none := by
      unfold methodNamed?
      rw [List.find?_eq_none]
      intro method hmethod heq
      rw [decide_eq_true_iff] at heq
      exact hbody ref href t ht method (List.mem_reverse.mp hmethod) (heq ▸ hname)
    obtain ⟨id, hread⟩ := ht
    have hfound := (composeTraits_of_ok h name f).mpr ⟨ref, href, id, t, hread, hf⟩
    rw [get?_addBody, hnone, hf]
    exact hfound
  · intro name method hmethod
    rw [get?_addBody, hmethod]

/-- The machine behind a declaration. -/
def Machine.declared (m : Machine) (name : String) (v : Value) : Machine :=
  match m.current with
  | some frame => { m with frames := m.frames.define frame v }
  | none => { m with globals := m.globals.insert name v }

theorem Machine.declared_of_none {m : Machine} (h : m.current = none) (name : String) (v : Value) :
    m.declared name v = { m with globals := m.globals.insert name v } := by
  unfold declared
  rw [h]

theorem Machine.declared_of_some {m : Machine} {frame : FrameId} (h : m.current = some frame)
    (name : String) (v : Value) :
    m.declared name v = { m with frames := m.frames.define frame v } := by
  unfold declared
  rw [h]

theorem declare_eq (name : String) (v : Value) (m : Machine) :
    Run.declare name v m = .ok () (m.declared name v) := by
  cases h : m.current with
  | none => rw [Machine.declared_of_none h, Run.declare, h]
  | some frame => rw [Machine.declared_of_some h, Run.declare, h]

/-- A declaration binds its name, also behind new frames and objects. -/
theorem binds_declared {m m₁ : Machine} (rooted : m.Rooted) (name : String) (v : Value)
    (current : m₁.current = m.current) (globals : m₁.globals = m.globals)
    (size : m.frames.size ≤ m₁.frames.size)
    (values : ∀ id < m.frames.size, m₁.frames.values id = m.frames.values id)
    (outer : ∀ id < m.frames.size, m₁.frames.outer? id = m.frames.outer? id)
    (objects : ∀ id < m.objects.size, m₁.objects[id]? = m.objects[id]?)
    (arrays : m₁.arrays = m.arrays) (bindings : m₁.bindings = m.bindings)
    (sink : m₁.sink = m.sink) : m.Binds name v (m₁.declared name v) := by
  cases hcurrent : m.current with
  | none =>
    rw [Machine.declared_of_none (current.trans hcurrent)]
    exact
      { current := current
        outside := fun _ => congrArg (·.insert name v) globals
        inside := by simp [hcurrent]
        frames := fun id hid _ => values id hid
        outer := outer
        objects := objects
        arrays := arrays
        bindings := bindings
        sink := sink }
  | some frame =>
    rw [Machine.declared_of_some (current.trans hcurrent)]
    have hin : ∀ id < m.frames.size, id < m₁.frames.size :=
      fun id hid => Nat.lt_of_lt_of_le hid size
    refine ⟨current, by simp [hcurrent], ?_, ?_, ?_, objects, arrays, bindings, sink⟩
    · intro found hfound
      obtain rfl : frame = found := by simpa [hcurrent] using hfound
      -- The current frame was there before, so that its other variables are those it had.
      have hlt := rooted frame hcurrent
      refine ⟨globals, ?_⟩
      rw [Frames.values_define _ _ _ _ (hin frame hlt), if_pos rfl, values frame hlt]
    · intro id hid hne
      have hother : frame ≠ id := fun heq => hne (heq ▸ hcurrent)
      rw [Frames.values_define _ _ _ _ (hin id hid), if_neg hother, values id hid]
    · intro id hid
      rw [Frames.outer?_define _ _ _ _ (hin id hid), outer id hid]

/-- A declared trait is refused with its traits, or has their methods and those of its body. -/
theorem ensures_declareTrait {m : Machine} (distinct : m.Distinct) (rooted : m.Rooted) (name : Name)
    (traits : List Reference) (methods : List NamedFunction) :
    Ensures (declareTrait name traits methods) m
      (fun _ m' => ∃ id t, m.Binds name.text (.traitValue id t) m' ∧
        m.Unites traits methods m.current t.methods)
      fun stop m' => Refused m stop m' ∧ m.Refuses traits methods := by
  refine ensures_bind.mpr ((ensures_composeTraits distinct traits methods).outcome.mono ?_
    fun _ _ h => h)
  rintro composed m' ⟨⟨rfl, -⟩, hcomposed⟩
  have hunites := unites_addBody distinct hcomposed m'.current
  have hbinds : m'.Binds name.text (.traitValue m'.identities
      ⟨name.text, addBody composed methods m'.current⟩)
      (Machine.declared { m' with identities := m'.identities + 1 } name.text
        (.traitValue m'.identities ⟨name.text, addBody composed methods m'.current⟩)) :=
    binds_declared rooted _ _ rfl rfl (Nat.le_refl _) (fun _ _ => rfl) (fun _ _ => rfl)
      (fun _ _ => rfl) rfl rfl rfl
  unfold Ensures
  simp only [bind, EStateM.bind, Run.current, Run.newIdentity, declare_eq]
  exact ⟨_, _, hbinds, hunites⟩

/-- A reference denotes a class. -/
def Machine.HoldsClass (m : Machine) (ref : Reference) (c : Class) : Prop :=
  Run.lookUp ref.id ref.name.text ref.name.line m = .ok (.classValue c) m

/-- The superclass that a declaration names is none. -/
def Machine.RefusesSuperclass (m : Machine) (superclass : Option Reference) : Prop :=
  ∃ ref, superclass = some ref ∧ ∀ c, ¬m.HoldsClass ref c

/-- The class that a reference denotes, if it does denote one. -/
theorem ensures_superclass (ref : Reference) (m : Machine) :
    Ensures (Run.lookUp ref.id ref.name.text ref.name.line >>= superclassOf ref) m
      (fun c m' => m' = m ∧ m.HoldsClass ref c)
      fun stop m' => Refused m stop m' ∧ ∀ c, ¬m.HoldsClass ref c := by
  rw [ensures_bind]
  unfold Ensures
  rcases lookUp_or_refused ref m with ⟨v, hv⟩ | ⟨stop, hv, refused⟩
  · rw [hv]
    cases v with
    | classValue c => exact ⟨rfl, hv⟩
    | _ =>
      refine ⟨⟨rfl, _, _, rfl⟩, fun c hc => ?_⟩
      rw [Machine.HoldsClass, hv] at hc
      cases hc
  · rw [hv]
    refine ⟨refused, fun c hc => ?_⟩
    rw [Machine.HoldsClass, hv] at hc
    cases hc

/-- The frame of the methods of a class: the next new one if there is a superclass to hold. -/
def Machine.methodFrame (m : Machine) (superclass : Option Reference) : Option FrameId :=
  if superclass.isSome then some m.frames.next else m.current

/-- What follows the superclass in the declaration of a class. -/
theorem ensures_declareMethods {m : Machine} (distinct : m.Distinct) (rooted : m.Rooted)
    (name : Name) (extended : Option Class) (traits : List Reference)
    (methods classMethods : List NamedFunction) :
    Ensures (do
      let composed ← composeTraits traits methods
      let frame ← LoxLang.methodFrame extended
      let declared ← newClass name extended composed frame methods classMethods
      Run.declare name.text (.classValue declared)) m
      (fun _ m' => ∃ k, m.Binds name.text (.classValue k) m' ∧
        m.Unites traits methods (if extended.isSome then some m.frames.next else m.current)
          k.methods)
      fun stop m' => Refused m stop m' ∧ m.Refuses traits methods := by
  refine ensures_bind.mpr ((ensures_composeTraits distinct traits methods).outcome.mono ?_
    fun _ _ h => h)
  rintro composed m' ⟨⟨rfl, -⟩, hcomposed⟩
  have hunites := unites_addBody distinct hcomposed
    (if extended.isSome then some m'.frames.next else m'.current)
  have hobjects : ∀ id < m'.objects.size,
      ((m'.objects.push Dictionary.empty).push Dictionary.empty)[id]? = m'.objects[id]? := by
    intro id hid
    rw [Array.getElem?_push_lt (by rw [Array.size_push]; omega), Array.getElem_push_lt hid,
      Array.getElem?_eq_getElem hid]
  unfold Ensures
  -- Only a class that extends another makes a frame, the one that holds `super`.
  cases extended with
  | none =>
    simp only [bind, EStateM.bind, methodFrame_eq, newClass_eq, declare_eq]
    exact ⟨_, binds_declared rooted _ _ rfl rfl (Nat.le_refl _) (fun _ _ => rfl) (fun _ _ => rfl)
      hobjects rfl rfl rfl, hunites⟩
  | some c =>
    simp only [bind, EStateM.bind, methodFrame_eq, newClass_eq, declare_eq]
    refine ⟨_, binds_declared rooted _ _ rfl rfl ?_ ?_ ?_ hobjects rfl rfl rfl, hunites⟩
    · simp
    · intro id hid
      exact Frames.values_framed_of_lt _ _ _ hid
    · intro id hid
      exact Frames.outer?_framed_of_lt _ _ _ hid

/-- A declared class is refused with its superclass or its traits, or has the methods of its traits
and those of its body. -/
theorem ensures_declareClass {m : Machine} (distinct : m.Distinct) (rooted : m.Rooted) (name : Name)
    (superclass : Option Reference) (traits : List Reference)
    (methods classMethods : List NamedFunction) :
    Ensures (declareClass name superclass traits methods classMethods) m
      (fun _ m' => ¬m.RefusesSuperclass superclass ∧ ∃ k, m.Binds name.text (.classValue k) m' ∧
        m.Unites traits methods (m.methodFrame superclass) k.methods)
      fun stop m' => Refused m stop m' ∧
        (m.RefusesSuperclass superclass ∨ m.Refuses traits methods) := by
  cases superclass with
  | none =>
    refine (ensures_declareMethods distinct rooted name none traits methods classMethods).mono ?_ ?_
    · rintro _ m' ⟨k, hbinds, hunites⟩
      refine ⟨?_, k, hbinds, hunites⟩
      rintro ⟨ref, href, -⟩
      cases href
    · rintro stop m' ⟨hrefused, hrefuses⟩
      exact ⟨hrefused, .inr hrefuses⟩
  | some ref =>
    have hsuperclass := ensures_bind.mp (ensures_superclass ref m)
    unfold declareClass
    refine ensures_bind.mpr (hsuperclass.mono (fun v m' h => ?_) ?_)
    · refine ensures_bind.mpr (ensures_map.mpr (h.mono ?_ ?_))
      · rintro c m ⟨rfl, hc⟩
        have hclass : ¬m.RefusesSuperclass (some ref) := by
          rintro ⟨other, hother, hnone⟩
          cases hother
          exact hnone c hc
        refine (ensures_declareMethods distinct rooted name (some c) traits methods
          classMethods).mono ?_ ?_
        · rintro _ m' ⟨k, hbinds, hunites⟩
          exact ⟨hclass, k, hbinds, hunites⟩
        · rintro stop m' ⟨hrefused, hrefuses⟩
          exact ⟨hrefused, .inr hrefuses⟩
      · rintro stop m' ⟨hrefused, hnone⟩
        exact ⟨hrefused, .inl ⟨ref, rfl, hnone⟩⟩
    · rintro stop m' ⟨hrefused, hnone⟩
      exact ⟨hrefused, .inl ⟨ref, rfl, hnone⟩⟩

end LoxLang
