import LoxLang.Proofs.Scoping.Lexical
import LoxLang.Proofs.Tree.Relabelling

/-!
# Resolving a tree at another place

A tree is resolved in the same way with other lines and later references, whatever is bound before.
What it may meet of the text before it are the traits declared there: only in the composition of
traits a program behind another one can have problems that it does not have on its own.
-/

namespace LoxLang

namespace Scoping

/-- Whether a problem is one of the composition of traits. -/
def Cause.isConflict : Cause → Bool
  | .traitsShare _ => true
  | .providedByTrait _ => true
  | _ => false

variable (ρ : Relabelling)

def Variable.relabel (v : Variable) : Variable :=
  { v with name := v.name.relabel ρ }

def Problem.relabel (p : Problem) : Problem :=
  { p with word := p.word.relabel ρ }

/-- Another place of a tree: other lines, how much later its references are, what is bound before,
and whether other traits may be known there. -/
structure Resettling where
  line : Nat → Nat
  shift : RefId
  base : Bindings
  lax : Bool

namespace Resettling

variable (w : Resettling)

/-- The labels at the other place. -/
def labels : Relabelling :=
  ⟨w.line, (· + w.shift)⟩

/-- The problems that are the same at both places. -/
def shared (problems : List Problem) : List Problem :=
  problems.filter fun p => !(w.lax && p.cause.isConflict)

/-- A scope with the same variables and, unless others may be known, the same traits. -/
structure MatchesScope (s s' : Scope) : Prop where
  slots : s'.slots = s.slots.map (Variable.relabel w.labels)
  traits : w.lax = false → s'.traits = s.traits

/-- Scopes that match one by one. -/
inductive MatchesScopes : List Scope → List Scope → Prop
  | nil : MatchesScopes [] []
  | cons {s s' : Scope} {ss ss' : List Scope} (inner : w.MatchesScope s s')
      (outer : MatchesScopes ss ss') : MatchesScopes (s :: ss) (s' :: ss')

/-- What has been found at the two places. -/
structure Matches (a a' : Analysis) : Prop where
  scopes : w.MatchesScopes a.scopes a'.scopes
  traits : w.lax = false → a'.globalTraits = a.globalTraits
  problems : w.shared a'.problems = (w.shared a.problems).map (Problem.relabel w.labels)
  earlier : ∀ id < w.shift, a'.bindings[id]? = w.base[id]?
  bindings : ∀ id, a'.bindings[id + w.shift]? = a.bindings[id]?

variable {w : Resettling}

/-! ## Scopes -/

section

variable {s s' : Scope} {ss ss' : List Scope}

theorem MatchesScope.slot? (h : w.MatchesScope s s') (name : String) :
    s'.slot? name = s.slot? name := by
  unfold Scope.slot?
  rw [h.slots, List.findIdx?_map]
  rfl

theorem MatchesScope.declares (h : w.MatchesScope s s') (name : String) :
    s'.declares name = s.declares name := by
  unfold Scope.declares
  rw [h.slot?]

theorem MatchesScope.push (h : w.MatchesScope s s') (v : Variable) :
    w.MatchesScope (s.push v) (s'.push (v.relabel w.labels)) := by
  refine ⟨?_, h.traits⟩
  simp only [Scope.push, h.slots, List.map_append, List.map_cons, List.map_nil]

theorem MatchesScope.update (h : w.MatchesScope s s') (name : String)
    (change : Progress → Progress) :
    w.MatchesScope (s.update name change) (s'.update name change) := by
  refine ⟨?_, h.traits⟩
  simp only [Scope.update, h.slots, List.map_map]
  refine List.map_congr_left fun v _ => ?_
  by_cases hname : v.name.text = name <;> simp [Variable.relabel, Name.relabel, hname]

theorem MatchesScopes.lookup? (h : w.MatchesScopes ss ss') (name : String) :
    Scoping.lookup? name ss' = Scoping.lookup? name ss := by
  induction h with
  | nil => rfl
  | cons inner outer ih =>
    unfold Scoping.lookup?
    rw [inner.slot?, ih]

theorem MatchesScopes.markRead (h : w.MatchesScopes ss ss') (name : String) :
    w.MatchesScopes (Scoping.markRead name ss) (Scoping.markRead name ss') := by
  induction h with
  | nil => exact .nil
  | cons inner outer ih =>
    unfold Scoping.markRead
    rw [inner.declares]
    split
    · exact .cons (inner.update name _) outer
    · exact .cons inner ih

theorem MatchesScopes.knownTrait? (h : w.MatchesScopes ss ss') (strict : w.lax = false)
    (name : String) (globals : KnownTraits) :
    Scoping.knownTrait? name globals ss' = Scoping.knownTrait? name globals ss := by
  induction h with
  | nil => rfl
  | cons inner outer ih =>
    unfold Scoping.knownTrait?
    rw [inner.declares, inner.traits strict, ih]

end

/-! ## Steps of the walk -/

section

variable {a a' : Analysis}

theorem shared_append (problems problems' : List Problem) :
    w.shared (problems ++ problems') = w.shared problems ++ w.shared problems' :=
  List.filter_append ..

theorem shared_relabel (problems : List Problem) :
    w.shared (problems.map (Problem.relabel w.labels)) =
      (w.shared problems).map (Problem.relabel w.labels) := by
  unfold shared
  rw [List.filter_map]
  rfl

/-- More problems at both places, which are the same but for those of the composition of traits. -/
theorem Matches.report (h : w.Matches a a') {problems problems' : List Problem}
    (hsame : w.shared problems' = (w.shared problems).map (Problem.relabel w.labels)) :
    w.Matches { a with problems := a.problems ++ problems }
      { a' with problems := a'.problems ++ problems' } := by
  refine ⟨h.scopes, h.traits, ?_, h.earlier, h.bindings⟩
  simp only [w.shared_append, h.problems, hsame, List.map_append]

theorem Matches.note (h : w.Matches a a') (word : Name) (cause : Cause) :
    w.Matches (a.note word cause) (a'.note (word.relabel w.labels) cause) :=
  h.report (w.shared_relabel [⟨word, cause⟩])

theorem Matches.noteIf (h : w.Matches a a') (condition : Bool) (word : Name) (cause : Cause) :
    w.Matches (a.noteIf condition word cause)
      (a'.noteIf condition (word.relabel w.labels) cause) := by
  unfold Analysis.noteIf
  split
  · exact h.note word cause
  · exact h

theorem Matches.changeInnermost (h : w.Matches a a') {change change' : Scope → Scope}
    (hchange : ∀ s s', w.MatchesScope s s' → w.MatchesScope (change s) (change' s')) :
    w.Matches (a.changeInnermost change) (a'.changeInnermost change') := by
  obtain ⟨ss, globals, table, problems⟩ := a
  obtain ⟨ss', globals', table', problems'⟩ := a'
  obtain ⟨scopes, traits, problems, earlier, bindings⟩ := h
  cases scopes with
  | nil => exact ⟨.nil, traits, problems, earlier, bindings⟩
  | cons inner outer =>
    exact ⟨.cons (hchange _ _ inner) outer, traits, problems, earlier, bindings⟩

theorem Matches.changeTraits (h : w.Matches a a') {change change' : KnownTraits → KnownTraits}
    (hchange : w.lax = false → change' = change) :
    w.Matches (a.changeTraits change) (a'.changeTraits change') := by
  obtain ⟨ss, globals, table, problems⟩ := a
  obtain ⟨ss', globals', table', problems'⟩ := a'
  obtain ⟨scopes, traits, problems, earlier, bindings⟩ := h
  have hsame {known known' : KnownTraits} (htraits : w.lax = false → known' = known)
      (strict : w.lax = false) : change' known' = change known := by
    rw [hchange strict, htraits strict]
  cases scopes with
  | nil => exact ⟨.nil, hsame traits, problems, earlier, bindings⟩
  | cons inner outer =>
    exact ⟨.cons ⟨inner.slots, hsame inner.traits⟩ outer, traits, problems, earlier, bindings⟩

theorem Matches.enter (h : w.Matches a a') : w.Matches a.enter a'.enter :=
  ⟨.cons ⟨rfl, fun _ => rfl⟩ h.scopes, h.traits, h.problems, h.earlier, h.bindings⟩

theorem MatchesScope.neverRead {s s' : Scope} (h : w.MatchesScope s s') :
    s'.neverRead = s.neverRead.map (Variable.relabel w.labels) := by
  unfold Scope.neverRead
  rw [h.slots, List.filter_map]
  rfl

theorem Matches.leave (h : w.Matches a a') : w.Matches a.leave a'.leave := by
  obtain ⟨ss, globals, table, problems⟩ := a
  obtain ⟨ss', globals', table', problems'⟩ := a'
  obtain ⟨scopes, traits, problems, earlier, bindings⟩ := h
  cases scopes with
  | nil => exact ⟨.nil, traits, problems, earlier, bindings⟩
  | @cons s s' ss ss' inner outer =>
    have houter : w.Matches ⟨ss, globals, table, _⟩ ⟨ss', globals', table', _⟩ :=
      ⟨outer, traits, problems, earlier, bindings⟩
    refine houter.report ?_
    rw [inner.neverRead, List.map_map, ← w.shared_relabel, List.map_map]
    rfl

theorem Matches.declare (h : w.Matches a a') (name : Name) :
    w.Matches (a.declare name) (a'.declare (name.relabel w.labels)) := by
  have herased : w.Matches (a.changeTraits (·.erase name.text))
      (a'.changeTraits (·.erase name.text)) := h.changeTraits fun _ => rfl
  have htext : (name.relabel w.labels).text = name.text := rfl
  unfold Analysis.declare
  rw [htext]
  generalize a.changeTraits (·.erase name.text) = b at herased ⊢
  generalize a'.changeTraits (·.erase name.text) = b' at herased ⊢
  have hscopes := herased.scopes
  dsimp only
  generalize b.scopes = ss at hscopes ⊢
  generalize b'.scopes = ss' at hscopes ⊢
  cases hscopes with
  | nil => exact herased
  | cons inner outer =>
    dsimp only
    rw [inner.declares]
    split
    · exact herased.note name .alreadyDeclared
    · exact herased.changeInnermost fun _ _ hs => hs.push ⟨name, .declared⟩

theorem Matches.define (h : w.Matches a a') (name : Name) :
    w.Matches (a.define name) (a'.define (name.relabel w.labels)) :=
  h.changeInnermost fun _ _ hs => hs.update name.text _

theorem Matches.declareParameter (h : w.Matches a a') (name : Name) :
    w.Matches (a.declareParameter name) (a'.declareParameter (name.relabel w.labels)) :=
  (h.declare name).changeInnermost fun _ _ hs => hs.update name.text _

theorem Matches.bindImplicit (h : w.Matches a a') (name : String) (line : Nat) :
    w.Matches (a.bindImplicit name line) (a'.bindImplicit name (w.line line)) :=
  h.changeInnermost fun _ _ hs => hs.push ⟨⟨name, line⟩, .read⟩

theorem Matches.bind (h : w.Matches a a') (id : RefId) (name : String) :
    w.Matches (a.bind id name) (a'.bind (id + w.shift) name) := by
  unfold Analysis.bind
  rw [h.scopes.lookup?]
  cases Scoping.lookup? name a.scopes with
  | none => exact h
  | some binding =>
    refine ⟨h.scopes, h.traits, h.problems, fun other hother => ?_, fun other => ?_⟩
    · rw [Std.TreeMap.getElem?_insert, if_neg]
      · exact h.earlier other hother
      · intro heq
        obtain rfl : id + w.shift = other := Std.LawfulEqCmp.eq_of_compare heq
        exact Nat.not_lt.mpr (Nat.le_add_left w.shift id) hother
    · simp only [Std.TreeMap.getElem?_insert, h.bindings other, Nat.compare_eq_eq,
        Nat.add_right_cancel_iff]

theorem Matches.bindRead (h : w.Matches a a') (id : RefId) (name : String) :
    w.Matches (a.bindRead id name) (a'.bindRead (id + w.shift) name) :=
  let hbind := h.bind id name
  { hbind with scopes := hbind.scopes.markRead name }

theorem Matches.inOwnInitializer (h : w.Matches a a') (name : String) :
    a'.inOwnInitializer name = a.inOwnInitializer name := by
  have hscopes := h.scopes
  unfold Analysis.inOwnInitializer
  generalize a.scopes = ss at hscopes
  generalize a'.scopes = ss' at hscopes
  cases hscopes with
  | nil => rfl
  | cons inner outer =>
    simp only [inner.slots, List.any_map]
    rfl

end

end Resettling

/-! ## Composition of traits -/

/-- Nothing but problems of the composition of traits has been added. -/
def Conflicts (a a' : Analysis) : Prop :=
  ∃ noted, a' = { a with problems := a.problems ++ noted } ∧ ∀ p ∈ noted, p.cause.isConflict = true

theorem Conflicts.refl (a : Analysis) : Conflicts a a :=
  ⟨[], by simp, by simp⟩

theorem Conflicts.trans {a b c : Analysis} (h : Conflicts a b) (h' : Conflicts b c) :
    Conflicts a c := by
  obtain ⟨noted, rfl, hnoted⟩ := h
  obtain ⟨noted', rfl, hnoted'⟩ := h'
  refine ⟨noted ++ noted', by simp, fun p hp => ?_⟩
  exact (List.mem_append.mp hp).elim (hnoted p) (hnoted' p)

theorem conflicts_note (a : Analysis) (word : Name) {cause : Cause} (h : cause.isConflict = true) :
    Conflicts a (a.note word cause) :=
  ⟨[⟨word, cause⟩], rfl, by simpa using h⟩

theorem conflicts_provide (word : Name) (methods provided : List String) (a : Analysis) :
    Conflicts a (provide word methods (provided, a)).2 := by
  induction methods generalizing provided a with
  | nil => exact .refl a
  | cons method rest ih =>
    unfold provide
    split
    · exact (conflicts_note a word rfl).trans (ih provided _)
    · exact ih _ a

theorem conflicts_provideAll (traits : List Reference) (provided : List String) (a : Analysis) :
    Conflicts a (provideAll traits (provided, a)).2 := by
  induction traits generalizing provided a with
  | nil => exact .refl a
  | cons used rest ih =>
    unfold provideAll
    split
    · exact (conflicts_provide used.name _ provided a).trans (ih _ _)
    · exact ih provided a

theorem conflicts_noteProvided (provided : List String) (methods : List NamedFunction)
    (a : Analysis) : Conflicts a (noteProvided provided methods a) := by
  induction methods generalizing a with
  | nil => exact .refl a
  | cons method rest ih =>
    refine Conflicts.trans ?_ (ih _)
    unfold Analysis.noteIf
    split
    · exact conflicts_note a _ rfl
    · exact .refl a

theorem conflicts_checkComposition (traits : List Reference) (methods : List NamedFunction)
    (a : Analysis) : Conflicts a (checkComposition traits methods a).2 :=
  (conflicts_provideAll traits [] a).trans (conflicts_noteProvided _ methods _)

namespace Resettling

variable {w : Resettling}

section

variable {a a' : Analysis}

/-- Where other traits may be known, problems of their composition do not count. -/
theorem Matches.conflicts (h : w.Matches a a') (lax : w.lax = true) {b b' : Analysis}
    (hb : Conflicts a b) (hb' : Conflicts a' b') : w.Matches b b' := by
  have hnone : ∀ noted : List Problem, (∀ p ∈ noted, p.cause.isConflict = true) →
      w.shared noted = [] := by
    intro noted hnoted
    refine List.filter_eq_nil_iff.mpr fun p hp => ?_
    simp [lax, hnoted p hp]
  obtain ⟨noted, rfl, hnoted⟩ := hb
  obtain ⟨noted', rfl, hnoted'⟩ := hb'
  exact h.report (by rw [hnone noted hnoted, hnone noted' hnoted']; rfl)

theorem Matches.provide (h : w.Matches a a') (word : Name) (methods provided : List String) :
    (Scoping.provide (word.relabel w.labels) methods (provided, a')).1 =
        (Scoping.provide word methods (provided, a)).1 ∧
      w.Matches (Scoping.provide word methods (provided, a)).2
        (Scoping.provide (word.relabel w.labels) methods (provided, a')).2 := by
  induction methods generalizing provided a a' with
  | nil => exact ⟨rfl, h⟩
  | cons method rest ih =>
    unfold Scoping.provide
    split
    · exact ih (h.note word (.traitsShare method)) provided
    · exact ih h _

theorem Matches.provideAll (h : w.Matches a a') (strict : w.lax = false) (traits : List Reference)
    (provided : List String) :
    (Scoping.provideAll (traits.map (Reference.relabel w.labels)) (provided, a')).1 =
        (Scoping.provideAll traits (provided, a)).1 ∧
      w.Matches (Scoping.provideAll traits (provided, a)).2
        (Scoping.provideAll (traits.map (Reference.relabel w.labels)) (provided, a')).2 := by
  induction traits generalizing provided a a' with
  | nil => exact ⟨rfl, h⟩
  | cons used rest ih =>
    -- What is known of a trait depends on its name alone, which relabelling leaves as it is.
    have hknown : knownTrait? (used.relabel w.labels).name.text a'.globalTraits a'.scopes =
        knownTrait? used.name.text a.globalTraits a.scopes := by
      rw [h.traits strict]
      exact h.scopes.knownTrait? strict used.name.text a.globalTraits
    rw [List.map_cons]
    unfold Scoping.provideAll
    rw [hknown]
    split
    · next methods _ =>
      let sorted := methods.mergeSort fun m n => decide (m ≤ n)
      obtain ⟨hprovided, hmatches⟩ := h.provide used.name sorted provided
      have hpair : Scoping.provide (used.name.relabel w.labels) sorted (provided, a') =
          ((Scoping.provide used.name sorted (provided, a)).1,
            (Scoping.provide (used.name.relabel w.labels) sorted (provided, a')).2) :=
        Prod.ext hprovided rfl
      show (Scoping.provideAll _ (Scoping.provide (used.name.relabel w.labels) sorted _)).1 = _ ∧
        w.Matches _ (Scoping.provideAll _
          (Scoping.provide (used.name.relabel w.labels) sorted _)).2
      rw [hpair]
      exact ih hmatches _
    · exact ih h provided

theorem Matches.noteProvided (h : w.Matches a a') (provided : List String)
    (methods : List NamedFunction) :
    w.Matches (Scoping.noteProvided provided methods a)
      (Scoping.noteProvided provided (methods.map (NamedFunction.relabel w.labels)) a') := by
  induction methods generalizing a a' with
  | nil => exact h
  | cons method rest ih =>
    rw [List.map_cons]
    unfold Scoping.noteProvided
    rw [NamedFunction.relabel_name]
    exact ih (h.noteIf _ _ _)

theorem withMethods_relabel (ρ : Relabelling) (provided : List String)
    (methods : List NamedFunction) :
    withMethods provided (methods.map (NamedFunction.relabel ρ)) = withMethods provided methods := by
  unfold withMethods
  rw [List.foldl_map]
  simp only [NamedFunction.relabel_name, Name.relabel]

theorem Matches.checkComposition (h : w.Matches a a') (traits : List Reference)
    (methods : List NamedFunction) :
    let found := Scoping.checkComposition traits methods a
    let found' := Scoping.checkComposition (traits.map (Reference.relabel w.labels))
      (methods.map (NamedFunction.relabel w.labels)) a'
    (w.lax = false → found'.1 = found.1) ∧ w.Matches found.2 found'.2 := by
  intro found found'
  cases hlax : w.lax with
  | true =>
    exact ⟨fun h => Bool.noConfusion h, h.conflicts hlax (conflicts_checkComposition ..)
      (conflicts_checkComposition ..)⟩
  | false =>
    obtain ⟨hprovided, hmatches⟩ := h.provideAll hlax traits []
    unfold found found' Scoping.checkComposition
    simp only [withMethods_relabel, hprovided]
    exact ⟨fun _ => trivial, hmatches.noteProvided _ methods⟩

/-! ## Names and words -/

theorem Matches.resolveReference (h : w.Matches a a') (ref : Reference) :
    w.Matches (Scoping.resolveReference ref a)
      (Scoping.resolveReference (ref.relabel w.labels) a') := by
  unfold Scoping.resolveReference
  have hown : a'.inOwnInitializer (ref.relabel w.labels).name.text =
      a.inOwnInitializer ref.name.text := h.inOwnInitializer ref.name.text
  rw [hown]
  exact (h.noteIf _ ref.name .ownInitializer).bindRead ref.id ref.name.text

theorem Matches.resolveReferences (h : w.Matches a a') (refs : List Reference) :
    w.Matches (Scoping.resolveReferences refs a)
      (Scoping.resolveReferences (refs.map (Reference.relabel w.labels)) a') := by
  induction refs generalizing a a' with
  | nil => exact h
  | cons ref rest ih => exact ih (h.resolveReference ref)

theorem Matches.resolveThis (h : w.Matches a a') (body : ClassContext) (id : RefId) (line : Nat) :
    w.Matches (Scoping.resolveThis body id line a)
      (Scoping.resolveThis body (id + w.shift) (w.line line) a') := by
  cases body with
  | outside => exact h.note ⟨thisName, line⟩ .thisOutsideClass
  | _ => exact h.bindRead id thisName

theorem Matches.resolveSuper (h : w.Matches a a') (body : ClassContext) (id : RefId) (line : Nat) :
    w.Matches (Scoping.resolveSuper body id line a)
      (Scoping.resolveSuper body (id + w.shift) (w.line line) a') := by
  cases body with
  | outside => exact h.note ⟨superName, line⟩ .superOutsideClass
  | traitBody => exact h.note ⟨superName, line⟩ .superInTrait
  | plain => exact h.note ⟨superName, line⟩ .superWithoutSuperclass
  | derived => exact h.bindRead id superName

theorem Matches.checkReturn (h : w.Matches a a') (context : FunctionContext) (line : Nat) :
    w.Matches (Scoping.checkReturn context line a)
      (Scoping.checkReturn context (w.line line) a') :=
  h.noteIf _ (returnWord line) .returnOutsideFunction

theorem Matches.checkReturnValue (h : w.Matches a a') (context : FunctionContext) (line : Nat) :
    w.Matches (Scoping.checkReturnValue context line a)
      (Scoping.checkReturnValue context (w.line line) a') :=
  h.noteIf _ (returnWord line) .valueFromInitializer

theorem Matches.declareName (h : w.Matches a a') (name : Name) :
    w.Matches ((a.declare name).define name)
      ((a'.declare (name.relabel w.labels)).define (name.relabel w.labels)) :=
  (h.declare name).define name

theorem Matches.declareParameters (h : w.Matches a a') (params : List Name) :
    w.Matches (params.foldl Analysis.declareParameter a)
      ((params.map (Name.relabel w.labels)).foldl Analysis.declareParameter a') := by
  induction params generalizing a a' with
  | nil => exact h
  | cons param rest ih => exact ih (h.declareParameter param)

theorem Matches.resolveClassHead (h : w.Matches a a') (name : Name)
    (superclass : Option Reference) (traits : List Reference) (methods : List NamedFunction) :
    w.Matches (Scoping.resolveClassHead name superclass traits methods a)
      (Scoping.resolveClassHead (name.relabel w.labels)
        (superclass.map (Reference.relabel w.labels)) (traits.map (Reference.relabel w.labels))
        (relabelMethods w.labels methods) a') := by
  rw [relabelMethods_eq_map]
  have hname := h.declareName name
  have hcheck {b b' : Analysis} (hb : w.Matches b b') :
      w.Matches (Scoping.checkComposition traits methods (Scoping.resolveReferences traits b)).2 _ :=
    ((hb.resolveReferences traits).checkComposition traits methods).2
  cases superclass with
  | none => exact hcheck hname
  | some ref => exact hcheck ((hname.noteIf _ ref.name .ownSuperclass).resolveReference ref)

theorem Matches.enterClass (h : w.Matches a a') (name : Name) (superclass : Option Reference) :
    w.Matches (Scoping.enterClass name superclass a)
      (Scoping.enterClass (name.relabel w.labels) (superclass.map (Reference.relabel w.labels))
        a') := by
  cases superclass with
  | none => exact h.enter.bindImplicit thisName name.line
  | some ref => exact (h.enter.bindImplicit superName name.line).enter.bindImplicit thisName name.line

theorem Matches.leaveClass (h : w.Matches a a') (superclass : Option Reference) :
    w.Matches (Scoping.leaveClass superclass a)
      (Scoping.leaveClass (superclass.map (Reference.relabel w.labels)) a') := by
  cases superclass with
  | none => exact h.leave
  | some ref => exact h.leave.leave

theorem Matches.resolveTraitHead (h : w.Matches a a') (name : Name) (traits : List Reference)
    (methods : List NamedFunction) :
    w.Matches (Scoping.resolveTraitHead name traits methods a)
      (Scoping.resolveTraitHead (name.relabel w.labels) (traits.map (Reference.relabel w.labels))
        (relabelMethods w.labels methods) a') := by
  obtain ⟨hprovided, hmatches⟩ :=
    ((h.declareName name).resolveReferences traits).checkComposition traits methods
  unfold Scoping.resolveTraitHead
  rw [relabelMethods_eq_map]
  exact Matches.changeTraits hmatches fun strict =>
    congrArg (fun provided known => Dictionary.insert known name.text provided) (hprovided strict)

end

/-! ## Trees -/

mutual

theorem matches_resolveExpr : ∀ (e : Expr) (context : Context) (a a' : Analysis),
    w.Matches a a' →
      w.Matches (resolveExpr context e a) (resolveExpr context (e.relabel w.labels) a')
  | .literal _, _, _, _, h => h
  | .unary _ _ operand, context, _, _, h => matches_resolveExpr operand context _ _ h
  | .binary left _ _ right, context, _, _, h =>
    matches_resolveExpr right context _ _ (matches_resolveExpr left context _ _ h)
  | .logical left _ _ right, context, _, _, h =>
    matches_resolveExpr right context _ _ (matches_resolveExpr left context _ _ h)
  | .conditional condition thenBranch elseBranch, context, _, _, h =>
    matches_resolveExpr elseBranch context _ _
      (matches_resolveExpr thenBranch context _ _ (matches_resolveExpr condition context _ _ h))
  | .grouping inner, context, _, _, h => matches_resolveExpr inner context _ _ h
  | .variable ref, _, _, _, h => h.resolveReference ref
  | .assign ref value, context, _, _, h =>
    (matches_resolveExpr value context _ _ h).bind ref.id ref.name.text
  | .call callee arguments _, context, _, _, h =>
    matches_resolveArguments arguments context _ _ (matches_resolveExpr callee context _ _ h)
  | .get object _, context, _, _, h => matches_resolveExpr object context _ _ h
  | .set object _ value, context, _, _, h =>
    matches_resolveExpr object context _ _ (matches_resolveExpr value context _ _ h)
  | .this id line, context, _, _, h => h.resolveThis context.body id line
  | .super id line _, context, _, _, h => h.resolveSuper context.body id line
  | .lambda _ function, _, _, _, h => matches_resolveFunction function _ _ _ h

theorem matches_resolveArguments : ∀ (arguments : List Expr) (context : Context)
    (a a' : Analysis), w.Matches a a' →
      w.Matches (resolveArguments context arguments a)
        (resolveArguments context (relabelArguments w.labels arguments) a')
  | [], _, _, _, h => h
  | argument :: rest, context, _, _, h =>
    matches_resolveArguments rest context _ _ (matches_resolveExpr argument context _ _ h)

theorem matches_resolveFunction : ∀ (f : Function) (context : Context) (a a' : Analysis),
    w.Matches a a' →
      w.Matches (resolveFunction context f a) (resolveFunction context (f.relabel w.labels) a')
  | .mk params body, context, _, _, h =>
    (matches_resolveBody body context _ _ (h.enter.declareParameters params)).leave

theorem matches_resolveMethods : ∀ (methods : List NamedFunction) (body : ClassContext)
    (a a' : Analysis), w.Matches a a' →
      w.Matches (resolveMethods body methods a)
        (resolveMethods body (relabelMethods w.labels methods) a')
  | [], _, _, _, h => h
  | .mk name function :: rest, body, _, _, h =>
    matches_resolveMethods rest body _ _
      (matches_resolveFunction function ⟨methodContext name, body⟩ _ _ h)

theorem matches_resolveClassMethods : ∀ (methods : List NamedFunction) (body : ClassContext)
    (a a' : Analysis), w.Matches a a' →
      w.Matches (resolveClassMethods body methods a)
        (resolveClassMethods body (relabelMethods w.labels methods) a')
  | [], _, _, _, h => h
  | .mk _ function :: rest, body, _, _, h =>
    matches_resolveClassMethods rest body _ _
      (matches_resolveFunction function ⟨.ordinary, body⟩ _ _ h)

theorem matches_resolveStmt : ∀ (s : Stmt) (context : Context) (a a' : Analysis),
    w.Matches a a' →
      w.Matches (resolveStmt context s a) (resolveStmt context (s.relabel w.labels) a')
  | .expression value, context, _, _, h => matches_resolveExpr value context _ _ h
  | .print value, context, _, _, h => matches_resolveExpr value context _ _ h
  | .varDecl name none, _, _, _, h => h.declareName name
  | .varDecl name (some initial), context, _, _, h =>
    (matches_resolveExpr initial context _ _ (h.declare name)).define name
  | .block body, context, _, _, h => (matches_resolveBody body context _ _ h.enter).leave
  | .ifThen condition thenBranch none, context, _, _, h =>
    matches_resolveStmt thenBranch context _ _ (matches_resolveExpr condition context _ _ h)
  | .ifThen condition thenBranch (some elseBranch), context, _, _, h =>
    matches_resolveStmt elseBranch context _ _
      (matches_resolveStmt thenBranch context _ _ (matches_resolveExpr condition context _ _ h))
  | .whileDo condition body, context, _, _, h =>
    matches_resolveStmt body context _ _ (matches_resolveExpr condition context _ _ h)
  | .breakLoop _, _, _, _, h => h
  | .returnWith line none, context, _, _, h => h.checkReturn context.function line
  | .returnWith line (some value), context, _, _, h =>
    matches_resolveExpr value context _ _
      ((h.checkReturn context.function line).checkReturnValue context.function line)
  | .funDecl (.mk name function), _, _, _, h =>
    matches_resolveFunction function _ _ _ (h.declareName name)
  | .classDecl name superclass traits methods classMethods, _, _, _, h => by
    have hcontext : classContext (superclass.map (Reference.relabel w.labels)) =
        classContext superclass := by
      cases superclass <;> rfl
    have hmethods := matches_resolveMethods methods (classContext superclass) _ _
      ((h.resolveClassHead name superclass traits methods).enterClass name superclass)
    have hclassMethods := matches_resolveClassMethods classMethods (classContext superclass) _ _
      hmethods
    simp only [Stmt.relabel, resolveStmt, hcontext]
    exact hclassMethods.leaveClass superclass
  | .traitDecl name traits methods, _, _, _, h =>
    (matches_resolveMethods methods .traitBody _ _
      ((h.resolveTraitHead name traits methods).enter.bindImplicit thisName name.line)).leave

theorem matches_resolveBody : ∀ (body : List Stmt) (context : Context) (a a' : Analysis),
    w.Matches a a' →
      w.Matches (resolveBody context body a) (resolveBody context (relabelBody w.labels body) a')
  | [], _, _, _, h => h
  | statement :: rest, context, _, _, h =>
    matches_resolveBody rest context _ _ (matches_resolveStmt statement context _ _ h)

end

end Resettling

end Scoping

end LoxLang
