import LoxLang.Proofs.Scoping.Lexical
import LoxLang.Proofs.Tree.Renaming

/-!
# Scopes with another name for a variable

Resolution looks names up by their texts, among the variables of the scopes around and among the
traits that are known. `Renamed` relates what it has found in a tree to what it has found in the
tree with another name for a variable, one that is new to the tree. An operation of the walk
`Survives` the renaming if what is found stays so related, unless the operation meets a misuse.
-/

namespace LoxLang

namespace Scoping

open Analysis

/-- A search among elements on which two conditions agree. -/
theorem findIdx?_congr {α : Type} {p q : α → Bool} {l : List α} (h : ∀ x ∈ l, p x = q x) :
    l.findIdx? p = l.findIdx? q := by
  induction l with
  | nil => rfl
  | cons x rest ih =>
    rw [List.findIdx?_cons, List.findIdx?_cons, h x List.mem_cons_self,
      ih fun y hy => h y (List.mem_cons_of_mem x hy)]

/-! ## Scopes -/

section

variable (ρ : Renaming)

/-- The name in a scope after the renaming. -/
def nameIn (holding : Holding) (text : String) : String :=
  if text = ρ.old ∧ holding = .renamed then ρ.new else text

def Variable.rename (holding : Holding) (v : Variable) : Variable :=
  { v with name := { v.name with text := nameIn ρ holding v.name.text } }

/-- A scope that holds what is said by the old name and does not have the new one, and the scope in
its place after the renaming. -/
structure RenamedScope (holding : Holding) (scope scope' : Scope) : Prop where
  fresh : ρ.new ∉ scope.names
  held : holding = .nothing ↔ ρ.old ∉ scope.names
  slots : scope'.slots = scope.slots.map (Variable.rename ρ holding)
  traits : ∀ text, text ≠ ρ.new →
    scope'.traits.get? (nameIn ρ holding text) = scope.traits.get? text

/-- Scopes that are renamed one by one. -/
inductive RenamedScopes : List Holding → List Scope → List Scope → Prop
  | nil : RenamedScopes [] [] []
  | cons {holding : Holding} {scope scope' : Scope} {around : List Holding}
      {outer outer' : List Scope} (inner : RenamedScope ρ holding scope scope')
      (rest : RenamedScopes around outer outer') :
      RenamedScopes (holding :: around) (scope :: outer) (scope' :: outer')

end

section

variable {ρ : Renaming} {holding : Holding} {scope scope' : Scope} {around : List Holding}
  {scopes scopes' : List Scope} {text : String}

theorem mem_names_of_mem {v : Variable} (hv : v ∈ scope.slots) : v.name.text ∈ scope.names :=
  List.mem_map_of_mem hv

/-- A variable has the name that is looked for if and only if it had it before. -/
theorem RenamedScope.nameIn_eq_written_iff (h : RenamedScope ρ holding scope scope')
    (around : List Holding) (other : text ≠ ρ.new) {v : Variable} (hv : v ∈ scope.slots) :
    nameIn ρ holding v.name.text = ρ.written (holding :: around) text ↔ v.name.text = text := by
  have hmem := mem_names_of_mem hv
  have hnew : v.name.text ≠ ρ.new := fun heq => h.fresh (heq ▸ hmem)
  have hold : holding = .nothing → v.name.text ≠ ρ.old :=
    fun hnothing heq => h.held.mp hnothing (heq ▸ hmem)
  cases holding with
  | nothing => grind [nameIn, Renaming.written]
  | renamed => grind [nameIn, Renaming.written, denotesRenamed]
  | other => grind [nameIn, Renaming.written, denotesRenamed]

theorem RenamedScope.slot? (h : RenamedScope ρ holding scope scope') (around : List Holding)
    (other : text ≠ ρ.new) :
    scope'.slot? (ρ.written (holding :: around) text) = scope.slot? text := by
  unfold Scope.slot?
  rw [h.slots, List.findIdx?_map]
  refine findIdx?_congr fun v hv => ?_
  rw [Bool.eq_iff_iff]
  simp only [Function.comp_apply, beq_iff_eq]
  exact h.nameIn_eq_written_iff around other hv

theorem RenamedScope.declares (h : RenamedScope ρ holding scope scope') (around : List Holding)
    (other : text ≠ ρ.new) :
    scope'.declares (ρ.written (holding :: around) text) = scope.declares text := by
  unfold Scope.declares
  rw [h.slot? around other]

/-- A name that a scope has is written as the scope has it. -/
theorem RenamedScope.written_of_mem (h : RenamedScope ρ holding scope scope')
    (around : List Holding) (mem : text ∈ scope.names) :
    ρ.written (holding :: around) text = nameIn ρ holding text := by
  have hold : holding = .nothing → text ≠ ρ.old :=
    fun hnothing heq => h.held.mp hnothing (heq ▸ mem)
  cases holding with
  | nothing => simp [Renaming.written, nameIn, hold rfl]
  | renamed => simp [Renaming.written, nameIn, denotesRenamed]
  | other => simp [Renaming.written, nameIn, denotesRenamed]

/-- A name that a scope does not have is written as it is outside. -/
theorem RenamedScope.written_of_not_mem (h : RenamedScope ρ holding scope scope')
    (around : List Holding) (missing : text ∉ scope.names) :
    ρ.written (holding :: around) text = ρ.written around text := by
  unfold Renaming.written
  by_cases hold : text = ρ.old
  · have hnothing : holding = .nothing := h.held.mpr (hold ▸ missing)
    subst hnothing
    rfl
  · simp [hold]

theorem RenamedScope.update (h : RenamedScope ρ holding scope scope') (around : List Holding)
    (other : text ≠ ρ.new) (change : Progress → Progress) :
    RenamedScope ρ holding (scope.update text change)
      (scope'.update (ρ.written (holding :: around) text) change) := by
  have hnames := Scope.names_update scope text change
  refine ⟨hnames ▸ h.fresh, hnames ▸ h.held, ?_, h.traits⟩
  simp only [Scope.update, h.slots, List.map_map]
  refine List.map_congr_left fun v hv => ?_
  have hsame := h.nameIn_eq_written_iff around other hv
  by_cases hname : v.name.text = text
  · simp only [Function.comp_apply, Variable.rename, hsame.mpr hname, if_pos hname, if_true]
  · have hne : nameIn ρ holding v.name.text ≠ ρ.written (holding :: around) text :=
      fun heq => hname (hsame.mp heq)
    simp only [Function.comp_apply, Variable.rename, hname, hne, if_false]

/-- The name of a declaration is written as the scope has it afterwards. -/
theorem written_hold (ρ : Renaming) (chosen : Bool) (text : String) (holding : Holding)
    (around : List Holding) :
    ρ.written (ρ.hold chosen text holding :: around) text =
      nameIn ρ (ρ.hold chosen text holding) text := by
  unfold Renaming.written Renaming.hold nameIn
  by_cases hold : text = ρ.old
  · cases chosen <;> simp [hold, denotesRenamed]
  · simp [hold]

/-- A new name is declared, which hides a trait of that name. -/
theorem RenamedScope.declare (h : RenamedScope ρ holding scope scope') {name : Name}
    (other : name.text ≠ ρ.new) (missing : name.text ∉ scope.names) (chosen : Bool) :
    RenamedScope ρ (ρ.hold chosen name.text holding)
      ⟨scope.slots ++ [⟨name, .declared⟩], scope.traits.erase name.text⟩
      ⟨scope'.slots ++
          [⟨{ name with text := nameIn ρ (ρ.hold chosen name.text holding) name.text }, .declared⟩],
        scope'.traits.erase (nameIn ρ (ρ.hold chosen name.text holding) name.text)⟩ := by
  have hnames : Scope.names ⟨scope.slots ++ [⟨name, .declared⟩], scope.traits.erase name.text⟩ =
      scope.names ++ [name.text] := by simp [Scope.names]
  -- Only a declaration of the old name changes what the scope holds.
  by_cases hold : name.text = ρ.old
  · have hnothing : holding = .nothing := h.held.mpr (hold ▸ missing)
    subst hnothing
    refine ⟨?_, ?_, ?_, ?_⟩
    · rw [hnames]
      simp [h.fresh, other.symm]
    · rw [hnames]
      cases chosen <;> simp [Renaming.hold, hold]
    · -- None of the variables before has the old name.
      have hbefore : scope.slots.map (Variable.rename ρ .nothing) =
          scope.slots.map (Variable.rename ρ (ρ.hold chosen name.text .nothing)) := by
        refine List.map_congr_left fun v hv => ?_
        have hne : v.name.text ≠ ρ.old :=
          fun heq => missing (hold ▸ heq ▸ mem_names_of_mem hv)
        simp [Variable.rename, nameIn, hne]
      simp only [h.slots, List.map_append, List.map_cons, List.map_nil, hbefore, Variable.rename]
    · intro text htext
      have htraits := h.traits text htext
      cases chosen <;> grind [nameIn, Renaming.hold, Dictionary.get?_erase]
  · have hsame : ρ.hold chosen name.text holding = holding := if_neg hold
    have hname : nameIn ρ holding name.text = name.text := by simp [nameIn, hold]
    rw [hsame, hname]
    refine ⟨?_, ?_, ?_, ?_⟩
    · rw [hnames]
      simp [h.fresh, other.symm]
    · rw [hnames, h.held]
      simp [Ne.symm hold]
    · simp only [h.slots, List.map_append, List.map_cons, List.map_nil, Variable.rename, hname]
    · intro text htext
      have htraits := h.traits text htext
      grind [nameIn, Dictionary.get?_erase]

theorem RenamedScopes.lookup? (h : RenamedScopes ρ around scopes scopes')
    (other : text ≠ ρ.new) :
    Scoping.lookup? (ρ.written around text) scopes' = Scoping.lookup? text scopes := by
  induction h with
  | nil => rfl
  | @cons holding scope scope' around outer outer' inner rest ih =>
    unfold Scoping.lookup?
    rw [inner.slot? around other]
    cases hslot : scope.slot? text with
    | some slot => rfl
    | none =>
      have missing : text ∉ scope.names := by
        rw [← Scope.declares_iff, Scope.declares, hslot]
        simp
      rw [inner.written_of_not_mem around missing, ih]

theorem RenamedScopes.markRead (h : RenamedScopes ρ around scopes scopes')
    (other : text ≠ ρ.new) :
    RenamedScopes ρ around (Scoping.markRead text scopes)
      (Scoping.markRead (ρ.written around text) scopes') := by
  induction h with
  | nil => exact .nil
  | @cons holding scope scope' around outer outer' inner rest ih =>
    unfold Scoping.markRead
    rw [inner.declares around other]
    by_cases mem : text ∈ scope.names
    · rw [if_pos (Scope.declares_iff.mpr mem), if_pos (Scope.declares_iff.mpr mem)]
      exact .cons (inner.update around other _) rest
    · have hmissing : ¬scope.declares text = true := fun h => mem (Scope.declares_iff.mp h)
      rw [if_neg hmissing, if_neg hmissing, inner.written_of_not_mem around mem]
      exact .cons inner ih

theorem RenamedScopes.knownTrait? (h : RenamedScopes ρ around scopes scopes')
    (other : text ≠ ρ.new) (globals : KnownTraits) :
    Scoping.knownTrait? (ρ.written around text) globals scopes' =
      Scoping.knownTrait? text globals scopes := by
  induction h with
  | nil => simp [Renaming.written, denotesRenamed, Scoping.knownTrait?]
  | @cons holding scope scope' around outer outer' inner rest ih =>
    unfold Scoping.knownTrait?
    rw [inner.declares around other]
    -- Whatever a scope declares by the name hides the traits outside.
    by_cases mem : text ∈ scope.names
    · rw [if_pos (Scope.declares_iff.mpr mem), if_pos (Scope.declares_iff.mpr mem),
        inner.written_of_mem around mem, inner.traits text other]
    · have hmissing : ¬scope.declares text = true := fun h => mem (Scope.declares_iff.mp h)
      rw [if_neg hmissing, if_neg hmissing, inner.written_of_not_mem around mem, ih]

end

/-! ## What the walk has found -/

/-- What a walk without problems has found before and after the renaming. -/
structure Renamed (ρ : Renaming) (around : List Holding) (a a' : Analysis) : Prop where
  scopes : RenamedScopes ρ around a.scopes a'.scopes
  globalTraits : a'.globalTraits = a.globalTraits
  bindings : a'.bindings = a.bindings
  problems : a'.problems = []

/-- If an operation meets no misuse, another one does the same after the renaming. It leads from the
scopes around a part of the tree to those behind it. -/
def Survives (ρ : Renaming) (around behind : List Holding) (step step' : Analysis → Analysis) :
    Prop :=
  ∀ a a' : Analysis, Renamed ρ around a a' → (step a).problems = [] →
    Renamed ρ behind (step a) (step' a')

section

variable {ρ : Renaming} {around p q r : List Holding} {a a' : Analysis} {text : String}

theorem survives_id (around : List Holding) : Survives ρ around around (fun a => a) fun a => a :=
  fun _ _ h _ => h

/-- Two operations one after the other. -/
theorem Survives.comp {first first' second second' : Analysis → Analysis}
    (h : Survives ρ p q first first') (h' : Survives ρ q r second second')
    (mono : ∀ a : Analysis, a.Precedes (second a)) :
    Survives ρ p r (fun a => second (first a)) fun a => second' (first' a) := by
  intro a a' hrenamed clean
  exact h' _ _ (h a a' hrenamed ((mono _).clean clean)) clean

/-- A misuse that is not met in the tree as it was is not met in the other one. -/
theorem survives_noteIf {condition condition' : Analysis → Bool} (word word' : Name)
    (cause : Cause)
    (h : ∀ a a', Renamed ρ around a a' → condition' a' = true → condition a = true) :
    Survives ρ around around (fun a => a.noteIf (condition a) word cause)
      fun a => a.noteIf (condition' a) word' cause := by
  intro a a' hrenamed clean
  dsimp only at clean ⊢
  cases hcondition : condition a with
  | true => simp [hcondition, noteIf, note] at clean
  | false =>
    have hcondition' : condition' a' = false := by
      rw [← Bool.not_eq_true]
      intro htrue
      rw [h a a' hrenamed htrue] at hcondition
      cases hcondition
    rw [hcondition']
    exact hrenamed

/-- An operation on the innermost scope. -/
theorem survives_changeInnermost {change change' : Scope → Scope}
    (h : ∀ holding outer scope scope', around = holding :: outer →
      RenamedScope ρ holding scope scope' →
        RenamedScope ρ holding (change scope) (change' scope')) :
    Survives ρ around around (·.changeInnermost change) (·.changeInnermost change') := by
  rintro ⟨scopes, _, _, _⟩ ⟨scopes', _, _, _⟩ ⟨hscopes, htraits, hbindings, hproblems⟩ _
  dsimp only at hscopes htraits hbindings hproblems
  cases hscopes with
  | nil => exact ⟨.nil, htraits, hbindings, hproblems⟩
  | cons inner rest => exact ⟨.cons (h _ _ _ _ rfl inner) rest, htraits, hbindings, hproblems⟩

theorem survives_bind (id : RefId) (other : text ≠ ρ.new) :
    Survives ρ around around (·.bind id text) (·.bind id (ρ.written around text)) := by
  intro a a' hrenamed _
  obtain ⟨hscopes, htraits, hbindings, hproblems⟩ := hrenamed
  show Renamed ρ around (a.bind id text) (a'.bind id _)
  unfold Analysis.bind
  rw [hscopes.lookup? other]
  cases lookup? text a.scopes with
  | none => exact ⟨hscopes, htraits, hbindings, hproblems⟩
  | some b => exact ⟨hscopes, htraits, by rw [hbindings], hproblems⟩

theorem survives_bindRead (id : RefId) (other : text ≠ ρ.new) :
    Survives ρ around around (·.bindRead id text) (·.bindRead id (ρ.written around text)) := by
  intro a a' hrenamed clean
  obtain ⟨hscopes, htraits, hbindings, hproblems⟩ := survives_bind id other a a' hrenamed clean
  exact ⟨hscopes.markRead other, htraits, hbindings, hproblems⟩

/-! ## Declarations -/

/-- A name that the innermost scope does not have is put into its next slot. -/
theorem declare_of_not_mem {name : Name} (missing : name.text ∉ scope.names)
    (outer : List Scope) (globals : KnownTraits) (bindings : Bindings) (problems : List Problem) :
    Analysis.declare ⟨scope :: outer, globals, bindings, problems⟩ name =
      ⟨⟨scope.slots ++ [⟨name, .declared⟩], scope.traits.erase name.text⟩ :: outer, globals,
        bindings, problems⟩ := by
  have hdeclares : ¬Scope.declares ⟨scope.slots, scope.traits.erase name.text⟩ name.text = true :=
    fun h => missing (Scope.declares_iff.mp h)
  simp [declare, changeTraits, changeInnermost, Scope.push, hdeclares]

/-- A declaration that is no misuse. -/
theorem survives_declare (chosen : Bool) {name : Name} (other : name.text ≠ ρ.new) :
    Survives ρ around (ρ.declare chosen name.text around) (·.declare name)
      (·.declare (name.rename ρ (ρ.declare chosen name.text around))) := by
  rintro ⟨scopes, globals, bindings, problems⟩ ⟨scopes', _, _, _⟩
    ⟨hscopes, htraits, hbindings, hproblems⟩ clean
  dsimp only at hscopes htraits hbindings hproblems
  subst htraits hbindings hproblems
  cases hscopes with
  | nil =>
    dsimp only [Renaming.declare]
    rw [Name.rename_nil]
    exact ⟨.nil, rfl, rfl, rfl⟩
  | @cons holding scope scope' further outer outer' inner rest =>
    -- A second declaration of the name in its scope would be a misuse.
    have missing : name.text ∉ scope.names := by
      intro mem
      have hdeclares : Scope.declares ⟨scope.slots, scope.traits.erase name.text⟩ name.text =
          true := Scope.declares_iff.mpr mem
      simp [declare, changeTraits, hdeclares, note] at clean
    let name' : Name := { name with text := nameIn ρ (ρ.hold chosen name.text holding) name.text }
    have hname : name.rename ρ (ρ.declare chosen name.text (holding :: further)) = name' :=
      congrArg (Name.mk · name.line) (written_hold ρ chosen name.text holding further)
    have missing' : name'.text ∉ scope'.names := by
      have hdeclares := inner.declares [ρ.hold chosen name.text holding] other
      rw [inner.written_of_not_mem _ missing, written_hold] at hdeclares
      rw [← Scope.declares_iff, hdeclares, Scope.declares_iff]
      exact missing
    rw [hname]
    dsimp only
    rw [declare_of_not_mem missing, declare_of_not_mem missing']
    exact ⟨.cons (inner.declare other missing chosen) rest, rfl, rfl, rfl⟩

/-- A variable of the innermost scope makes progress. -/
theorem survives_update (other : text ≠ ρ.new) (change : Progress → Progress) :
    Survives ρ around around (·.changeInnermost (·.update text change))
      (·.changeInnermost (·.update (ρ.written around text) change)) := by
  refine survives_changeInnermost ?_
  rintro holding outer scope scope' rfl inner
  exact inner.update outer other change

theorem survives_declareName (chosen : Bool) {name : Name} (other : name.text ≠ ρ.new) :
    Survives ρ around (ρ.declare chosen name.text around) (fun a => (a.declare name).define name)
      fun a =>
        (a.declare (name.rename ρ (ρ.declare chosen name.text around))).define
          (name.rename ρ (ρ.declare chosen name.text around)) :=
  (survives_declare chosen other).comp (survives_update other _) fun a => precedes_define a name

theorem survives_declareParameters (params : List Name) (position : Nat)
    (fresh : ρ.new ∉ params.map Name.text) :
    Survives ρ around (ρ.declareParameters position params around)
      (fun a => params.foldl declareParameter a)
      fun a => (renameParameters ρ position params around).foldl declareParameter a := by
  induction params generalizing position around with
  | nil => exact survives_id around
  | cons param rest ih =>
    rw [List.map_cons, List.mem_cons, not_or] at fresh
    have hdeclare : Survives ρ around (ρ.declareVariable position param around)
        (·.declareParameter param)
        (·.declareParameter (param.rename ρ (ρ.declareVariable position param around))) :=
      (survives_declare _ (Ne.symm fresh.1)).comp (survives_update (Ne.symm fresh.1) _)
        fun a => .of_eq (problems_changeInnermost a _)
    exact hdeclare.comp (ih (position + 1) fresh.2) (precedes_declareParameters rest)

theorem survives_enter : Survives ρ around (.nothing :: around) enter enter := by
  rintro a a' ⟨hscopes, htraits, hbindings, hproblems⟩ _
  refine ⟨.cons ⟨?_, ?_, rfl, fun _ _ => rfl⟩ hscopes, htraits, hbindings, hproblems⟩
  · simp [Scope.names, Scope.empty]
  · simp [Scope.names, Scope.empty]

theorem survives_leave (holding : Holding) : Survives ρ (holding :: around) around leave leave := by
  rintro ⟨scopes, _, _, _⟩ ⟨scopes', _, _, _⟩ ⟨hscopes, htraits, hbindings, hproblems⟩ clean
  dsimp only at hscopes htraits hbindings hproblems
  subst htraits hbindings hproblems
  cases hscopes with
  | @cons _ scope scope' _ _ _ inner rest =>
    refine ⟨rest, rfl, rfl, ?_⟩
    have hnever : scope'.neverRead = scope.neverRead.map (Variable.rename ρ holding) := by
      unfold Scope.neverRead
      rw [inner.slots, List.filter_map]
      rfl
    -- A variable that is never read would be a misuse.
    have hread : scope.neverRead = [] := by
      have hboth := List.append_eq_nil_iff.mp clean
      exact List.map_eq_nil_iff.mp hboth.2
    simp [leave, hnever, hread]

/-- The scope of `this` or `super`. -/
theorem survives_implicit {name : String} (old : ρ.old ≠ name) (new : ρ.new ≠ name) (line : Nat) :
    Survives ρ around (.nothing :: around) (fun a => a.enter.bindImplicit name line)
      fun a => a.enter.bindImplicit name line := by
  refine survives_enter.comp (survives_changeInnermost ?_) fun a => precedes_bindImplicit a _ _
  intro holding outer scope scope' heq inner
  have hnothing : holding = .nothing := (List.cons.inj heq).1.symm
  subst hnothing
  have hnames : (scope.push ⟨⟨name, line⟩, .read⟩).names = scope.names ++ [name] :=
    Scope.names_push scope _
  refine ⟨?_, ?_, ?_, inner.traits⟩
  · rw [hnames]
    simp [inner.fresh, new]
  · rw [hnames, inner.held]
    simp [old]
  · simp [Scope.push, inner.slots, Variable.rename, nameIn]

/-! ## Occurrences -/

theorem Renamed.inOwnInitializer (h : Renamed ρ around a a') (other : text ≠ ρ.new) :
    a'.inOwnInitializer (ρ.written around text) = a.inOwnInitializer text := by
  obtain ⟨hscopes, -, -, -⟩ := h
  unfold Analysis.inOwnInitializer
  revert hscopes
  generalize a.scopes = scopes
  generalize a'.scopes = scopes'
  intro hscopes
  cases hscopes with
  | nil => rfl
  | @cons holding scope scope' further outer outer' inner rest =>
    simp only [inner.slots, List.any_map]
    rw [Bool.eq_iff_iff, List.any_eq_true, List.any_eq_true]
    refine exists_congr fun v => and_congr_right fun hv => ?_
    have hsame := inner.nameIn_eq_written_iff further other hv
    simp only [Function.comp_apply, Variable.rename, decide_eq_true_eq, hsame]

theorem survives_resolveReference (ref : Reference) (other : ref.name.text ≠ ρ.new) :
    Survives ρ around around (resolveReference ref) (resolveReference (ref.rename ρ around)) :=
  (survives_noteIf ref.name (ref.rename ρ around).name .ownInitializer fun _ _ h hown =>
    (h.inOwnInitializer other).symm.trans hown).comp (survives_bindRead ref.id other)
    fun a => precedes_bindRead a ref.id ref.name.text

theorem survives_resolveReferences (refs : List Reference)
    (fresh : ρ.new ∉ refs.map (·.name.text)) :
    Survives ρ around around (resolveReferences refs)
      (resolveReferences (refs.map (Reference.rename ρ around))) := by
  induction refs with
  | nil => exact survives_id around
  | cons ref rest ih =>
    rw [List.map_cons, List.mem_cons, not_or] at fresh
    exact (survives_resolveReference ref (Ne.symm fresh.1)).comp (ih fresh.2)
      (precedes_resolveReferences rest)

/-- A word that is no name of a variable. -/
theorem survives_bindRead_word (id : RefId) {word : String} (old : ρ.old ≠ word)
    (new : ρ.new ≠ word) :
    Survives ρ around around (·.bindRead id word) (·.bindRead id word) := by
  have hword : ρ.written around word = word := by simp [Renaming.written, old.symm]
  have hread : Survives ρ around around (·.bindRead id word)
      (·.bindRead id (ρ.written around word)) := survives_bindRead id new.symm
  rwa [hword] at hread

theorem survives_note (word word' : Name) (cause : Cause) :
    Survives ρ around around (·.note word cause) (·.note word' cause) := by
  intro a a' _ clean
  simp [note] at clean

theorem survives_resolveThis (body : ClassContext) (id : RefId) (line : Nat) :
    Survives ρ around around (resolveThis body id line) (resolveThis body id line) := by
  cases body with
  | outside => exact survives_note _ _ _
  | plain | derived | traitBody =>
    exact survives_bindRead_word id ρ.old_explicit.1 ρ.new_explicit.1

theorem survives_resolveSuper (body : ClassContext) (id : RefId) (line : Nat) :
    Survives ρ around around (resolveSuper body id line) (resolveSuper body id line) := by
  cases body with
  | outside | traitBody | plain => exact survives_note _ _ _
  | derived => exact survives_bindRead_word id ρ.old_explicit.2 ρ.new_explicit.2

theorem survives_checkReturn (context : FunctionContext) (line : Nat) :
    Survives ρ around around (checkReturn context line) (checkReturn context line) :=
  survives_noteIf _ _ _ fun _ _ _ h => h

theorem survives_checkReturnValue (context : FunctionContext) (line : Nat) :
    Survives ρ around around (checkReturnValue context line) (checkReturnValue context line) :=
  survives_noteIf _ _ _ fun _ _ _ h => h

end

end Scoping

end LoxLang
