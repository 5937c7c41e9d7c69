import LoxLang.Proofs.Scoping.Lexical

/-!
# Reports of one kind

A walk reports problems in the order in which it meets them. What it reports of one kind does not
depend on what it reports of others, so each kind can be accounted for by itself: `Reports` says
what a part of the walk adds to the reports of a kind. Declarations, reads and the heads of classes
and traits add nothing to a kind that has none of their own problems (`Unconcerned`).
-/

namespace LoxLang

namespace Scoping

open Analysis

/-- All misuses of names that resolution reports of a program, in order. -/
def misuses (program : List Stmt) : List Problem :=
  match resolve program with
  | .ok _ => []
  | .error problems => problems

theorem misuses_eq (program : List Stmt) :
    misuses program =
      (resolveBody ⟨.outside, .outside⟩ program Analysis.start.restart).problems := by
  unfold misuses resolve resolveWith
  cases hproblems :
    (resolveBody ⟨.outside, .outside⟩ program Analysis.start.restart).problems with
  | nil => simp only [hproblems]
  | cons problem rest => simp only [hproblems]

/-- The problems of one kind that a walk has met, in order. -/
def Analysis.reports (kind : Cause → Bool) (a : Analysis) : List Problem :=
  a.problems.filter fun p => kind p.cause

/-- A part of the walk adds these reports to those of a kind. -/
def Reports (kind : Cause → Bool) (step : Analysis → Analysis) (added : List Problem) : Prop :=
  ∀ a : Analysis, (step a).reports kind = a.reports kind ++ added

/-- A kind that has none of the problems of declarations, of reads and of heads. -/
structure Unconcerned (kind : Cause → Bool) : Prop where
  alreadyDeclared : kind .alreadyDeclared = false
  ownInitializer : kind .ownInitializer = false
  ownSuperclass : kind .ownSuperclass = false
  traitsShare : ∀ method, kind (.traitsShare method) = false
  providedByTrait : ∀ method, kind (.providedByTrait method) = false

section

variable {kind : Cause → Bool}

/-! ## Parts one after the other -/

theorem Reports.comp {first second : Analysis → Analysis} {added added' : List Problem}
    (h : Reports kind first added) (h' : Reports kind second added') :
    Reports kind (fun a => second (first a)) (added ++ added') := by
  intro a
  rw [h' (first a), h a, List.append_assoc]

theorem reports_of_eq {step : Analysis → Analysis}
    (h : ∀ a : Analysis, (step a).problems = a.problems) : Reports kind step [] := by
  intro a
  unfold Analysis.reports
  rw [h a, List.append_nil]

/-- A part that reports nothing of the kind, before another one. -/
theorem Reports.preceded {first second : Analysis → Analysis} {added : List Problem}
    (h' : Reports kind second added) (h : Reports kind first []) :
    Reports kind (fun a => second (first a)) added :=
  h.comp h'

/-- A part that reports nothing of the kind, after another one. -/
theorem Reports.followed {first second : Analysis → Analysis} {added : List Problem}
    (h : Reports kind first added) (h' : Reports kind second []) :
    Reports kind (fun a => second (first a)) added := by
  have hcomp := h.comp h'
  rwa [List.append_nil] at hcomp

/-! ## Single problems -/

theorem reports_note (word : Name) (cause : Cause) :
    Reports kind (fun a => a.note word cause) (if kind cause then [⟨word, cause⟩] else []) := by
  intro a
  unfold Analysis.reports Analysis.note
  rw [List.filter_append]
  cases hkind : kind cause <;> simp [hkind]

theorem reports_noteIf (condition : Bool) (word : Name) (cause : Cause) :
    Reports kind (fun a => a.noteIf condition word cause)
      (if condition && kind cause then [⟨word, cause⟩] else []) := by
  cases condition with
  | false => exact reports_of_eq fun a => rfl
  | true => exact reports_note word cause

/-- A problem that is not of the kind. -/
theorem reports_noteIf_other {cause : Cause} (h : kind cause = false) (a : Analysis)
    (condition : Bool) (word : Name) :
    (a.noteIf condition word cause).reports kind = a.reports kind := by
  have hnoted : Reports kind (fun a => a.noteIf condition word cause) _ :=
    reports_noteIf condition word cause
  simpa [h] using hnoted a

/-! ## Scopes -/

theorem reports_changeInnermost (change : Scope → Scope) :
    Reports kind (·.changeInnermost change) [] :=
  reports_of_eq fun a => problems_changeInnermost a change

theorem reports_enter : Reports kind Analysis.enter [] :=
  reports_of_eq fun _ => rfl

theorem reports_bind (id : RefId) (name : String) : Reports kind (·.bind id name) [] := by
  apply reports_of_eq
  intro a
  unfold Analysis.bind
  split <;> rfl

theorem reports_bindRead (id : RefId) (name : String) : Reports kind (·.bindRead id name) [] := by
  intro a
  have hbound : Reports kind (·.bind id name) [] := reports_bind id name
  exact hbound a

theorem reports_enterClass (name : Name) (superclass : Option Reference) :
    Reports kind (enterClass name superclass) [] := by
  cases superclass with
  | none => exact (reports_changeInnermost _).preceded reports_enter
  | some ref =>
    have hsuper : Reports kind (fun a => a.enter.bindImplicit superName name.line) [] :=
      (reports_changeInnermost _).preceded reports_enter
    have hthis : Reports kind (fun a => a.enter.bindImplicit thisName name.line) [] :=
      (reports_changeInnermost _).preceded reports_enter
    exact hthis.preceded hsuper

theorem reports_declare (h : Unconcerned kind) (name : Name) :
    Reports kind (·.declare name) [] := by
  intro a
  have hchanged : (a.changeTraits (·.erase name.text)).reports kind = a.reports kind := by
    unfold Analysis.reports
    rw [problems_changeTraits]
  unfold Analysis.declare
  simp only [List.append_nil]
  split
  · exact hchanged
  · split
    · have hnoted : Reports kind (·.note name .alreadyDeclared) _ :=
        reports_note name .alreadyDeclared
      rw [hnoted, h.alreadyDeclared, hchanged]
      simp
    · have hpushed : Reports kind (·.changeInnermost (·.push ⟨name, .declared⟩)) [] :=
        reports_changeInnermost _
      rw [hpushed, hchanged, List.append_nil]

theorem reports_define (name : Name) : Reports kind (·.define name) [] :=
  reports_changeInnermost _

theorem reports_declareName (h : Unconcerned kind) (name : Name) :
    Reports kind (fun a => (a.declare name).define name) [] :=
  (reports_define name).preceded (reports_declare h name)

theorem reports_declareParameters (h : Unconcerned kind) (params : List Name) :
    Reports kind (fun a => params.foldl declareParameter a) [] := by
  induction params with
  | nil => exact reports_of_eq fun _ => rfl
  | cons param rest ih =>
    have hfirst : Reports kind (fun a => a.declareParameter param) [] :=
      (reports_changeInnermost _).preceded (reports_declare h param)
    exact ih.preceded hfirst

/-! ## Reads and heads -/

theorem reports_resolveReference (h : Unconcerned kind) (ref : Reference) :
    Reports kind (resolveReference ref) [] := by
  intro a
  unfold resolveReference
  rw [reports_bindRead, reports_noteIf_other h.ownInitializer]

theorem reports_resolveReferences (h : Unconcerned kind) (refs : List Reference) :
    Reports kind (resolveReferences refs) [] := by
  induction refs with
  | nil => exact reports_of_eq fun _ => rfl
  | cons ref rest ih => exact ih.preceded (reports_resolveReference h ref)

theorem reports_provide (h : Unconcerned kind) (word : Name) (methods : List String)
    (provided : List String) (a : Analysis) :
    (provide word methods (provided, a)).2.reports kind = a.reports kind := by
  induction methods generalizing provided a with
  | nil => rfl
  | cons method rest ih =>
    unfold provide
    split
    · have hnoted : Reports kind (·.note word (.traitsShare method)) _ :=
        reports_note word (.traitsShare method)
      rw [ih, hnoted, h.traitsShare]
      simp
    · exact ih _ _

theorem reports_provideAll (h : Unconcerned kind) (traits : List Reference)
    (provided : List String) (a : Analysis) :
    (provideAll traits (provided, a)).2.reports kind = a.reports kind := by
  induction traits generalizing provided a with
  | nil => rfl
  | cons used rest ih =>
    unfold provideAll
    split
    · rw [ih, reports_provide h]
    · exact ih _ _

theorem reports_noteProvided (h : Unconcerned kind) (provided : List String)
    (methods : List NamedFunction) (a : Analysis) :
    (noteProvided provided methods a).reports kind = a.reports kind := by
  induction methods generalizing a with
  | nil => rfl
  | cons method rest ih =>
    unfold noteProvided
    rw [ih, reports_noteIf_other (h.providedByTrait _)]

theorem reports_checkComposition (h : Unconcerned kind) (traits : List Reference)
    (methods : List NamedFunction) :
    Reports kind (fun a => (checkComposition traits methods a).2) [] := by
  intro a
  unfold checkComposition
  rw [reports_noteProvided h, reports_provideAll h, List.append_nil]

theorem reports_resolveSuperclass (h : Unconcerned kind) (name : Name)
    (superclass : Option Reference) :
    Reports kind (resolveSuperclass name superclass) [] := by
  cases superclass with
  | none => exact reports_of_eq fun _ => rfl
  | some ref =>
    intro a
    unfold resolveSuperclass
    rw [reports_resolveReference h, reports_noteIf_other h.ownSuperclass]

theorem reports_resolveClassHead (h : Unconcerned kind) (name : Name)
    (superclass : Option Reference) (traits : List Reference) (methods : List NamedFunction) :
    Reports kind (resolveClassHead name superclass traits methods) [] := by
  have hreads := ((reports_resolveReferences h traits).preceded
    (reports_resolveSuperclass h name superclass)).preceded (reports_declareName h name)
  have hhead := (reports_checkComposition h traits methods).preceded hreads
  intro a
  rw [resolveClassHead_eq]
  exact hhead a

theorem reports_resolveTraitHead (h : Unconcerned kind) (name : Name) (traits : List Reference)
    (methods : List NamedFunction) :
    Reports kind (resolveTraitHead name traits methods) [] := by
  intro a
  have hhead := reports_resolveClassHead h name none traits methods a
  unfold resolveTraitHead Analysis.reports
  rw [problems_changeTraits]
  exact hhead

end

end Scoping

end LoxLang
