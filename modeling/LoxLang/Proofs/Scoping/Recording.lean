import LoxLang.Proofs.Scoping.Lexical
import LoxLang.Proofs.Scoping.Mentions

/-!
# The table of any tree

Resolution is lexical scoping for every list of statements, whether or not it is read from a
text. A part of the walk takes the scopes from those around the part to those behind it, also in
the presence of misuses, since a name that is declared twice changes no scope (`Follows`). What it
writes into the table comes from its mentions, and in the absence of misuses no mention with a
binding is left out (`Records`).
-/

namespace LoxLang

namespace Scoping

open Analysis

/-! ## Scopes of the walk and of the text -/

/-- The names of scopes, innermost first. -/
def namesOf (around : Surroundings) : List (List String) :=
  around.map Begun.names

/-- The walk finds for a name what it denotes by the rule of lexical scoping. -/
theorem lookup?_eq_some_iff (name : String) {scopes : List Scope} {around : Surroundings}
    (h : scopes.map Scope.names = namesOf around) (b : Binding) :
    lookup? name scopes = some b ↔ around.Denotes name b := by
  induction scopes generalizing around b with
  | nil =>
    have hnil : around = [] := by simpa [namesOf] using h
    subst hnil
    simp [lookup?, Surroundings.not_denotes_nil]
  | cons scope outer ih =>
    cases around with
    | nil => simp [namesOf] at h
    | cons begun further =>
      simp only [namesOf, List.map_cons, List.cons.injEq] at h
      have hslot : scope.slot? name = begun.names.findIdx? (· == name) := by
        rw [Scope.slot?_eq, h.1]
      unfold lookup?
      rw [hslot]
      by_cases mem : name ∈ begun.names
      · rw [Surroundings.denotes_cons_of_mem mem]
        obtain ⟨earlier, later, hsplit⟩ := List.append_of_mem mem
        rw [findIdx?_of_split begun.distinct hsplit]
        constructor
        · intro hb
          exact ⟨earlier, later, hsplit, (Option.some.inj hb).symm⟩
        · rintro ⟨earlier', later', hsplit', rfl⟩
          have hfound := findIdx?_of_split begun.distinct hsplit'
          rw [findIdx?_of_split begun.distinct hsplit, Option.some.injEq] at hfound
          rw [hfound]
      · rw [Surroundings.denotes_cons_of_not_mem mem]
        rw [findIdx?_of_not_mem mem]
        simp only [Option.map_eq_some_iff, ih h.2]
        constructor
        · rintro ⟨b', hb', rfl⟩
          exact ⟨b', hb', rfl⟩
        · rintro ⟨b', hb', rfl⟩
          exact ⟨b', hb', rfl⟩

/-- An operation takes the scopes of a walk from those around a part of a tree to those behind
it. -/
def Follows (step : Analysis → Analysis) (around behind : Surroundings) : Prop :=
  ∀ a : Analysis, a.names = namesOf around → (step a).names = namesOf behind

theorem follows_of_names {step : Analysis → Analysis} (h : ∀ a, (step a).names = a.names)
    (around : Surroundings) : Follows step around around :=
  fun a hnames => (h a).trans hnames

/-- A declaration adds its name, unless the scope has it. -/
theorem follows_declare (name : Name) (around : Surroundings) :
    Follows (·.declare name) around (around.declare name.text) := by
  intro a hnames
  have hchanged := names_changeTraits a (·.erase name.text)
  rw [hnames] at hchanged
  unfold Analysis.declare
  simp only
  cases hscopes : (a.changeTraits (·.erase name.text)).scopes with
  | nil =>
    simp only [names, hscopes, List.map_nil] at hchanged
    have hnil : around = [] := by simpa [namesOf] using hchanged.symm
    subst hnil
    simp [names, hscopes, namesOf, Surroundings.declare]
  | cons scope outer =>
    simp only [names, hscopes, List.map_cons] at hchanged
    cases around with
    | nil => simp [namesOf] at hchanged
    | cons begun further =>
      simp only [namesOf, List.map_cons, List.cons.injEq] at hchanged
      obtain ⟨hinner, houter⟩ := hchanged
      have hdeclares : scope.declares name.text = true ↔ name.text ∈ begun.names := by
        rw [Scope.declares_iff, hinner]
      by_cases mem : name.text ∈ begun.names
      · simp only [hdeclares.mpr mem, if_true, names_note]
        simp [names, hscopes, hinner, houter, namesOf, Surroundings.declare, Begun.names_add, mem]
      · have hnew : scope.declares name.text = false := by
          rw [← Bool.not_eq_true, hdeclares]
          exact mem
        simp only [hnew, Bool.false_eq_true, if_false]
        simp [names, changeInnermost, hscopes, Scope.names_push, hinner, houter, namesOf,
          Surroundings.declare, Begun.names_add, mem]

theorem follows_declareName (name : Name) (around : Surroundings) :
    Follows (fun a => (a.declare name).define name) around (around.declare name.text) := by
  intro a hnames
  rw [names_define]
  exact follows_declare name around a hnames

theorem follows_declareParameters (params : List Name) (around : Surroundings) :
    Follows (fun a => params.foldl declareParameter a) around
      (around.declareAll (params.map Name.text)) := by
  induction params generalizing around with
  | nil => exact fun a hnames => hnames
  | cons param rest ih =>
    intro a hnames
    have hfirst : (a.declareParameter param).names = namesOf (around.declare param.text) := by
      unfold declareParameter
      rw [names_update]
      exact follows_declare param around a hnames
    exact ih _ _ hfirst

theorem follows_enter (around : Surroundings) :
    Follows Analysis.enter around (.none :: around) := by
  intro a hnames
  rw [names_enter, hnames]
  rfl

theorem follows_leave (scope : Begun) (around : Surroundings) :
    Follows Analysis.leave (scope :: around) around := by
  intro a hnames
  rw [names_leave, hnames]
  rfl

theorem follows_bindImplicit (name : String) (line : Nat) (around : Surroundings) :
    Follows (fun a => a.enter.bindImplicit name line) around (.only name :: around) := by
  intro a hnames
  rw [names_bindImplicit, names_enter, hnames]
  rfl

theorem follows_enterClass (name : Name) (superclass : Option Reference)
    (around : Surroundings) :
    Follows (enterClass name superclass) (around.declare name.text)
      (around.methods name superclass.isSome) := by
  intro a hnames
  cases superclass with
  | none => exact follows_bindImplicit thisName name.line _ a hnames
  | some ref =>
    have hsuper := follows_bindImplicit superName name.line _ a hnames
    exact follows_bindImplicit thisName name.line _ _ hsuper

theorem follows_leaveClass (name : Name) (superclass : Option Reference)
    (around : Surroundings) :
    Follows (leaveClass superclass) (around.methods name superclass.isSome)
      (around.declare name.text) := by
  intro a hnames
  cases superclass with
  | none => exact follows_leave _ _ a hnames
  | some ref =>
    have hthis := follows_leave _ _ a hnames
    exact follows_leave _ _ _ hthis

/-! ## Parts of the walk -/

/-- A part of the walk follows the scopes of the text, and if it meets no misuse, what it adds to
the table are the bindings of its mentions: an entry that is there afterwards was there before or is
what one of the mentions denotes, no identity loses its entry, and every mention that denotes a
local variable has got one. -/
def Records (step : Analysis → Analysis) (around behind : Surroundings)
    (mentions : List Mention) : Prop :=
  ∀ a : Analysis, a.names = namesOf around →
    (step a).names = namesOf behind ∧
    ((step a).problems = [] →
      (∀ id b, (step a).bindings[id]? = some b →
        a.bindings[id]? = some b ∨
          ∃ mention ∈ mentions, mention.occurrence.id = id ∧ mention.Denotes b) ∧
      (∀ id ∈ a.bindings, id ∈ (step a).bindings) ∧
      ∀ mention ∈ mentions, ∀ b, mention.Denotes b →
        mention.occurrence.id ∈ (step a).bindings)

/-- A part that does nothing to the table. -/
theorem Follows.records {step : Analysis → Analysis} {around behind : Surroundings}
    (h : Follows step around behind) (bindings : ∀ a, (step a).bindings = a.bindings) :
    Records step around behind [] := by
  intro a hnames
  refine ⟨h a hnames, fun _ => ⟨?_, ?_, ?_⟩⟩
  · intro id b hb
    exact .inl (bindings a ▸ hb)
  · intro id hid
    rw [bindings a]
    exact hid
  · intro mention hmention
    cases hmention

theorem records_id (around : Surroundings) : Records (fun a => a) around around [] :=
  (follows_of_names (fun _ => rfl) around).records fun _ => rfl

theorem records_onlyNotes {step : Analysis → Analysis} (h : ∀ a, OnlyNotes a (step a))
    (around : Surroundings) : Records step around around [] :=
  (follows_of_names (fun a => (h a).names) around).records fun a => (h a).bindings

/-- Two parts one after the other. -/
theorem Records.comp {first second : Analysis → Analysis} {p q r : Surroundings}
    {mentions mentions' : List Mention} (h : Records first p q mentions)
    (h' : Records second q r mentions')
    (mono : ∀ a : Analysis, a.Precedes (second a)) :
    Records (fun a => second (first a)) p r (mentions ++ mentions') := by
  intro a hnames
  obtain ⟨hq, hfirst⟩ := h a hnames
  obtain ⟨hr, hsecond⟩ := h' (first a) hq
  refine ⟨hr, fun clean => ?_⟩
  obtain ⟨from1, keeps1, complete1⟩ := hfirst ((mono _).clean clean)
  obtain ⟨from2, keeps2, complete2⟩ := hsecond clean
  refine ⟨?_, fun id hid => keeps2 id (keeps1 id hid), ?_⟩
  · intro id b hb
    rcases from2 id b hb with hb | ⟨mention, hmention, hdenotes⟩
    · rcases from1 id b hb with hb | ⟨mention, hmention, hdenotes⟩
      · exact .inl hb
      · exact .inr ⟨mention, List.mem_append_left _ hmention, hdenotes⟩
    · exact .inr ⟨mention, List.mem_append_right _ hmention, hdenotes⟩
  · intro mention hmention b hb
    rcases List.mem_append.mp hmention with hmention | hmention
    · exact keeps2 _ (complete1 mention hmention b hb)
    · exact complete2 mention hmention b hb

/-- A part that leaves the table as it is, before another one. -/
theorem Records.preceded {first second : Analysis → Analysis} {p q r : Surroundings}
    {mentions : List Mention} (h' : Records second q r mentions) (h : Records first p q [])
    (mono : ∀ a : Analysis, a.Precedes (second a)) :
    Records (fun a => second (first a)) p r mentions :=
  h.comp h' mono

/-- A part that leaves the table as it is, after another one. -/
theorem Records.followed {first second : Analysis → Analysis} {p q r : Surroundings}
    {mentions : List Mention} (h : Records first p q mentions) (h' : Records second q r [])
    (mono : ∀ a : Analysis, a.Precedes (second a)) :
    Records (fun a => second (first a)) p r mentions := by
  have hcomp := h.comp h' mono
  rwa [List.append_nil] at hcomp

/-- The order in which mentions are given does not count. -/
theorem Records.swap {step : Analysis → Analysis} {p q : Surroundings}
    {mentions mentions' : List Mention} (h : Records step p q (mentions ++ mentions')) :
    Records step p q (mentions' ++ mentions) := by
  intro a hnames
  obtain ⟨hq, hrest⟩ := h a hnames
  refine ⟨hq, fun clean => ?_⟩
  obtain ⟨source, keeps, complete⟩ := hrest clean
  refine ⟨?_, keeps, ?_⟩
  · intro id b hb
    rcases source id b hb with hb | ⟨mention, hmention, hdenotes⟩
    · exact .inl hb
    · exact .inr ⟨mention, List.mem_append.mpr (List.mem_append.mp hmention).symm, hdenotes⟩
  · intro mention hmention
    exact complete mention (List.mem_append.mpr (List.mem_append.mp hmention).symm)

/-- A part that looks up one name. -/
theorem records_bind {step : Analysis → Analysis} (occurrence : Occurrence)
    (around : Surroundings) (names : ∀ a, (step a).names = a.names)
    (bindings : ∀ a, (step a).problems = [] →
      (step a).bindings = (a.bind occurrence.id occurrence.word).bindings) :
    Records step around around (mentionsAt around [occurrence]) := by
  intro a hnames
  refine ⟨(names a).trans hnames, fun clean => ?_⟩
  have hlookup : ∀ b, lookup? occurrence.word a.scopes = some b ↔
      around.Denotes occurrence.word b := lookup?_eq_some_iff occurrence.word hnames
  rw [bindings a clean]
  unfold Analysis.bind
  -- Nothing but a name that denotes a local variable makes an entry.
  cases hfound : lookup? occurrence.word a.scopes with
  | none =>
    refine ⟨fun id b hb => .inl hb, fun id hid => hid, ?_⟩
    intro mention hmention b hb
    obtain rfl : mention = ⟨occurrence, around⟩ := by simpa [mentionsAt] using hmention
    rw [(hlookup b).mpr hb] at hfound
    cases hfound
  | some found =>
    refine ⟨?_, ?_, ?_⟩
    · intro id b hb
      simp only [Std.TreeMap.getElem?_insert] at hb
      split at hb
      · next hid =>
        have heq : occurrence.id = id := Std.LawfulEqCmp.eq_of_compare hid
        obtain rfl := Option.some.inj hb
        exact .inr ⟨⟨occurrence, around⟩, by simp [mentionsAt], heq,
          (hlookup found).mp hfound⟩
      · exact .inl hb
    · intro id hid
      exact Std.TreeMap.mem_insert.mpr (.inr hid)
    · intro mention hmention b _
      obtain rfl : mention = ⟨occurrence, around⟩ := by simpa [mentionsAt] using hmention
      exact Std.TreeMap.mem_insert.mpr (.inl Std.ReflCmp.compare_self)

theorem records_resolveReference (ref : Reference) (around : Surroundings) :
    Records (resolveReference ref) around around (mentionsAt around [ref.occurrence]) := by
  refine records_bind ref.occurrence around (names_resolveReference ref) ?_
  exact fun a _ => bindings_resolveReference ref a

theorem records_resolveReferences (refs : List Reference) (around : Surroundings) :
    Records (resolveReferences refs) around around
      (mentionsAt around (refs.map Reference.occurrence)) := by
  induction refs with
  | nil => exact records_id around
  | cons ref rest ih =>
    exact (records_resolveReference ref around).comp ih (precedes_resolveReferences rest)

theorem records_resolveThis (body : ClassContext) (id : RefId) (line : Nat)
    (around : Surroundings) :
    Records (resolveThis body id line) around around
      (mentionsAt around [⟨.receiver, id, thisName, line⟩]) := by
  refine records_bind _ around (names_resolveThis body id line) ?_
  exact fun a clean => bindings_resolveThis clean

theorem records_resolveSuper (body : ClassContext) (id : RefId) (line : Nat)
    (around : Surroundings) :
    Records (resolveSuper body id line) around around
      (mentionsAt around [⟨.superclass, id, superName, line⟩]) := by
  refine records_bind _ around (names_resolveSuper body id line) ?_
  exact fun a clean => bindings_resolveSuper clean

theorem records_declareName (name : Name) (around : Surroundings) :
    Records (fun a => (a.declare name).define name) around (around.declare name.text) [] :=
  (follows_declareName name around).records fun a => by simp

theorem records_leave (scope : Begun) (around : Surroundings) :
    Records Analysis.leave (scope :: around) around [] :=
  (follows_leave scope around).records bindings_leave

/-- The superclass of a class, if it has one, is read where the name of the class is begun. -/
theorem records_resolveSuperclass (name : Name) (superclass : Option Reference)
    (around : Surroundings) :
    Records (resolveSuperclass name superclass) around around
      (mentionsAt around (superclass.toList.map Reference.occurrence)) := by
  cases superclass with
  | none => exact records_id around
  | some ref =>
    exact (records_resolveReference ref around).preceded
      (records_onlyNotes (fun a => onlyNotes_noteIf a (ref.name.text = name.text) ref.name
        .ownSuperclass) around)
      (precedes_resolveReference ref)

theorem records_resolveClassHead (name : Name) (superclass : Option Reference)
    (traits : List Reference) (methods : List NamedFunction) (around : Surroundings) :
    Records (resolveClassHead name superclass traits methods) around (around.declare name.text)
      (mentionsAt (around.declare name.text) (superclass.toList.map Reference.occurrence) ++
        mentionsAt (around.declare name.text) (traits.map Reference.occurrence)) := by
  have hreads := (records_resolveSuperclass name superclass (around.declare name.text)).comp
    (records_resolveReferences traits _) (precedes_resolveReferences traits)
  have hnamed := hreads.preceded (records_declareName name around) fun a =>
    (precedes_resolveSuperclass name superclass a).trans (precedes_resolveReferences traits _)
  have hall := hnamed.followed
    (records_onlyNotes (onlyNotes_checkComposition traits methods) _)
    fun a => (onlyNotes_checkComposition traits methods a).precedes
  intro a hnames
  rw [resolveClassHead_eq]
  exact hall a hnames

theorem records_resolveTraitHead (name : Name) (traits : List Reference)
    (methods : List NamedFunction) (around : Surroundings) :
    Records (resolveTraitHead name traits methods) around (around.declare name.text)
      (mentionsAt (around.declare name.text) (traits.map Reference.occurrence)) := by
  have hhead := records_resolveClassHead name none traits methods around
  intro a hnames
  obtain ⟨hbehind, hrest⟩ := hhead a hnames
  unfold resolveTraitHead
  simp only [names_changeTraits, bindings_changeTraits, problems_changeTraits]
  exact ⟨hbehind, hrest⟩

theorem records_enterClass (name : Name) (superclass : Option Reference)
    (around : Surroundings) :
    Records (enterClass name superclass) (around.declare name.text)
      (around.methods name superclass.isSome) [] := by
  refine (follows_enterClass name superclass around).records fun a => ?_
  cases superclass <;> simp [enterClass]

theorem records_leaveClass (name : Name) (superclass : Option Reference)
    (around : Surroundings) :
    Records (leaveClass superclass) (around.methods name superclass.isSome)
      (around.declare name.text) [] := by
  refine (follows_leaveClass name superclass around).records fun a => ?_
  cases superclass <;> simp [leaveClass]

theorem bindings_declareParameters (params : List Name) (a : Analysis) :
    (params.foldl declareParameter a).bindings = a.bindings := by
  induction params generalizing a with
  | nil => rfl
  | cons param rest ih => rw [List.foldl_cons, ih, bindings_declareParameter]

/-- A function opens its scope with its parameters. -/
theorem records_enterFunction (params : List Name) (around : Surroundings) :
    Records (fun a => params.foldl declareParameter a.enter) around
      (Surroundings.declareAll (params.map Name.text) (.none :: around)) [] := by
  refine Follows.records ?_ fun a => ?_
  · intro a hnames
    exact follows_declareParameters params _ _ (follows_enter around a hnames)
  · rw [bindings_declareParameters, bindings_enter]

/-! ## The whole walk -/

mutual

theorem records_resolveExpr : ∀ (e : Expr) (context : Context) (around : Surroundings),
    Records (resolveExpr context e) around around (e.mentions around)
  | .literal _, _, around => records_id around
  | .unary _ _ operand, context, around => records_resolveExpr operand context around
  | .binary left _ _ right, context, around =>
    (records_resolveExpr left context around).comp (records_resolveExpr right context around)
      (precedes_resolveExpr right context)
  | .logical left _ _ right, context, around =>
    (records_resolveExpr left context around).comp (records_resolveExpr right context around)
      (precedes_resolveExpr right context)
  | .conditional condition thenBranch elseBranch, context, around =>
    ((records_resolveExpr condition context around).comp
      (records_resolveExpr thenBranch context around)
      (precedes_resolveExpr thenBranch context)).comp
      (records_resolveExpr elseBranch context around) (precedes_resolveExpr elseBranch context)
  | .grouping inner, context, around => records_resolveExpr inner context around
  | .variable ref, _, around => records_resolveReference ref around
  | .assign ref value, context, around => by
    -- The occurrence stands before its value in the text, and is resolved after it.
    have hstore : Records (·.bind ref.id ref.name.text) around around
        (mentionsAt around [⟨.assigned, ref.id, ref.name.text, ref.name.line⟩]) :=
      records_bind ⟨.assigned, ref.id, ref.name.text, ref.name.line⟩ around
        (fun a => names_bind a ref.id ref.name.text) fun _ _ => rfl
    have hboth := (records_resolveExpr value context around).comp hstore
      fun a => precedes_bind a ref.id ref.name.text
    exact hboth.swap
  | .call callee arguments _, context, around =>
    (records_resolveExpr callee context around).comp
      (records_resolveArguments arguments context around)
      (precedes_resolveArguments arguments context)
  | .get object _, context, around => records_resolveExpr object context around
  | .set object _ value, context, around =>
    -- The value is resolved before the object that stands to the left of it.
    ((records_resolveExpr value context around).comp (records_resolveExpr object context around)
      (precedes_resolveExpr object context)).swap
  | .this id line, context, around => records_resolveThis context.body id line around
  | .super id line _, context, around => records_resolveSuper context.body id line around
  | .lambda _ function, _, around => records_resolveFunction function _ around

theorem records_resolveArguments : ∀ (arguments : List Expr) (context : Context)
    (around : Surroundings),
    Records (resolveArguments context arguments) around around
      (mentionsInArguments around arguments)
  | [], _, around => records_id around
  | argument :: rest, context, around =>
    (records_resolveExpr argument context around).comp
      (records_resolveArguments rest context around) (precedes_resolveArguments rest context)

theorem records_resolveFunction : ∀ (f : Function) (context : Context) (around : Surroundings),
    Records (resolveFunction context f) around around (f.mentions around)
  | .mk params body, context, around => by
    have hbody := (records_resolveBody body context _).preceded
      (records_enterFunction params around) (precedes_resolveBody body context)
    obtain ⟨opened, hopened⟩ :=
      Surroundings.exists_declareAll (params.map Name.text) .none around
    obtain ⟨scope, hscope⟩ := Surroundings.exists_declareAll (beginsInBody body) opened around
    rw [hopened, hscope] at hbody
    have hleft := hbody.followed (records_leave scope around) precedes_leave
    rwa [← hopened] at hleft

theorem records_resolveMethods : ∀ (methods : List NamedFunction) (body : ClassContext)
    (around : Surroundings),
    Records (resolveMethods body methods) around around (mentionsInMethods around methods)
  | [], _, around => records_id around
  | .mk _ function :: rest, body, around =>
    (records_resolveFunction function _ around).comp (records_resolveMethods rest body around)
      (precedes_resolveMethods rest body)

theorem records_resolveClassMethods : ∀ (methods : List NamedFunction) (body : ClassContext)
    (around : Surroundings),
    Records (resolveClassMethods body methods) around around (mentionsInMethods around methods)
  | [], _, around => records_id around
  | .mk _ function :: rest, body, around =>
    (records_resolveFunction function _ around).comp
      (records_resolveClassMethods rest body around) (precedes_resolveClassMethods rest body)

theorem records_resolveStmt : ∀ (s : Stmt) (context : Context) (around : Surroundings),
    Records (resolveStmt context s) around (around.declareAll s.begins) (s.mentions around)
  | .expression value, context, around => records_resolveExpr value context around
  | .print value, context, around => records_resolveExpr value context around
  | .varDecl name none, _, around => records_declareName name around
  | .varDecl name (some initial), context, around => by
    have hdeclare : Records (·.declare name) around (around.declare name.text) [] :=
      (follows_declare name around).records fun a => bindings_declare a name
    have hdefine : Records (·.define name) (around.declare name.text)
        (around.declare name.text) [] :=
      (follows_of_names (fun a => names_define a name) _).records fun a => bindings_define a name
    exact ((records_resolveExpr initial context _).preceded hdeclare
      (precedes_resolveExpr initial context)).followed hdefine fun a => precedes_define a name
  | .block body, context, around => by
    have henter : Records Analysis.enter around (.none :: around) [] :=
      (follows_enter around).records bindings_enter
    have hbody := (records_resolveBody body context _).preceded henter
      (precedes_resolveBody body context)
    obtain ⟨scope, hscope⟩ := Surroundings.exists_declareAll (beginsInBody body) .none around
    rw [hscope] at hbody
    exact hbody.followed (records_leave scope around) precedes_leave
  | .ifThen condition thenBranch none, context, around =>
    (records_resolveExpr condition context around).comp
      (records_resolveStmt thenBranch context around) (precedes_resolveStmt thenBranch context)
  | .ifThen condition thenBranch (some elseBranch), context, around => by
    have hthen := (records_resolveExpr condition context around).comp
      (records_resolveStmt thenBranch context around) (precedes_resolveStmt thenBranch context)
    have helse := hthen.comp (records_resolveStmt elseBranch context _)
      (precedes_resolveStmt elseBranch context)
    rwa [← Surroundings.declareAll_append] at helse
  | .whileDo condition body, context, around =>
    (records_resolveExpr condition context around).comp (records_resolveStmt body context around)
      (precedes_resolveStmt body context)
  | .breakLoop _, _, around => records_id around
  | .returnWith line none, context, around =>
    records_onlyNotes (fun a => onlyNotes_noteIf a (context.function = .outside) (returnWord line)
      .returnOutsideFunction) around
  | .returnWith line (some value), context, around =>
    (records_resolveExpr value context around).preceded
      (records_onlyNotes (fun a => (onlyNotes_noteIf a (context.function = .outside)
        (returnWord line) .returnOutsideFunction).trans (onlyNotes_noteIf _
        (context.function = .initializer) (returnWord line) .valueFromInitializer)) around)
      (precedes_resolveExpr value context)
  | .funDecl (.mk name function), _, around =>
    (records_resolveFunction function _ _).preceded (records_declareName name around)
      (precedes_resolveFunction function _)
  | .classDecl name superclass traits methods classMethods, _, around => by
    have hhead := (records_resolveClassHead name superclass traits methods around).followed
      (records_enterClass name superclass around) (precedes_enterClass name superclass)
    have hmethods := hhead.comp
      (records_resolveMethods methods (classContext superclass) _)
      (precedes_resolveMethods methods _)
    have hclass := hmethods.comp
      (records_resolveClassMethods classMethods (classContext superclass) _)
      (precedes_resolveClassMethods classMethods _)
    exact hclass.followed (records_leaveClass name superclass around)
      (precedes_leaveClass superclass)
  | .traitDecl name traits methods, _, around => by
    have henter : Records (fun a => a.enter.bindImplicit thisName name.line)
        (around.declare name.text) (around.methods name false) [] :=
      records_enterClass name none around
    have hhead := (records_resolveTraitHead name traits methods around).followed henter
      fun a => precedes_bindImplicit a.enter _ _
    have hmethods := hhead.comp (records_resolveMethods methods .traitBody _)
      (precedes_resolveMethods methods _)
    exact hmethods.followed (records_leaveClass name none around) (precedes_leaveClass none)

theorem records_resolveBody : ∀ (body : List Stmt) (context : Context) (around : Surroundings),
    Records (resolveBody context body) around (around.declareAll (beginsInBody body))
      (mentionsInBody around body)
  | [], _, around => records_id around
  | statement :: rest, context, around => by
    have hboth := (records_resolveStmt statement context around).comp
      (records_resolveBody rest context _) (precedes_resolveBody rest context)
    rwa [← Surroundings.declareAll_append] at hboth

end

/-! ## The table -/

/-- The slots of a scope without repeated names are counted up from zero. -/
theorem slots_counted {scope : Scope} (distinct : scope.names.Nodup) :
    scope.names.map scope.slot? = (List.range scope.slots.length).map some := by
  have hlength : scope.names.length = scope.slots.length := List.length_map _
  apply List.ext_getElem
  · simp [hlength]
  · intro i hi _
    rw [List.length_map] at hi
    have hsplit : scope.names =
        scope.names.take i ++ scope.names[i] :: scope.names.drop (i + 1) := by
      rw [← List.drop_eq_getElem_cons hi, List.take_append_drop]
    have hfound := findIdx?_of_split distinct hsplit
    rw [List.length_take, Nat.min_eq_left (Nat.le_of_lt hi)] at hfound
    rw [List.getElem_map, Scope.slot?_eq, hfound]
    simp

theorem names_distinct {a : Analysis} {around : Surroundings} (h : a.names = namesOf around) :
    ∀ scope ∈ a.scopes, scope.names.Nodup := by
  intro scope hscope
  have hmem : scope.names ∈ namesOf around := h ▸ List.mem_map_of_mem hscope
  obtain ⟨begun, -, heq⟩ := List.mem_map.mp hmem
  rw [← heq]
  exact begun.distinct

/-- What a program that resolution accepts is resolved to: each entry of its table is what the
mentions of that identity denote, and a mention that denotes a local variable has its entry. -/
theorem entries_of_resolve {program : List Stmt} {table : Bindings}
    (accepted : resolve program = .ok table) :
    (∀ id b, table[id]? = some b →
      ∃ mention ∈ mentionsInBody [] program,
        mention.occurrence.id = id ∧ mention.Denotes b) ∧
      ∀ mention ∈ mentionsInBody [] program, ∀ b, mention.Denotes b →
        mention.occurrence.id ∈ table := by
  unfold resolve resolveWith at accepted
  have hwalk := records_resolveBody program ⟨.outside, .outside⟩ [] Analysis.start.restart rfl
  cases hproblems :
    (resolveBody ⟨.outside, .outside⟩ program Analysis.start.restart).problems with
  | nil =>
    simp only [hproblems, Except.ok.injEq] at accepted
    subst accepted
    obtain ⟨source, -, complete⟩ := hwalk.2 hproblems
    refine ⟨?_, complete⟩
    intro id b hb
    rcases source id b hb with hb | hmention
    · have hnone : (Bindings.none)[id]? = none := getElem?_none id
      rw [show Analysis.start.restart.bindings = Bindings.none from rfl, hnone] at hb
      cases hb
    · exact hmention
  | cons problem rest => simp [hproblems] at accepted

/-- The table of bindings is exactly lexical scoping, whatever list of statements resolution
accepts. The mentions of the program are its occurrences of variables, of `this` and of `super`,
one each. An entry of the table is what a mention of that identity denotes, so no other identities
have entries; and a mention with an identity of its own has an entry if and only if some scope
around has begun to declare its name, the entry being the binding that it denotes. A statement,
accepted or not, keeps the stack of scopes, which have their traits with them, adds to the
innermost one the names it declares, and leaves scopes whose slots are counted up from zero. -/
theorem table_is_lexical (program : List Stmt) (table : Bindings)
    (accepted : resolve program = .ok table) :
    (mentionsInBody [] program).map Mention.occurrence = occurrencesInBody program ∧
    (∀ id b, table[id]? = some b →
      ∃ mention ∈ mentionsInBody [] program,
        mention.occurrence.id = id ∧ mention.Denotes b) ∧
    (∀ mention ∈ mentionsInBody [] program,
      (∃ scope ∈ mention.around, mention.occurrence.word ∈ scope.names) →
        mention.occurrence.id ∈ table) ∧
    (∀ mention ∈ mentionsInBody [] program,
      (∀ other ∈ mentionsInBody [] program,
        other.occurrence.id = mention.occurrence.id → other = mention) →
      (mention.occurrence.id ∈ table ↔
        ∃ scope ∈ mention.around, mention.occurrence.word ∈ scope.names) ∧
      ∀ b, table[mention.occurrence.id]? = some b ↔ mention.Denotes b) ∧
    ∀ (context : Context) (s : Stmt) (a : Analysis) (around : Surroundings),
      a.names = namesOf around →
      (resolveStmt context s a).scopes.length = a.scopes.length ∧
      (resolveStmt context s a).names = namesOf (around.declareAll s.begins) ∧
      ∀ scope ∈ (resolveStmt context s a).scopes,
        scope.names.map scope.slot? = (List.range scope.slots.length).map some := by
  obtain ⟨source, complete⟩ := entries_of_resolve accepted
  have bound : ∀ mention ∈ mentionsInBody [] program,
      (∃ scope ∈ mention.around, mention.occurrence.word ∈ scope.names) →
        mention.occurrence.id ∈ table := by
    intro mention hmention hbegun
    obtain ⟨b, hb⟩ := (Surroundings.exists_denotes_iff _ _).mpr hbegun
    exact complete mention hmention b hb
  refine ⟨occurrences_mentionsInBody program [], source, bound, ?_, ?_⟩
  · intro mention hmention own
    -- No other mention writes to the entry, so it is that of this mention.
    have denoted : ∀ b, table[mention.occurrence.id]? = some b → mention.Denotes b := by
      intro b hb
      obtain ⟨other, hother, hid, hdenotes⟩ := source _ b hb
      exact own other hother hid ▸ hdenotes
    have entry : ∀ b, table[mention.occurrence.id]? = some b ↔ mention.Denotes b := by
      intro b
      refine ⟨denoted b, fun hb => ?_⟩
      have hmem := complete mention hmention b hb
      rw [Std.TreeMap.mem_iff_isSome_getElem?, Option.isSome_iff_exists] at hmem
      obtain ⟨b', hb'⟩ := hmem
      rw [hb', Surroundings.Denotes.unique hb (denoted b' hb')]
    refine ⟨⟨fun hmem => ?_, bound mention hmention⟩, entry⟩
    rw [Std.TreeMap.mem_iff_isSome_getElem?, Option.isSome_iff_exists] at hmem
    obtain ⟨b, hb⟩ := hmem
    exact (Surroundings.exists_denotes_iff _ _).mp ⟨b, denoted b hb⟩
  · intro context s a around hnames
    have hbehind := (records_resolveStmt s context around a hnames).1
    refine ⟨?_, hbehind,
      fun scope hscope => slots_counted (names_distinct hbehind scope hscope)⟩
    have hlength := congrArg List.length hbehind
    have hbefore := congrArg List.length hnames
    simp only [names, namesOf, List.length_map, Surroundings.length_declareAll] at hlength hbefore
    rw [hlength, hbefore]

/-- The statements `{ var a = nil; var b = a; { var a = b; print a; } }`. -/
def shadowing : List Stmt :=
  [.block
    [.varDecl ⟨"a", 1⟩ (some (.literal .nil)),
     .varDecl ⟨"b", 1⟩ (some (.variable ⟨0, ⟨"a", 1⟩⟩)),
     .block
      [.varDecl ⟨"a", 1⟩ (some (.variable ⟨1, ⟨"b", 1⟩⟩)),
       .print (.variable ⟨2, ⟨"a", 1⟩⟩)]]]

/-- Both variables `a` have slot 0 of their scopes, and `b` has slot 1 of the outer one. -/
def shadowingTable : Bindings :=
  ((Bindings.none.insert 0 ⟨0, 0⟩).insert 1 ⟨1, 1⟩).insert 2 ⟨0, 0⟩

theorem table_is_lexical_shadowing :
    resolve shadowing = .ok shadowingTable ∧
      ∃ mention ∈ mentionsInBody [] shadowing,
        mention.occurrence.id = 1 ∧ mention.Denotes ⟨1, 1⟩ :=
  have accepted : resolve shadowing = .ok shadowingTable := rfl
  ⟨accepted, (table_is_lexical shadowing shadowingTable accepted).2.1 1 ⟨1, 1⟩ rfl⟩

end Scoping

end LoxLang
