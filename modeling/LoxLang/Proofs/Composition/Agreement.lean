import LoxLang.Proofs.Composition.Union
import LoxLang.Proofs.Scoping.Knowledge

/-!
# Checks of a composition before a run and in it

Resolution checks the traits that a class or trait uses by the names of their methods, as far as
it knows them; a run composes the tables of the traits. Where both know the same names, they visit
them in the same order and meet the same collision first (`Alike`).
-/

namespace LoxLang

namespace Scoping

/-- The trait that a reference denotes is known before the run, with the names of the methods that
it has in the run. -/
def Knows (a : Analysis) (m : Machine) (ref : Reference) : Prop :=
  ∃ names id t, knownTrait? ref.name.text a.globalTraits a.scopes = some names ∧
    Run.lookUp ref.id ref.name.text ref.name.line m = .ok (.traitValue id t) m ∧
    names.Perm t.methods.keys

/-- A check and a run of a composition come out alike: with the names of the composed table, or
with a first problem that says what the failure says. -/
inductive Alike (a : Analysis) (m : Machine) :
    List String × Analysis → EStateM.Result Stop Machine Methods → Prop
  | composed (table : Methods) : Alike a m (table.keys, a) (.ok table m)
  | refused (provided : List String) (p : Problem) (rest : List Problem) (cause : FailureCause)
      (same : p.cause.message = cause.message) :
      Alike a m (provided, { a with problems := a.problems ++ p :: rest })
        (.error (.failed p.word.line cause) m)

/-- After a first problem further ones do not count. -/
theorem alike_of_note {a a' : Analysis} {m : Machine} {word : Name} {cause : Cause}
    (more : OnlyNotes (a.note word cause) a') (provided : List String) {failure : FailureCause}
    (same : cause.message = failure.message) :
    Alike a m (provided, a') (.error (.failed word.line failure) m) := by
  obtain ⟨rest, rfl⟩ := more
  have hnotes : (a.note word cause).problems ++ rest =
      a.problems ++ ⟨word, cause⟩ :: rest := by
    simp [Analysis.note]
  rw [hnotes]
  exact .refused provided ⟨word, cause⟩ rest failure same

theorem contains_keys (table : Methods) (name : String) :
    table.keys.contains name = table.contains name := by
  rw [Bool.eq_iff_iff, List.contains_iff_mem, Dictionary.mem_keys_iff]

/-- The methods of one trait. -/
theorem alike_provide (a : Analysis) (m : Machine) (word : Name) (methods : Methods)
    (names : List String) (own : ∀ name ∈ names, name ∈ methods.keys) (composed : Methods) :
    Alike a m (provide word names (composed.keys, a))
      (addMethods word.line methods names composed m) := by
  induction names generalizing composed with
  | nil => exact .composed composed
  | cons first rest ih =>
    unfold provide addMethods
    rw [contains_keys]
    by_cases taken : composed.contains first = true
    · rw [if_pos taken, if_pos taken]
      exact alike_of_note (onlyNotes_provide word rest composed.keys _) _ rfl
    · rw [if_neg taken, if_neg taken]
      obtain ⟨method, hmethod⟩ :=
        Dictionary.exists_get?_of_mem_keys (own first List.mem_cons_self)
      have hnew : first ∉ composed.keys := by rwa [Dictionary.mem_keys_iff]
      have hrest := ih (fun name hname => own name (List.mem_cons_of_mem _ hname))
        (composed.insert first method)
      rw [Dictionary.keys_insert, if_neg hnew] at hrest
      simp only [hmethod]
      exact hrest

/-- The methods of all traits that are used. -/
theorem alike_provideAll (a : Analysis) (m : Machine) (traits : List Reference)
    (known : ∀ ref ∈ traits, Knows a m ref) (composed : Methods) :
    Alike a m (provideAll traits (composed.keys, a)) (addTraits traits composed m) := by
  induction traits generalizing composed with
  | nil => exact .composed composed
  | cons ref rest ih =>
    obtain ⟨names, id, t, hknown, hread, hnames⟩ := known ref List.mem_cons_self
    have hown : ∀ name ∈ t.methods.sortedKeys, name ∈ t.methods.keys :=
      fun name hname => (Dictionary.mem_sortedKeys t.methods name).mp hname
    have hfirst := alike_provide a m ref.name t.methods t.methods.sortedKeys hown composed
    have hsorted : (names.mergeSort fun m n => decide (m ≤ n)) = t.methods.sortedKeys :=
      mergeSort_eq_of_perm hnames
    have hcheck : provideAll (ref :: rest) (composed.keys, a) =
        provideAll rest (provide ref.name t.methods.sortedKeys (composed.keys, a)) := by
      rw [provideAll, hknown]
      simp only [hsorted]
    have hrun : addTraits (ref :: rest) composed m =
        (addMethods ref.name.line t.methods t.methods.sortedKeys composed >>=
          addTraits rest) m := by
      simp only [addTraits, bind, EStateM.bind, hread, traitOf, pure, EStateM.pure]
    rw [hcheck, hrun]
    simp only [bind, EStateM.bind]
    generalize provide ref.name t.methods.sortedKeys (composed.keys, a) = checked at hfirst ⊢
    generalize addMethods ref.name.line t.methods t.methods.sortedKeys composed m = run
      at hfirst ⊢
    cases hfirst with
    | composed table =>
      exact ih (fun other h => known other (List.mem_cons_of_mem _ h)) table
    | refused provided p more cause same =>
      -- Where the run has stopped the check goes on, with problems behind the first one.
      obtain ⟨later, hlater⟩ := onlyNotes_provideAll rest provided
        { a with problems := a.problems ++ p :: more }
      have hnotes : provideAll rest (provided, { a with problems := a.problems ++ p :: more }) =
          ((provideAll rest (provided, { a with problems := a.problems ++ p :: more })).1,
            { a with problems := a.problems ++ p :: (more ++ later) }) := by
        refine Prod.ext rfl ?_
        rw [hlater]
        simp
      rw [hnotes]
      exact .refused _ p (more ++ later) cause same

/-- The methods of a body. -/
theorem alike_noteProvided (a : Analysis) (m : Machine) (composed : Methods)
    (methods : List NamedFunction) :
    Alike a m (composed.keys, noteProvided composed.keys methods a)
      ((checkProvided composed methods >>= fun _ => pure composed) m) := by
  induction methods with
  | nil => exact .composed composed
  | cons first rest ih =>
    unfold noteProvided checkProvided Analysis.noteIf
    rw [contains_keys]
    by_cases taken : composed.contains first.name.text = true
    · rw [if_pos taken, if_pos taken]
      exact alike_of_note (onlyNotes_noteProvided composed.keys rest _) _ rfl
    · rw [if_neg taken, if_neg taken]
      exact ih

/-- The check of a composition and the run of it, with the names that the traits provide. -/
theorem alike_checkComposition (a : Analysis) (m : Machine) (traits : List Reference)
    (methods : List NamedFunction) (known : ∀ ref ∈ traits, Knows a m ref) :
    Alike a m ((provideAll traits ([], a)).1, (checkComposition traits methods a).2)
      (composeTraits traits methods m) := by
  have htraits : Alike a m (provideAll traits ([], a)) (addTraits traits Dictionary.empty m) :=
    alike_provideAll a m traits known Dictionary.empty
  unfold checkComposition composeTraits
  simp only [bind, EStateM.bind]
  generalize provideAll traits ([], a) = checked at htraits ⊢
  generalize addTraits traits Dictionary.empty m = run at htraits ⊢
  cases htraits with
  | composed table => exact alike_noteProvided a m table methods
  | refused provided p rest cause same =>
    obtain ⟨more, hmore⟩ := onlyNotes_noteProvided provided methods
      { a with problems := a.problems ++ p :: rest }
    have hnotes : noteProvided provided methods { a with problems := a.problems ++ p :: rest } =
        { a with problems := a.problems ++ p :: (rest ++ more) } := by
      rw [hmore]
      simp
    rw [hnotes]
    exact .refused provided p (rest ++ more) cause same

/-- The names of a body's methods are entered in the order in which the methods are. -/
theorem keys_addBody (composed : Methods) (methods : List NamedFunction)
    (frame : Option FrameId) :
    withMethods composed.keys methods = (addBody composed methods frame).keys := by
  induction methods generalizing composed with
  | nil => rfl
  | cons first rest ih =>
    have hrest := ih (composed.insert first.name.text
      (first.closure frame (first.name.text = initializerName)))
    rw [Dictionary.keys_insert] at hrest
    have hstep : withMethods composed.keys (first :: rest) =
        withMethods (if first.name.text ∈ composed.keys then composed.keys
          else composed.keys ++ [first.name.text]) rest := by
      unfold withMethods
      rw [List.foldl_cons]
      simp only [List.contains_iff_mem]
    rw [hstep, hrest]
    rfl

/-- A composition that succeeds has the names that the check of it found. -/
theorem names_of_composed {a : Analysis} {m m' : Machine} {traits : List Reference}
    {methods : List NamedFunction} (known : ∀ ref ∈ traits, Knows a m ref) {composed : Methods}
    (h : composeTraits traits methods m = .ok composed m') (frame : Option FrameId) :
    m' = m ∧ (checkComposition traits methods a).1 = (addBody composed methods frame).keys := by
  have halike := alike_checkComposition a m traits methods known
  rw [h] at halike
  have hnames : (checkComposition traits methods a).1 =
      withMethods (provideAll traits ([], a)).1 methods := rfl
  rw [hnames]
  generalize (provideAll traits ([], a)).1 = provided at halike ⊢
  generalize (checkComposition traits methods a).2 = checked at halike
  cases halike with
  | composed table => exact ⟨rfl, keys_addBody composed methods frame⟩

/-! ## Traits of traits -/

/-- A reference denotes what is declared next in the current scope. -/
def DenotesNext (m : Machine) (ref : Reference) : Prop :=
  match m.current with
  | none => True
  | some frame => m.bindings[ref.id]? = some ⟨0, m.frames.nextSlot frame⟩

/-- What a reference denotes: a local variable if it has a binding, and a global otherwise. -/
theorem lookUp_eq_ok_iff {m : Machine} {id : RefId} {name : String} {line : Nat} {v : Value} :
    Run.lookUp id name line m = .ok v m ↔
      (∃ b frame, m.bindings[id]? = some b ∧ m.current = some frame ∧
        m.frames.get frame b.depth b.slot = .ok v) ∨
      (∀ b frame, m.bindings[id]? = some b → m.current = some frame → False) ∧
        m.globals.get? name = some v := by
  rcases local_or_global m id with
    ⟨b, frame, holder, hb, hframe, hholder⟩ | ⟨b, frame, fault, hb, hframe, hfault⟩ | hglobal
  · rw [lookUp_local hb hframe, slotValue, Frames.get_eq_ok _ hholder]
    simp [hb, hframe, Frames.get_eq_ok _ hholder]
  · rw [lookUp_local hb hframe, slotValue, Frames.get_eq_error _ hfault]
    simp [hb, hframe, Frames.get_eq_error _ hfault]
  · rw [lookUp_global hglobal]
    have hnone : ¬∃ b frame, m.bindings[id]? = some b ∧ m.current = some frame ∧
        m.frames.get frame b.depth b.slot = .ok v := by
      rintro ⟨b, frame, hb, hframe, -⟩
      exact hglobal b frame hb hframe
    rw [or_iff_right hnone, and_iff_right hglobal]
    cases m.globals.get? name with
    | none => simp
    | some found => simp

/-- A reference to what has just been declared finds it. -/
theorem lookUp_declared {m : Machine} (rooted : m.Rooted) {ref : Reference}
    (next : DenotesNext m ref) (v : Value) :
    Run.lookUp ref.id ref.name.text ref.name.line (m.declared ref.name.text v) =
      .ok v (m.declared ref.name.text v) := by
  unfold DenotesNext at next
  cases hcurrent : m.current with
  | none =>
    rw [Machine.declared_of_none hcurrent, Run.lookUp]
    simp [hcurrent, Dictionary.get?_insert]
  | some frame =>
    simp only [hcurrent] at next
    have hvalues : (m.frames.define frame v).values frame = (m.frames.values frame).push v := by
      rw [Frames.values_define _ _ _ _ (rooted frame hcurrent), if_pos rfl]
    have hholder : (m.frames.define frame v).holder frame 0 (m.frames.nextSlot frame) =
        .ok frame := by
      refine (Frames.holder_eq_ok _).mpr ⟨rfl, ?_⟩
      rw [hvalues, Array.size_push]
      exact Nat.lt_succ_self _
    have hget : (m.frames.define frame v).get frame 0 (m.frames.nextSlot frame) = .ok v := by
      rw [Frames.get_eq_ok _ hholder, hvalues]
      simp [Frames.nextSlot]
    rw [Machine.declared_of_some hcurrent, Run.lookUp]
    simp only [next, hcurrent, hget]

/-- A reference of another name denotes what it denoted before. -/
theorem lookUp_declared_other {m : Machine} {ref : Reference} {name : String} {v : Value}
    (other : ref.name.text ≠ name)
    (h : Run.lookUp ref.id ref.name.text ref.name.line m = .ok v m) (value : Value) :
    Run.lookUp ref.id ref.name.text ref.name.line (m.declared name value) =
      .ok v (m.declared name value) := by
  rw [lookUp_eq_ok_iff] at h ⊢
  cases hcurrent : m.current with
  | none =>
    rw [Machine.declared_of_none hcurrent]
    rcases h with ⟨b, frame, -, hframe, -⟩ | ⟨-, hglobal⟩
    · rw [hcurrent] at hframe
      cases hframe
    · refine .inr ⟨by simp [hcurrent], ?_⟩
      rw [Dictionary.get?_insert, if_neg other.symm]
      exact hglobal
  | some found =>
    rw [Machine.declared_of_some hcurrent]
    rcases h with ⟨b, frame, hb, hframe, hget⟩ | ⟨hnone, hglobal⟩
    · exact .inl ⟨b, frame, hb, hframe, Frames.get_define _ hget found value⟩
    · exact .inr ⟨hnone, hglobal⟩

/-- What the declaration of a trait leaves behind, if its traits are known and it succeeds. -/
theorem declared_of_run {name : Name} {traits : List Reference} {methods : List NamedFunction}
    {a : Analysis} {m m' : Machine} (known : ∀ ref ∈ traits, Knows a m ref)
    (run : declareTrait name traits methods m = .ok () m') :
    ∃ t : Trait, (checkComposition traits methods a).1 = t.methods.keys ∧
      m' = Machine.declared { m with identities := m.identities + 1 } name.text
        (.traitValue m.identities t) := by
  unfold declareTrait at run
  simp only [bind, EStateM.bind] at run
  cases hcompose : composeTraits traits methods m with
  | error stop m₁ =>
    rw [hcompose] at run
    cases run
  | ok composed m₁ =>
    obtain ⟨rfl, hkeys⟩ := names_of_composed known hcompose m.current
    rw [hcompose] at run
    simp only [Run.current, Run.newIdentity, declare_eq, EStateM.Result.ok.injEq,
      true_and] at run
    exact ⟨⟨name.text, addBody composed methods m₁.current⟩, hkeys, run.symm⟩

/-- Behind the declaration of a trait its own name is known, too, and other ones still are. -/
theorem knows_traitDecl {context : Context} {name : Name} {traits : List Reference}
    {methods : List NamedFunction} {a : Analysis} {m m' : Machine} (rooted : m.Rooted)
    (known : ∀ ref ∈ traits, Knows (atTraits name traits a) m ref)
    (run : declareTrait name traits methods m = .ok () m') (ref : Reference) :
    (ref.name.text = name.text → DenotesNext m ref →
      Knows (resolveStmt context (.traitDecl name traits methods) a) m' ref) ∧
    (ref.name.text ≠ name.text → Knows a m ref →
      Knows (resolveStmt context (.traitDecl name traits methods) a) m' ref) := by
  obtain ⟨t, hkeys, rfl⟩ := declared_of_run known run
  constructor
  · intro same next
    have hrooted : Machine.Rooted { m with identities := m.identities + 1 } := rooted
    have hnext : DenotesNext { m with identities := m.identities + 1 } ref := next
    have hread := lookUp_declared hrooted hnext (.traitValue m.identities t)
    rw [same] at hread
    refine ⟨(checkComposition traits methods (atTraits name traits a)).1, m.identities, t,
      ?_, ?_, ?_⟩
    · rw [same]
      exact known_traitDecl context name traits methods a
    · rw [same]
      exact hread
    · rw [hkeys]
  · rintro other ⟨names, id, t', hknown, hread, hnames⟩
    refine ⟨names, id, t', ?_, ?_, hnames⟩
    · rw [known_traitDecl_other context other traits methods a]
      exact hknown
    -- A lookup does not depend on how many identities have been given out.
    · have hread' : Run.lookUp ref.id ref.name.text ref.name.line
          { m with identities := m.identities + 1 } =
            .ok (.traitValue id t') { m with identities := m.identities + 1 } := by
        have hfound := lookUp_eq_ok_iff.mp hread
        exact lookUp_eq_ok_iff.mpr hfound
      exact lookUp_declared_other other hread' _

/-! ## Agreement -/

/-- The check of a composition before a run and the composition in the run agree where both know the
same names of methods for the traits that are used. The check adds no problem if and only if the
traits are composed; otherwise the first problem that it adds has the line and the message of the
failure; and the names that it finds are those of the table of methods, in the same order, whether
a class or a trait gets them. So behind the declaration of a trait its name is known in the same
sense, and the names that were known still are. -/
theorem trait_checks_agree (a : Analysis) (m : Machine) (traits : List Reference)
    (methods : List NamedFunction) (known : ∀ ref ∈ traits, Knows a m ref) :
    ((checkComposition traits methods a).2.problems = a.problems ↔
      ∃ composed m', composeTraits traits methods m = .ok composed m') ∧
    (∀ stop m', composeTraits traits methods m = .error stop m' →
      ∃ p rest cause, (checkComposition traits methods a).2.problems = a.problems ++ p :: rest ∧
        stop = .failed p.word.line cause ∧ p.cause.message = cause.message) ∧
    (∀ composed m', composeTraits traits methods m = .ok composed m' → ∀ frame,
      (checkComposition traits methods a).1 = (addBody composed methods frame).keys) ∧
    ∀ (context : Context) (name : Name) (before : Analysis) (m' : Machine),
      a = atTraits name traits before → m.Rooted →
      declareTrait name traits methods m = .ok () m' → ∀ ref : Reference,
      (ref.name.text = name.text → DenotesNext m ref →
        Knows (resolveStmt context (.traitDecl name traits methods) before) m' ref) ∧
      (ref.name.text ≠ name.text → Knows before m ref →
        Knows (resolveStmt context (.traitDecl name traits methods) before) m' ref) := by
  have halike := alike_checkComposition a m traits methods known
  -- All four parts are read off the one relation between what is checked and what is composed.
  generalize (provideAll traits ([], a)).1 = provided at halike
  refine ⟨?_, ?_, ?_, ?_⟩
  · generalize (checkComposition traits methods a).2 = checked at halike ⊢
    cases hrun : composeTraits traits methods m with
    | ok composed m' =>
      rw [hrun] at halike
      cases halike with
      | composed table => exact ⟨fun _ => ⟨composed, m, rfl⟩, fun _ => rfl⟩
    | error stop m' =>
      rw [hrun] at halike
      cases halike with
      | refused provided p rest cause same =>
        refine ⟨fun h => absurd h (by simp), ?_⟩
        rintro ⟨composed, m₁, h⟩
        cases h
  · intro stop m' hrun
    rw [hrun] at halike
    generalize (checkComposition traits methods a).2 = checked at halike ⊢
    cases halike with
    | refused provided p rest cause same => exact ⟨p, rest, cause, rfl, rfl, same⟩
  · intro composed m' hrun frame
    exact (names_of_composed known hrun frame).2
  · rintro context name before m' rfl rooted run ref
    exact knows_traitDecl rooted known run ref

/-- A trait with a method that is used twice, before a run and in it. -/
def repeatedTrait : List Reference :=
  [⟨0, ⟨"T", 1⟩⟩, ⟨1, ⟨"T", 2⟩⟩]

/-- A trait among the globals that is known to have a method `m`. -/
def knowingTrait : Analysis :=
  { Analysis.start with globalTraits := Dictionary.empty.insert "T" ["m"] }

/-- A machine with that trait. -/
def holdingTrait : Machine :=
  { Machine.start .plain (.working "") with
    globals := Dictionary.empty.insert "T" (.traitValue 0
      ⟨"T", Dictionary.empty.insert "m" ⟨some "m", .mk [] [], none, false⟩⟩) }

theorem trait_checks_agree_repeated :
    (∀ ref ∈ repeatedTrait, Knows knowingTrait holdingTrait ref) ∧
      ∀ stop m', composeTraits repeatedTrait [] holdingTrait = .error stop m' →
        ∃ p rest cause,
          (checkComposition repeatedTrait [] knowingTrait).2.problems =
            knowingTrait.problems ++ p :: rest ∧
          stop = .failed p.word.line cause ∧ p.cause.message = cause.message := by
  have known : ∀ ref ∈ repeatedTrait, Knows knowingTrait holdingTrait ref := by
    intro ref href
    have hread : Run.lookUp ref.id ref.name.text ref.name.line holdingTrait =
        .ok (.traitValue 0 ⟨"T", Dictionary.empty.insert "m" ⟨some "m", .mk [] [], none, false⟩⟩)
          holdingTrait := by
      rcases List.mem_cons.mp href with rfl | href
      · rfl
      · obtain rfl := List.mem_singleton.mp href
        rfl
    have htext : ref.name.text = "T" := by
      rcases List.mem_cons.mp href with rfl | href
      · rfl
      · obtain rfl := List.mem_singleton.mp href
        rfl
    refine ⟨["m"], 0, _, ?_, hread, List.Perm.refl _⟩
    rw [htext]
    rfl
  exact ⟨known, (trait_checks_agree knowingTrait holdingTrait repeatedTrait [] known).2.1⟩

end Scoping

end LoxLang
