import LoxLang.Proofs.Evaluation.Lineage

/-!
# Inheritance

The classes that a class inherits from, nearest first, are a list (`Class.chain`). In a class that
was declared by a run each of them was created after the next one, and the metaclasses of all of
them extend each other as the classes do. So a method of instances as well as one of the class
itself is that of the first class in the list that has one of the name (`Class.Made.lawful`).
-/

namespace LoxLang

/-! ## Chains -/

/-- A class and the classes it inherits from, nearest first. -/
def Class.chain : Class → List Class
  | mk id name none methods metaclass => [mk id name none methods metaclass]
  | mk id name (some superclass) methods metaclass =>
    mk id name (some superclass) methods metaclass :: superclass.chain

/-- The methods that a class has itself for objects of a kind. -/
def Class.own (c : Class) : Kind → Methods
  | .instances => c.methods
  | .classes =>
    match c.metaclass with
    | some metaclass => metaclass.methods
    | none => Dictionary.empty

/-- The last function of a name in a list. -/
def methodNamed? (methods : List NamedFunction) (name : String) : Option NamedFunction :=
  methods.reverse.find? fun method => method.name.text = name

/-- The methods that a declared class has itself: for instances those of the body and, for names
that the body has none of, those of the traits that are used; for the class those of the body. -/
structure ClassDeclaration.Owns (d : ClassDeclaration) : Prop where
  instances : ∀ name, (d.declared.own .instances).get? name =
    match methodNamed? d.methods name with
    | some g => some (g.closure d.frame (g.name.text = initializerName))
    | none => d.composed.get? name
  composed : ∀ name f, d.composed.get? name = some f ↔
    ∃ ref ∈ d.traits, ∃ id t,
      Run.lookUp ref.id ref.name.text ref.name.line d.scene.machine =
        .ok (.traitValue id t) d.scene.machine ∧ t.methods.get? name = some f
  classes : ∀ name, (d.declared.own .classes).get? name =
    (methodNamed? d.classMethods name).map fun g => g.closure d.frame false

/-- A class in order: it and all classes it inherits from were declared, each after the next one
was created; the metaclass of each extends that of the next one; and what is found for a name is
what the nearest class has that has something of the name. -/
structure Class.Lawful (past : Step → Prop) (c : Class) : Prop where
  declared : ∀ k ∈ c.chain, ∃ d : ClassDeclaration, past d.step ∧ d.Succeeds ∧ k = d.declared ∧
    d.Owns
  created : c.chain.Pairwise fun k superclass => superclass.id < k.id
  metaclass : ∀ k ∈ c.chain, ∃ metaclass, k.metaclass = some metaclass ∧
    metaclass.superclass = k.superclass.bind Class.metaclass
  found : ∀ kind name,
    c.find? kind name = c.chain.findSome? fun k => (k.own kind).get? name

theorem Class.chain_eq (c : Class) :
    c.chain = c :: (match c.superclass with | some k => k.chain | none => []) := by
  obtain ⟨id, name, superclass, methods, metaclass⟩ := c
  cases superclass with
  | none => rw [chain, superclass]
  | some k => rw [chain, superclass]

/-- The method of a name that instances have is that of the nearest class. -/
theorem Class.findMethod?_eq_chain (name : String) :
    ∀ c : Class, c.findMethod? name = c.chain.findSome? fun k => (k.own .instances).get? name
  | mk _ _ none methods _ => by
    rw [findMethod?, chain, List.findSome?_singleton, own, Class.methods]
  | mk _ _ (some superclass) methods _ => by
    rw [findMethod?, chain, List.findSome?_cons, ← superclass.findMethod?_eq_chain name, own,
      Class.methods]
    cases methods.get? name <;> rfl

/-! ## Tables -/

/-- Of methods with one name the last one counts. -/
theorem methodNamed?_cons (first : NamedFunction) (rest : List NamedFunction) (name : String) :
    methodNamed? (first :: rest) name =
      (methodNamed? rest name).or (if first.name.text = name then some first else none) := by
  unfold methodNamed?
  rw [List.reverse_cons, List.find?_append, List.find?_singleton]
  simp only [decide_eq_true_eq]

theorem get?_addBody (composed : Methods) (methods : List NamedFunction) (frame : Option FrameId)
    (name : String) :
    (addBody composed methods frame).get? name =
      match methodNamed? methods name with
      | some g => some (g.closure frame (g.name.text = initializerName))
      | none => composed.get? name := by
  induction methods generalizing composed with
  | nil => rfl
  | cons first rest ih =>
    show (addBody (composed.insert first.name.text _) rest frame).get? name = _
    rw [ih, Dictionary.get?_insert, methodNamed?_cons]
    cases methodNamed? rest name with
    | some g => rfl
    | none => by_cases hname : first.name.text = name <;> simp [hname]

theorem get?_classMethodTable (methods : List NamedFunction) (frame : Option FrameId)
    (name : String) :
    (classMethodTable methods frame).get? name =
      (methodNamed? methods name).map fun g => g.closure frame false := by
  have htable : ∀ table : Methods, (methods.foldl
      (fun table g => table.insert g.name.text (g.closure frame false)) table).get? name =
        ((methodNamed? methods name).map fun g => g.closure frame false).or (table.get? name) := by
    induction methods with
    | nil => exact fun table => rfl
    | cons first rest ih =>
      intro table
      rw [List.foldl_cons, ih, Dictionary.get?_insert, methodNamed?_cons]
      cases methodNamed? rest name with
      | some g => rfl
      | none => by_cases hname : first.name.text = name <;> simp [hname]
  exact (htable Dictionary.empty).trans (Option.or_none)

/-! ## Methods of traits -/

theorem mem_sortedKeys_of_get? {methods : Methods} {name : String} {f : Closure}
    (h : methods.get? name = some f) : name ∈ methods.sortedKeys := by
  unfold Dictionary.sortedKeys
  rw [List.mem_mergeSort]
  obtain ⟨entries⟩ := methods
  unfold Dictionary.get? at h
  unfold Dictionary.keys
  induction entries with
  | nil => cases h
  | cons entry rest ih =>
    unfold Dictionary.find? at h
    split at h
    · next hname => exact hname ▸ List.mem_cons_self
    · exact List.mem_cons_of_mem _ (ih h)

/-- Methods of a trait are added if none of them is there yet. -/
theorem ensures_addMethods (line : Nat) (provided : Methods) (names : List String)
    (composed : Methods) (m : Machine) :
    Ensures (addMethods line provided names composed) m
      (fun table m' => m' = m ∧ ∀ name f, table.get? name = some f ↔
        composed.get? name = some f ∨ name ∈ names ∧ provided.get? name = some f)
      fun _ _ => True := by
  induction names generalizing composed with
  | nil => exact ⟨rfl, by simp⟩
  | cons first rest ih =>
    unfold addMethods
    by_cases hcontains : composed.contains first
    · rw [if_pos hcontains]
      trivial
    · rw [if_neg hcontains]
      have hnone : composed.get? first = none := by
        simpa [Dictionary.contains] using hcontains
      -- A name that nothing is provided for adds nothing, as it adds nothing to the other side.
      cases hmethod : provided.get? first with
      | some method =>
        refine Ensures.mono (ih (composed.insert first method)) ?_ fun _ _ h => h
        rintro table _ ⟨rfl, htable⟩
        refine ⟨rfl, fun name f => ?_⟩
        rw [htable, Dictionary.get?_insert]
        by_cases hname : first = name
        · subst hname
          simp [hnone, hmethod]
        · simp [hname, Ne.symm hname]
      | none =>
        refine Ensures.mono (ih composed) ?_ fun _ _ h => h
        rintro table _ ⟨rfl, htable⟩
        refine ⟨rfl, fun name f => ?_⟩
        rw [htable]
        by_cases hname : first = name
        · subst hname
          simp [hnone, hmethod]
        · simp [Ne.symm hname]

/-- The methods of the traits that are used are those of each one. -/
theorem ensures_addTraits (traits : List Reference) (composed : Methods) (m : Machine) :
    Ensures (addTraits traits composed) m
      (fun table m' => m' = m ∧ ∀ name f, table.get? name = some f ↔
        composed.get? name = some f ∨ ∃ ref ∈ traits, ∃ id t,
          Run.lookUp ref.id ref.name.text ref.name.line m = .ok (.traitValue id t) m ∧
            t.methods.get? name = some f)
      fun _ _ => True := by
  induction traits generalizing composed with
  | nil => exact ⟨rfl, by simp⟩
  | cons ref rest ih =>
    have hread : Ensures (Run.lookUp ref.id ref.name.text ref.name.line) m
        (fun v m' => m' = m ∧ m.Stores v) fun _ _ => True :=
      (ensures_lookUp ref.id ref.name.text ref.name.line m).mono (fun _ _ h => h)
        fun _ _ _ => trivial
    refine hread.outcome.bind ?_
    rintro v m ⟨⟨rfl, -⟩, hv⟩
    cases v with
    | traitValue id t =>
      refine (ensures_addMethods ref.name.line t.methods t.methods.sortedKeys composed _).bind ?_
      rintro added m ⟨rfl, hadded⟩
      refine (ih added).mono ?_ fun _ _ h => h
      rintro table m ⟨rfl, htable⟩
      refine ⟨rfl, fun name f => ?_⟩
      -- The reference denotes one trait only, whose methods are just those with a name among its
      -- keys.
      have hhere : (name ∈ t.methods.sortedKeys ∧ t.methods.get? name = some f) ↔
          ∃ id' t', Run.lookUp ref.id ref.name.text ref.name.line m = .ok (.traitValue id' t') m ∧
            t'.methods.get? name = some f := by
        refine ⟨fun h => ⟨id, t, hv, h.2⟩, ?_⟩
        rintro ⟨id', t', hv', hf⟩
        cases hv.symm.trans hv'
        exact ⟨mem_sortedKeys_of_get? hf, hf⟩
      rw [htable, hadded, or_assoc, hhere]
      simp only [List.mem_cons, exists_eq_or_imp]
    | _ => trivial

theorem composeTraits_of_ok {traits : List Reference} {methods : List NamedFunction}
    {composed : Methods} {m m' : Machine} (h : composeTraits traits methods m = .ok composed m')
    (name : String) (f : Closure) :
    composed.get? name = some f ↔ ∃ ref ∈ traits, ∃ id t,
      Run.lookUp ref.id ref.name.text ref.name.line m = .ok (.traitValue id t) m ∧
        t.methods.get? name = some f := by
  have hcompose : Ensures (composeTraits traits methods) m
      (fun table _ => ∀ name f, table.get? name = some f ↔ ∃ ref ∈ traits, ∃ id t,
        Run.lookUp ref.id ref.name.text ref.name.line m = .ok (.traitValue id t) m ∧
          t.methods.get? name = some f) fun _ _ => True := by
    refine (ensures_addTraits traits Dictionary.empty m).bind ?_
    rintro table _ ⟨rfl, htable⟩
    refine ensures_last (fun _ _ => (ensures_pure _).mpr fun name f => ?_) _
    exact (htable name f).trans ⟨fun found => found.resolve_left nofun, .inr⟩
  exact hcompose.of_ok h name f

theorem ClassDeclaration.Succeeds.owns {d : ClassDeclaration} (h : d.Succeeds) : d.Owns where
  instances := get?_addBody d.composed d.methods d.frame
  composed := composeTraits_of_ok h.composed
  classes := get?_classMethodTable d.classMethods d.frame

/-! ## Classes that were made -/

section

variable {past : Step → Prop} {s : Scene} {c : Class}

theorem Class.Made.of_chain (h : c.Made past s) : ∀ k ∈ c.chain, k.Made past s := by
  induction h with
  | @mk d done composed superclass older ih =>
    intro k hk
    rw [Class.chain_eq, ClassDeclaration.declared, Class.superclass] at hk
    rcases List.mem_cons.mp hk with rfl | hk
    · exact .mk done composed superclass older
    · cases hextended : d.extended with
      | none =>
        rw [hextended] at hk
        cases hk
      | some parent =>
        rw [hextended] at hk
        exact ih parent hextended k hk

/-- The classes that a class inherits from were created before it, the farthest first. -/
theorem Class.Made.created (h : c.Made past s) :
    c.chain.Pairwise fun k superclass => superclass.id < k.id := by
  induction h with
  | @mk d done composed superclass older ih =>
    rw [Class.chain_eq, ClassDeclaration.declared, Class.superclass]
    cases hextended : d.extended with
    | none => exact List.pairwise_singleton _ _
    | some parent =>
      have hparent := ih parent hextended
      refine List.pairwise_cons.mpr ⟨fun k hk => ?_, hparent⟩
      have holder : k.id ≤ parent.id := by
        change k ∈ parent.chain at hk
        rw [Class.chain_eq] at hk hparent
        rcases List.mem_cons.mp hk with rfl | hk
        · exact Nat.le_refl _
        · exact Nat.le_of_lt ((List.pairwise_cons.mp hparent).1 k hk)
      exact Nat.lt_succ_of_lt (Nat.lt_of_le_of_lt holder (older parent hextended))

/-- The method of a name that a class has itself is that of the nearest class. -/
theorem Class.Made.findClassMethod?_eq_chain (h : c.Made past s) (name : String) :
    c.findClassMethod? name = c.chain.findSome? fun k => (k.own .classes).get? name := by
  induction h with
  | @mk d done composed superclass older ih =>
    have hown : d.declared.own .classes = classMethodTable d.classMethods d.frame := rfl
    have hsuperclass : d.declared.superclass = d.extended := rfl
    have hfind : d.declared.findClassMethod? name = d.metaclass.findMethod? name := rfl
    rw [Class.chain_eq, List.findSome?_cons, hown, hsuperclass, hfind, ClassDeclaration.metaclass]
    cases hextended : d.extended with
    | none =>
      rw [Option.bind_none, Class.findMethod?]
      cases (classMethodTable d.classMethods d.frame).get? name <;> rfl
    | some parent =>
      have hparent := ih parent hextended
      cases superclass parent hextended with
      | @mk e _ _ _ _ =>
        have hmeta : (some e.declared).bind Class.metaclass = some e.metaclass := rfl
        rw [hmeta, Class.findMethod?]
        cases (classMethodTable d.classMethods d.frame).get? name with
        | some f => rfl
        | none => exact hparent

/-- A class that was declared is in order. -/
theorem Class.Made.lawful (h : c.Made past s) : c.Lawful past where
  declared k hk := by
    cases h.of_chain k hk with
    | mk done _ _ _ => exact ⟨_, done.step, done.succeeds, rfl, done.succeeds.owns⟩
  created := h.created
  metaclass k hk := by
    cases h.of_chain k hk with
    | mk done _ _ _ => exact ⟨_, rfl, rfl⟩
  found kind name := by
    cases kind with
    | instances => exact c.findMethod?_eq_chain name
    | classes => exact h.findClassMethod?_eq_chain name

end

end LoxLang
