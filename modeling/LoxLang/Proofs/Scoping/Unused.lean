import LoxLang.Proofs.Scoping.Extents
import LoxLang.Proofs.Scoping.Recording
import LoxLang.Proofs.Scoping.Reports

/-!
# Local variables that are not used

Which local variables resolution reports as not used. The walk keeps the progress of every variable
of the scopes around it. What a part of the walk does to it is said by the mentions of the part
(`touched`) and by the local variables that it adds to the innermost scope (`grown`), whether or not
it meets misuses. At the end of an extent, the variables that are left without a reader are those
that nothing but their own initializer refers to (`unused_exact`).
-/

namespace LoxLang

namespace Scoping

open Analysis Surroundings

/-- The causes that have to do with the use of a variable. -/
def Cause.ofUse : Cause → Bool
  | neverRead => true
  | _ => false

theorem unconcerned_ofUse : Unconcerned Cause.ofUse :=
  ⟨rfl, rfl, rfl, fun _ => rfl, fun _ => rfl⟩

/-! ## The variables of the scopes -/

/-- The variables of scopes, innermost first. -/
abbrev Stack := List (List Variable)

/-- The variables of the scopes around the present place. -/
def Analysis.stack (a : Analysis) : Stack :=
  a.scopes.map Scope.slots

theorem names_eq_stack (a : Analysis) :
    a.names = a.stack.map fun scope => scope.map fun v => v.name.text := by
  simp only [Analysis.names, Analysis.stack, List.map_map]
  rfl

theorem length_stack {a : Analysis} {around : Surroundings} (h : a.names = namesOf around) :
    a.stack.length = around.length := by
  rw [names_eq_stack] at h
  have hlength := congrArg List.length h
  simpa [namesOf] using hlength

/-! ## What reading does to them -/

/-- A variable after mentions, some of which may refer to it. -/
def Variable.readBy (level : Nat) (mentions : List Mention) (v : Variable) : Variable :=
  { v with
    progress :=
      if mentions.any (·.readsFrom level v.name.text) then v.progress.markRead else v.progress }

/-- The variables of scopes after mentions. -/
def touched (mentions : List Mention) : Stack → Stack
  | [] => []
  | scope :: outer => scope.map (·.readBy outer.length mentions) :: touched mentions outer

theorem Variable.readBy_eq_self {level : Nat} {mentions : List Mention} {v : Variable}
    (h : v.progress.markRead = v.progress) : v.readBy level mentions = v := by
  simp only [readBy, h, ite_self]

theorem Variable.readBy_of_none {level : Nat} {mentions : List Mention} {v : Variable}
    (h : ∀ mention ∈ mentions, mention.readsFrom level v.name.text = false) :
    v.readBy level mentions = v := by
  have hany : mentions.any (·.readsFrom level v.name.text) = false := by
    rw [List.any_eq_false]
    intro mention hmention
    rw [h mention hmention]
    exact Bool.false_ne_true
  simp [readBy, hany]

theorem Progress.markRead_markRead (p : Progress) : p.markRead.markRead = p.markRead := by
  cases p <;> rfl

theorem Variable.readBy_append (level : Nat) (mentions mentions' : List Mention) (v : Variable) :
    v.readBy level (mentions ++ mentions') = (v.readBy level mentions).readBy level mentions' := by
  rcases Bool.eq_false_or_eq_true (mentions.any (·.readsFrom level v.name.text)) with h | h <;>
    rcases Bool.eq_false_or_eq_true (mentions'.any (·.readsFrom level v.name.text)) with h' | h' <;>
    simp [readBy, List.any_append, h, h', Progress.markRead_markRead]

theorem Variable.progress_readBy_ne {level : Nat} {mentions : List Mention} {v : Variable}
    (h : v.progress ≠ .declared) : (v.readBy level mentions).progress ≠ .declared := by
  unfold readBy
  cases hprogress : v.progress with
  | declared => exact absurd hprogress h
  | defined | read => cases mentions.any (·.readsFrom level v.name.text) <;> simp [Progress.markRead]

@[simp] theorem length_touched (mentions : List Mention) (stack : Stack) :
    (touched mentions stack).length = stack.length := by
  induction stack with
  | nil => rfl
  | cons scope outer ih => simp [touched, ih]

theorem touched_eq_self {mentions : List Mention} {stack : Stack}
    (h : ∀ mention ∈ mentions, ∀ level < stack.length, ∀ name,
      mention.readsFrom level name = false) : touched mentions stack = stack := by
  induction stack with
  | nil => rfl
  | cons scope outer ih =>
    have houter := ih fun mention hmention level hlevel =>
      h mention hmention level (Nat.lt_succ_of_lt hlevel)
    have hscope : scope.map (·.readBy outer.length mentions) = scope := by
      apply List.map_id''
      intro v
      exact Variable.readBy_of_none fun mention hmention =>
        h mention hmention outer.length (Nat.lt_succ_self _) v.name.text
    rw [touched, hscope, houter]

@[simp] theorem touched_nil (stack : Stack) : touched [] stack = stack :=
  touched_eq_self fun _ hmention => by cases hmention

theorem touched_append (mentions mentions' : List Mention) (stack : Stack) :
    touched (mentions ++ mentions') stack = touched mentions' (touched mentions stack) := by
  induction stack with
  | nil => rfl
  | cons scope outer ih =>
    simp only [touched, ih, List.map_map, length_touched]
    congr 1
    apply List.map_congr_left
    intro v _
    exact Variable.readBy_append _ _ _ v

theorem touched_swap (mentions mentions' : List Mention) (stack : Stack) :
    touched (mentions ++ mentions') stack = touched (mentions' ++ mentions) stack := by
  induction stack with
  | nil => rfl
  | cons scope outer ih =>
    simp only [touched, ih, Variable.readBy, List.any_append, Bool.or_comm]

theorem names_touched (mentions : List Mention) (stack : Stack) :
    (touched mentions stack).map (fun scope => scope.map fun v => v.name.text) =
      stack.map fun scope => scope.map fun v => v.name.text := by
  induction stack with
  | nil => rfl
  | cons scope outer ih => simp [touched, ih, Variable.readBy, Function.comp_def]

/-! ## Variables that need no reader, and declarations that have begun -/

/-- Every variable is exempt from being read, or has a name that a text can declare. -/
def Proper (stack : Stack) : Prop :=
  ∀ scope ∈ stack, ∀ v ∈ scope,
    v.progress = .read ∨ (v.name.text ≠ thisName ∧ v.name.text ≠ superName)

/-- The present place does not lie in an initializer of the innermost scope. -/
def Settled : Stack → Prop
  | [] => True
  | scope :: _ => ∀ v ∈ scope, v.progress ≠ .declared

theorem Proper.touched {stack : Stack} (h : Proper stack) (mentions : List Mention) :
    Proper (touched mentions stack) := by
  induction stack with
  | nil => exact h
  | cons scope outer ih =>
    intro scope' hscope'
    rcases List.mem_cons.mp hscope' with rfl | hscope'
    · intro v' hv'
      obtain ⟨v, hv, rfl⟩ := List.mem_map.mp hv'
      rcases h scope List.mem_cons_self v hv with hread | hname
      · left
        rw [Variable.readBy_eq_self (by rw [hread]; rfl), hread]
      · exact .inr hname
    · exact ih (fun s hs => h s (List.mem_cons_of_mem _ hs)) scope' hscope'

theorem Settled.touched {stack : Stack} (h : Settled stack) (mentions : List Mention) :
    Settled (touched mentions stack) := by
  cases stack with
  | nil => exact h
  | cons scope outer =>
    intro v' hv'
    obtain ⟨v, hv, rfl⟩ := List.mem_map.mp hv'
    exact Variable.progress_readBy_ne (h v hv)

/-! ## What declarations do to them -/

/-- What a local variable has come to be. -/
def variableOf (level : Nat) (l : Local) : Variable :=
  (⟨l.name, .defined⟩ : Variable).readBy level l.following

/-- The innermost scope with local variables added. -/
def grown (locals : List Local) : Stack → Stack
  | [] => []
  | scope :: outer => (scope ++ locals.map (variableOf outer.length)) :: outer

@[simp] theorem grown_nil (stack : Stack) : grown [] stack = stack := by
  cases stack with
  | nil => rfl
  | cons scope outer => simp [grown]

theorem grown_append (locals locals' : List Local) (stack : Stack) :
    grown (locals ++ locals') stack = grown locals' (grown locals stack) := by
  cases stack with
  | nil => rfl
  | cons scope outer => simp [grown]

/-- What precedes a local variable does not count. -/
@[simp] theorem grown_behind (mentions : List Mention) (locals : List Local) (stack : Stack) :
    grown (locals.map (Local.behind mentions)) stack = grown locals stack := by
  cases stack with
  | nil => rfl
  | cons scope outer =>
    simp only [grown, List.map_map]
    rfl

/-- What follows a local variable may read it. -/
theorem touched_grown (mentions : List Mention) (locals : List Local) (stack : Stack) :
    touched mentions (grown locals stack) =
      grown (locals.map (Local.before mentions)) (touched mentions stack) := by
  cases stack with
  | nil => rfl
  | cons scope outer =>
    simp only [grown, touched, List.map_append, List.map_map, length_touched]
    congr 2
    apply List.map_congr_left
    intro l _
    exact (Variable.readBy_append _ _ _ _).symm

/-- The names of local variables are such as a text can declare. -/
def Explicit (locals : List Local) : Prop :=
  ∀ l ∈ locals, l.name.text ≠ thisName ∧ l.name.text ≠ superName

theorem Proper.grown {stack : Stack} (h : Proper stack) {locals : List Local}
    (explicit : Explicit locals) : Proper (grown locals stack) := by
  cases stack with
  | nil => exact h
  | cons scope outer =>
    intro scope' hscope'
    rcases List.mem_cons.mp hscope' with rfl | hscope'
    · intro v hv
      rcases List.mem_append.mp hv with hv | hv
      · exact h scope List.mem_cons_self v hv
      · obtain ⟨l, hl, rfl⟩ := List.mem_map.mp hv
        exact .inr (explicit l hl)
    · exact h scope' (List.mem_cons_of_mem _ hscope')

theorem Settled.grown {stack : Stack} (h : Settled stack) (locals : List Local) :
    Settled (grown locals stack) := by
  cases stack with
  | nil => exact h
  | cons scope outer =>
    intro v hv
    rcases List.mem_append.mp hv with hv | hv
    · exact h v hv
    · obtain ⟨l, -, rfl⟩ := List.mem_map.mp hv
      exact Variable.progress_readBy_ne (by simp)

/-! ## Parts of the walk -/

/-- Extents whose local variables have names that a text can declare. -/
def ExplicitExtents (extents : List Extent) : Prop :=
  ∀ x ∈ extents, Explicit x.locals

/-- A part of the walk reads what its mentions refer to, and reports the variables of its extents
that are not used. -/
def Touches (step : Analysis → Analysis) (around : Surroundings) (mentions : List Mention)
    (extents : List Extent) : Prop :=
  ExplicitExtents extents → ∀ a : Analysis, a.names = namesOf around → Proper a.stack →
    (step a).stack = touched mentions a.stack ∧
      (step a).reports Cause.ofUse = a.reports Cause.ofUse ++ extents.flatMap Extent.unread

/-- A part of the walk that also adds local variables to the innermost scope. -/
def Grows (step : Analysis → Analysis) (around behind : Surroundings) (mentions : List Mention)
    (locals : List Local) (extents : List Extent) : Prop :=
  Explicit locals → ExplicitExtents extents →
    ∀ a : Analysis, a.names = namesOf around → Proper a.stack → Settled a.stack →
      (step a).names = namesOf behind ∧
        (step a).stack = grown locals (touched mentions a.stack) ∧
        (step a).reports Cause.ofUse = a.reports Cause.ofUse ++ extents.flatMap Extent.unread

theorem ExplicitExtents.left {extents extents' : List Extent}
    (h : ExplicitExtents (extents ++ extents')) : ExplicitExtents extents :=
  fun x hx => h x (List.mem_append_left _ hx)

theorem ExplicitExtents.right {extents extents' : List Extent}
    (h : ExplicitExtents (extents ++ extents')) : ExplicitExtents extents' :=
  fun x hx => h x (List.mem_append_right _ hx)

theorem touches_of_stack {step : Analysis → Analysis}
    (stack : ∀ a : Analysis, (step a).stack = a.stack) (reports : Reports Cause.ofUse step [])
    (around : Surroundings) : Touches step around [] [] := by
  intro _ a _ _
  rw [touched_nil, List.flatMap_nil]
  exact ⟨stack a, reports a⟩

theorem Touches.names {step : Analysis → Analysis} {around : Surroundings}
    {mentions : List Mention} {extents : List Extent} (h : Touches step around mentions extents)
    (explicit : ExplicitExtents extents) {a : Analysis} (hnames : a.names = namesOf around)
    (proper : Proper a.stack) : (step a).names = namesOf around := by
  obtain ⟨hstack, -⟩ := h explicit a hnames proper
  rw [names_eq_stack, hstack, names_touched, ← names_eq_stack, hnames]

theorem Touches.comp {first second : Analysis → Analysis} {around : Surroundings}
    {mentions mentions' : List Mention} {extents extents' : List Extent}
    (h : Touches first around mentions extents) (h' : Touches second around mentions' extents') :
    Touches (fun a => second (first a)) around (mentions ++ mentions') (extents ++ extents') := by
  intro explicit a hnames proper
  have hbetween := h.names explicit.left hnames proper
  obtain ⟨hstack, hreports⟩ := h explicit.left a hnames proper
  have proper' : Proper (first a).stack := hstack ▸ proper.touched mentions
  obtain ⟨hstack', hreports'⟩ := h' explicit.right (first a) hbetween proper'
  constructor
  · rw [hstack', hstack, touched_append]
  · rw [hreports', hreports, List.flatMap_append, List.append_assoc]

/-- The order of the mentions does not count, only that of the extents. -/
theorem Touches.swap {step : Analysis → Analysis} {around : Surroundings}
    {mentions mentions' : List Mention} {extents : List Extent}
    (h : Touches step around (mentions ++ mentions') extents) :
    Touches step around (mentions' ++ mentions) extents := by
  intro explicit a hnames proper
  rw [touched_swap]
  exact h explicit a hnames proper

theorem Touches.grows {step : Analysis → Analysis} {around : Surroundings}
    {mentions : List Mention} {extents : List Extent} (h : Touches step around mentions extents) :
    Grows step around around mentions [] extents := by
  intro _ explicit a hnames proper _
  obtain ⟨hstack, hreports⟩ := h explicit a hnames proper
  exact ⟨h.names explicit hnames proper, by rw [hstack, grown_nil], hreports⟩

theorem Grows.comp {first second : Analysis → Analysis} {p q r : Surroundings}
    {mentions mentions' : List Mention} {locals locals' : List Local}
    {extents extents' : List Extent} (h : Grows first p q mentions locals extents)
    (h' : Grows second q r mentions' locals' extents') :
    Grows (fun a => second (first a)) p r (mentions ++ mentions')
      (locals.map (Local.before mentions') ++ locals'.map (Local.behind mentions))
      (extents ++ extents') := by
  intro explicit explicitExtents a hnames proper settled
  have explicit1 : Explicit locals := fun l hl =>
    explicit (l.before mentions') (List.mem_append_left _ (List.mem_map_of_mem hl))
  have explicit2 : Explicit locals' := fun l hl =>
    explicit (l.behind mentions) (List.mem_append_right _ (List.mem_map_of_mem hl))
  obtain ⟨hq, hstack, hreports⟩ := h explicit1 explicitExtents.left a hnames proper settled
  -- The second part starts among the variables that the first one leaves.
  have proper' : Proper (first a).stack := hstack ▸ (proper.touched mentions).grown explicit1
  have settled' : Settled (first a).stack := hstack ▸ (settled.touched mentions).grown locals
  obtain ⟨hr, hstack', hreports'⟩ :=
    h' explicit2 explicitExtents.right (first a) hq proper' settled'
  refine ⟨hr, ?_, ?_⟩
  · rw [hstack', hstack, touched_grown, ← touched_append, grown_append, grown_behind]
  · rw [hreports', hreports, List.flatMap_append, List.append_assoc]

/-! ## Reads -/

theorem stack_of_onlyNotes {a a' : Analysis} (h : OnlyNotes a a') : a'.stack = a.stack := by
  obtain ⟨more, rfl⟩ := h
  rfl

theorem stack_changeTraits (a : Analysis) (change : KnownTraits → KnownTraits) :
    (a.changeTraits change).stack = a.stack := by
  unfold Analysis.changeTraits Analysis.stack
  cases a.scopes <;> rfl

theorem stack_bind (a : Analysis) (id : RefId) (name : String) :
    (a.bind id name).stack = a.stack := by
  unfold Analysis.bind
  split <;> rfl

/-- A mention reads from no level but that of the variable that it denotes. -/
theorem readsFrom_eq_false {mention : Mention} {level : Nat}
    (h : mention.around.level? mention.occurrence.word ≠ some level) (name : String) :
    mention.readsFrom level name = false := by
  simp [Mention.readsFrom, h]

/-- In the scope of the variable that a mention denotes, this is marked as read. -/
theorem slots_update_markRead {mention : Mention} (form : mention.occurrence.form = .read)
    {level : Nat} (h : mention.around.level? mention.occurrence.word = some level) (scope : Scope) :
    (scope.update mention.occurrence.word Progress.markRead).slots =
      scope.slots.map (·.readBy level [mention]) := by
  apply List.map_congr_left
  intro v _
  by_cases hname : v.name.text = mention.occurrence.word
  · simp [Variable.readBy, Mention.readsFrom, form, hname, h]
  · have hne : mention.occurrence.word ≠ v.name.text := fun heq => hname heq.symm
    simp [Variable.readBy, Mention.readsFrom, hname, hne]

/-- In any other scope, nothing is. -/
theorem map_readBy_eq_self {mention : Mention} {level : Nat}
    (h : mention.around.level? mention.occurrence.word ≠ some level) (slots : List Variable) :
    slots.map (·.readBy level [mention]) = slots := by
  apply List.map_id''
  intro v
  apply Variable.readBy_of_none
  intro m hm
  obtain rfl := List.mem_singleton.mp hm
  exact readsFrom_eq_false h v.name.text

/-- The scope that a name is found in is the one whose variable it denotes. -/
theorem stack_markRead (mention : Mention) (form : mention.occurrence.form = .read)
    {scopes : List Scope} {around : Surroundings} (h : scopes.map Scope.names = namesOf around)
    (hlevel : mention.around.level? mention.occurrence.word =
      around.level? mention.occurrence.word) :
    (markRead mention.occurrence.word scopes).map Scope.slots =
      touched [mention] (scopes.map Scope.slots) := by
  induction scopes generalizing around with
  | nil => rfl
  | cons scope outer ih =>
    cases around with
    | nil => simp [namesOf] at h
    | cons begun further =>
      simp only [namesOf, List.map_cons, List.cons.injEq] at h
      obtain ⟨hinner, houter⟩ := h
      have hlevels : (outer.map Scope.slots).length = further.length := by
        simpa using congrArg List.length houter
      have hdeclares : scope.declares mention.occurrence.word = true ↔
          mention.occurrence.word ∈ begun.names := by
        rw [Scope.declares_iff, hinner]
      unfold markRead
      -- Only the innermost scope that has the name is changed, and the mention reads from just
      -- there.
      by_cases mem : mention.occurrence.word ∈ begun.names
      · simp only [level?, mem, if_true] at hlevel
        have hrest : touched [mention] (outer.map Scope.slots) = outer.map Scope.slots := by
          apply touched_eq_self
          intro m hm level hlt name
          obtain rfl := List.mem_singleton.mp hm
          refine readsFrom_eq_false ?_ name
          rw [hlevel, ne_eq, Option.some.injEq]
          omega
        rw [if_pos (hdeclares.mpr mem), List.map_cons, List.map_cons, touched, hrest, hlevels,
          slots_update_markRead form hlevel]
      · have hnew : scope.declares mention.occurrence.word = false := by
          rw [← Bool.not_eq_true, hdeclares]
          exact mem
        simp only [level?, mem, if_false] at hlevel
        -- The name lies further out, so that no variable of this scope is read.
        have hfurther : mention.around.level? mention.occurrence.word ≠ some further.length := by
          rw [hlevel]
          exact fun heq => absurd (level?_lt heq) (Nat.lt_irrefl _)
        simp only [hnew, Bool.false_eq_true, if_false, List.map_cons, touched, hlevels]
        rw [map_readBy_eq_self hfurther, ih houter hlevel]

/-- `this` and `super` denote variables that need no reader. -/
theorem stack_markRead_implicit {scopes : List Scope} (proper : Proper (scopes.map Scope.slots))
    {name : String} (hname : name = thisName ∨ name = superName) :
    (markRead name scopes).map Scope.slots = scopes.map Scope.slots := by
  induction scopes with
  | nil => rfl
  | cons scope outer ih =>
    unfold markRead
    have houter := ih fun s hs => proper s (List.mem_cons_of_mem _ hs)
    split
    · have hscope : (scope.update name Progress.markRead).slots = scope.slots := by
        rw [← List.map_id scope.slots]
        apply List.map_congr_left
        intro v hv
        split
        · next heq =>
          rcases proper scope.slots List.mem_cons_self v hv with hread | hexplicit
          · obtain ⟨word, progress⟩ := v
            obtain rfl : progress = .read := hread
            rfl
          · rw [heq] at hexplicit
            rcases hname with rfl | rfl
            · exact absurd rfl hexplicit.1
            · exact absurd rfl hexplicit.2
        · rfl
      simp only [List.map_cons, hscope]
    · simp only [List.map_cons, houter]

/-- Looking up a name that is read, where no variable can be the one that it denotes. -/
theorem stack_bindRead (a : Analysis) (id : RefId) (name : String) :
    (a.bindRead id name).stack = (markRead name a.scopes).map Scope.slots := by
  unfold Analysis.bindRead Analysis.bind
  cases lookup? name a.scopes <;> rfl

theorem touches_resolveReference (ref : Reference) (around : Surroundings) :
    Touches (resolveReference ref) around (mentionsAt around [ref.occurrence]) [] := by
  intro _ a hnames _
  constructor
  · obtain ⟨more, hnoted⟩ :=
      onlyNotes_noteIf a (a.inOwnInitializer ref.name.text) ref.name .ownInitializer
    unfold resolveReference
    rw [hnoted, stack_bindRead]
    exact stack_markRead ⟨ref.occurrence, around⟩ rfl hnames rfl
  · exact reports_resolveReference unconcerned_ofUse ref a

theorem touches_resolveReferences (refs : List Reference) (around : Surroundings) :
    Touches (resolveReferences refs) around (mentionsAt around (refs.map Reference.occurrence))
      [] := by
  induction refs with
  | nil => exact touches_of_stack (fun _ => rfl) (reports_of_eq fun _ => rfl) around
  | cons ref rest ih => exact (touches_resolveReference ref around).comp ih

/-- A mention of another form than that of a variable that is read. -/
theorem touched_mentionsAt {occurrence : Occurrence} (form : occurrence.form ≠ .read)
    (around : Surroundings) (stack : Stack) :
    touched (mentionsAt around [occurrence]) stack = stack := by
  apply touched_eq_self
  intro mention hmention level _ name
  obtain rfl : mention = ⟨occurrence, around⟩ := by simpa [mentionsAt] using hmention
  simp [Mention.readsFrom, form]

theorem touches_implicit {step : Analysis → Analysis} {occurrence : Occurrence}
    (form : occurrence.form ≠ .read) (word : occurrence.word = thisName ∨ occurrence.word = superName)
    (reports : Reports Cause.ofUse step [])
    (stack : ∀ a : Analysis, (step a).stack = a.stack ∨
      (step a).stack = (markRead occurrence.word a.scopes).map Scope.slots)
    (around : Surroundings) : Touches step around (mentionsAt around [occurrence]) [] := by
  intro _ a _ proper
  rw [touched_mentionsAt form]
  refine ⟨?_, reports a⟩
  rcases stack a with hstack | hstack
  · exact hstack
  · exact hstack.trans (stack_markRead_implicit proper word)

theorem touches_resolveThis (body : ClassContext) (id : RefId) (line : Nat)
    (around : Surroundings) :
    Touches (resolveThis body id line) around
      (mentionsAt around [⟨.receiver, id, thisName, line⟩]) [] := by
  have hread : Reports Cause.ofUse (fun a => a.bindRead id thisName) [] := reports_bindRead id thisName
  cases body with
  | outside =>
    exact touches_implicit (by simp) (.inl rfl) (reports_note ⟨thisName, line⟩ .thisOutsideClass)
      (fun _ => .inl rfl) around
  | plain | derived | traitBody =>
    exact touches_implicit (by simp) (.inl rfl) hread (fun a => .inr (stack_bindRead a id thisName))
      around

theorem touches_resolveSuper (body : ClassContext) (id : RefId) (line : Nat)
    (around : Surroundings) :
    Touches (resolveSuper body id line) around
      (mentionsAt around [⟨.superclass, id, superName, line⟩]) [] := by
  have hread : Reports Cause.ofUse (fun a => a.bindRead id superName) [] :=
    reports_bindRead id superName
  cases body with
  | outside =>
    exact touches_implicit (by simp) (.inr rfl) (reports_note ⟨superName, line⟩ .superOutsideClass)
      (fun _ => .inl rfl) around
  | traitBody =>
    exact touches_implicit (by simp) (.inr rfl) (reports_note ⟨superName, line⟩ .superInTrait)
      (fun _ => .inl rfl) around
  | plain =>
    exact touches_implicit (by simp) (.inr rfl)
      (reports_note ⟨superName, line⟩ .superWithoutSuperclass) (fun _ => .inl rfl) around
  | derived =>
    exact touches_implicit (by simp) (.inr rfl) hread
      (fun a => .inr (stack_bindRead a id superName)) around

theorem touches_bind (ref : Reference) (around : Surroundings) :
    Touches (fun a => a.bind ref.id ref.name.text) around
      (mentionsAt around [⟨.assigned, ref.id, ref.name.text, ref.name.line⟩]) [] := by
  intro _ a _ _
  rw [touched_mentionsAt (by simp)]
  exact ⟨stack_bind a ref.id ref.name.text, reports_bind ref.id ref.name.text a⟩

/-- A problem of another kind. -/
theorem touches_noteIf {cause : Cause} (h : cause.ofUse = false) (condition : Bool) (word : Name)
    (around : Surroundings) : Touches (·.noteIf condition word cause) around [] [] := by
  apply touches_of_stack
  · intro a
    exact stack_of_onlyNotes (onlyNotes_noteIf a condition word cause)
  · intro a
    rw [reports_noteIf_other h, List.append_nil]

theorem touches_resolveSuperclass (name : Name) (superclass : Option Reference)
    (around : Surroundings) :
    Touches (resolveSuperclass name superclass) around
      (mentionsAt around (superclass.toList.map Reference.occurrence)) [] := by
  cases superclass with
  | none => exact touches_of_stack (fun _ => rfl) (reports_of_eq fun _ => rfl) around
  | some ref =>
    have hnoted := touches_noteIf unconcerned_ofUse.ownSuperclass (ref.name.text = name.text)
      ref.name around
    exact hnoted.comp (touches_resolveReference ref around)

/-! ## Declarations -/

/-- The innermost scope with one more variable. -/
def pushed (v : Variable) : Stack → Stack
  | [] => []
  | scope :: outer => (scope ++ [v]) :: outer

theorem stack_changeInnermost (a : Analysis) (change : Scope → Scope) :
    (a.changeInnermost change).stack =
      match a.scopes with
      | [] => []
      | scope :: outer => (change scope).slots :: outer.map Scope.slots := by
  unfold Analysis.changeInnermost Analysis.stack
  cases hscopes : a.scopes <;> simp [hscopes]

/-- A declaration adds a variable where it adds a name. -/
theorem stack_declare {a : Analysis} {around : Surroundings} (h : a.names = namesOf around)
    (name : Name) :
    (a.declare name).stack =
      if around = [] ∨ around.innermostHas name.text then a.stack
      else pushed ⟨name, .declared⟩ a.stack := by
  have hnames := (names_changeTraits a (·.erase name.text)).trans h
  have hstack := stack_changeTraits a (·.erase name.text)
  unfold Analysis.declare
  simp only
  cases hscopes : (a.changeTraits (·.erase name.text)).scopes with
  | nil =>
    have hnil : around = [] := by
      rw [Analysis.names, hscopes] at hnames
      simpa [namesOf] using hnames.symm
    simp only [hnil, true_or, if_true]
    exact hstack
  | cons scope outer =>
    cases around with
    | nil => simp [Analysis.names, hscopes, namesOf] at hnames
    | cons begun further =>
      simp only [Analysis.names, hscopes, namesOf, List.map_cons, List.cons.injEq] at hnames
      -- What the analysis knows of the innermost scope is what the text has begun there.
      have hdeclares : scope.declares name.text = innermostHas name.text (begun :: further) := by
        rw [Bool.eq_iff_iff, Scope.declares_iff, hnames.1]
        simp [innermostHas]
      simp only [hdeclares, reduceCtorEq, false_or]
      split
      · exact hstack
      · rw [stack_changeInnermost, ← hstack, Analysis.stack, hscopes]
        rfl

/-- The progress of a variable of the innermost scope is changed. -/
def updated (name : String) (change : Progress → Progress) : Stack → Stack
  | [] => []
  | scope :: outer =>
    scope.map (fun v =>
      if v.name.text = name then { v with progress := change v.progress } else v) :: outer

theorem stack_update (a : Analysis) (name : String) (change : Progress → Progress) :
    (a.changeInnermost (·.update name change)).stack = updated name change a.stack := by
  rw [stack_changeInnermost, Analysis.stack]
  cases a.scopes <;> rfl

/-- What a definition does to the variables of the innermost scope. -/
def defined (name : String) : Stack → Stack :=
  updated name Progress.define

theorem stack_define (a : Analysis) (name : Name) :
    (a.define name).stack = defined name.text a.stack :=
  stack_update a name.text Progress.define

/-- Where no declaration has begun, there is none to be finished. -/
theorem defined_of_settled {stack : Stack} (settled : Settled stack) (name : String) :
    defined name stack = stack := by
  cases stack with
  | nil => rfl
  | cons scope outer =>
    simp only [defined, updated, List.cons.injEq, and_true]
    conv => rhs; rw [← List.map_id scope]
    apply List.map_congr_left
    intro v hv
    have hprogress := settled v hv
    obtain ⟨word, progress⟩ := v
    cases progress with
    | declared => exact absurd rfl hprogress
    | defined | read => simp [Progress.define]

/-- The variable of a declaration that has begun is not read before it is defined. -/
theorem defined_touched_pushed {scope : List Variable} {outer : Stack} {name : Name}
    (settled : Settled (scope :: outer)) (mentions initializer : List Mention) :
    defined name.text (touched mentions (pushed ⟨name, .declared⟩ (scope :: outer))) =
      grown [⟨name, [], initializer, []⟩] (touched mentions (scope :: outer)) := by
  have hscope := defined_of_settled (settled.touched mentions) name.text
  simp only [touched, defined, updated, List.cons.injEq] at hscope
  simp only [pushed, touched, defined, updated, grown, List.map_append, hscope.1, length_touched]
  have hnew : (⟨name, .declared⟩ : Variable).readBy outer.length mentions = ⟨name, .declared⟩ :=
    Variable.readBy_eq_self rfl
  simp only [List.map_cons, List.map_nil, hnew]
  simp [variableOf, Variable.readBy, Progress.define]

/-- A declaration, the parts of it in which the name has begun, and its definition. -/
theorem grows_declaration {step : Analysis → Analysis} {name : Name} {around : Surroundings}
    {mentions : List Mention} {extents : List Extent}
    (h : Touches step (around.declare name.text) mentions extents) :
    Grows (fun a => (step (a.declare name)).define name) around (around.declare name.text) mentions
      (fresh around name mentions []) extents := by
  intro explicit explicitExtents a hnames proper settled
  have hdeclared := follows_declare name around a hnames
  have hstack := stack_declare hnames name
  have hreports := reports_declare unconcerned_ofUse name a
  have hdefine : ((step (a.declare name)).define name).reports Cause.ofUse = _ :=
    reports_define name (step (a.declare name))
  rw [List.append_nil] at hreports hdefine
  -- What is left is to find the new variable, if there is one, behind the parts that may read it.
  suffices hsuffices : Proper (a.declare name).stack ∧
      defined name.text (touched mentions (a.declare name).stack) =
        grown (fresh around name mentions []) (touched mentions a.stack) by
    obtain ⟨proper', hgrown⟩ := hsuffices
    obtain ⟨hstep, hstepReports⟩ := h explicitExtents (a.declare name) hdeclared proper'
    refine ⟨?_, ?_, ?_⟩
    · rw [names_define]
      exact h.names explicitExtents hdeclared proper'
    · rw [stack_define, hstep, hgrown]
    · rw [hdefine, hstepReports, hreports]
  -- A global and a name that the scope has already add no variable.
  by_cases hold : around = [] ∨ around.innermostHas name.text = true
  · rw [hstack, if_pos hold, fresh, if_pos hold, grown_nil]
    exact ⟨proper, defined_of_settled (settled.touched mentions) name.text⟩
  · rw [hstack, if_neg hold, fresh, if_neg hold]
    rw [fresh, if_neg hold] at explicit
    cases hscopes : a.stack with
    | nil =>
      have hlength := length_stack hnames
      rw [hscopes] at hlength
      exact absurd (.inl (List.length_eq_zero_iff.mp hlength.symm)) hold
    | cons scope outer =>
      rw [hscopes] at proper settled
      refine ⟨?_, defined_touched_pushed settled mentions mentions⟩
      intro scope' hscope' v hv
      rcases List.mem_cons.mp hscope' with rfl | hscope'
      · rcases List.mem_append.mp hv with hv | hv
        · exact proper scope List.mem_cons_self v hv
        · obtain rfl := List.mem_singleton.mp hv
          exact .inr (explicit _ List.mem_cons_self)
      · exact proper scope' (List.mem_cons_of_mem _ hscope') v hv

theorem before_fresh (around : Surroundings) (name : Name) (initializer mentions : List Mention) :
    (fresh around name initializer []).map (Local.before mentions) =
      fresh around name initializer mentions := by
  unfold fresh
  split <;> rfl

/-- A name that is declared and defined before everything else that belongs to it. -/
theorem grows_named {step : Analysis → Analysis} {name : Name} {around : Surroundings}
    {mentions : List Mention} {extents : List Extent}
    (h : Touches step (around.declare name.text) mentions extents) :
    Grows (fun a => step ((a.declare name).define name)) around (around.declare name.text) mentions
      (fresh around name [] mentions) extents := by
  have hdeclared : Grows (fun a => (a.declare name).define name) around
      (around.declare name.text) [] (fresh around name [] []) [] :=
    grows_declaration (touches_of_stack (fun _ => rfl) (reports_of_eq fun _ => rfl) _)
  have hboth := hdeclared.comp h.grows
  rw [before_fresh] at hboth
  simpa using hboth

/-! ## Scopes -/

/-- A scope that is opened with variables that need no reader. -/
def Opens (opening : Analysis → Analysis) (around inside : Surroundings) : Prop :=
  ∀ a : Analysis, a.names = namesOf around →
    (opening a).names = namesOf inside ∧
      (∃ scope, (∀ v ∈ scope, v.progress = .read) ∧ (opening a).stack = scope :: a.stack) ∧
      (opening a).reports Cause.ofUse = a.reports Cause.ofUse

theorem opens_enter (around : Surroundings) : Opens Analysis.enter around (.none :: around) := by
  intro a hnames
  exact ⟨follows_enter around a hnames, ⟨[], by simp, rfl⟩, rfl⟩

theorem opens_implicit (name : String) (line : Nat) (around : Surroundings) :
    Opens (fun a => a.enter.bindImplicit name line) around (.only name :: around) := by
  intro a hnames
  exact ⟨follows_bindImplicit name line around a hnames, ⟨[⟨⟨name, line⟩, .read⟩], by simp, rfl⟩,
    rfl⟩

/-- A scope with one more parameter. -/
theorem stack_declareParameter {a : Analysis} {around : Surroundings}
    (hnames : a.names = namesOf around) (param : Name) {scope : List Variable} {outer : Stack}
    (hstack : a.stack = scope :: outer) (hread : ∀ v ∈ scope, v.progress = .read) :
    ∃ scope', (∀ v ∈ scope', v.progress = .read) ∧
      (a.declareParameter param).stack = scope' :: outer := by
  -- What is in the scope is read already, or it has the name of the parameter.
  have hdeclared : ∃ scope', (a.declare param).stack = scope' :: outer ∧
      ∀ v ∈ scope', v.progress = .read ∨ v.name.text = param.text := by
    rw [stack_declare hnames param, hstack]
    split
    · exact ⟨scope, rfl, fun v hv => .inl (hread v hv)⟩
    · refine ⟨scope ++ [⟨param, .declared⟩], rfl, ?_⟩
      intro v hv
      rcases List.mem_append.mp hv with hv | hv
      · exact .inl (hread v hv)
      · obtain rfl := List.mem_singleton.mp hv
        exact .inr rfl
  obtain ⟨scope', hscope', hprogress⟩ := hdeclared
  unfold Analysis.declareParameter
  rw [stack_update, hscope']
  refine ⟨_, ?_, rfl⟩
  intro v' hv'
  obtain ⟨v, hv, rfl⟩ := List.mem_map.mp hv'
  split
  · rfl
  · next hname => exact (hprogress v hv).resolve_right hname

theorem stack_declareParameters (params : List Name) {a : Analysis} {around : Surroundings}
    (hnames : a.names = namesOf around) {scope : List Variable} {outer : Stack}
    (hstack : a.stack = scope :: outer) (hread : ∀ v ∈ scope, v.progress = .read) :
    ∃ scope', (∀ v ∈ scope', v.progress = .read) ∧
      (params.foldl declareParameter a).stack = scope' :: outer := by
  induction params generalizing a around scope with
  | nil => exact ⟨scope, hread, hstack⟩
  | cons param rest ih =>
    obtain ⟨scope', hread', hstack'⟩ := stack_declareParameter hnames param hstack hread
    exact ih (follows_declareParameters [param] around a hnames) hstack' hread'

theorem opens_function (params : List Name) (around : Surroundings) :
    Opens (fun a => params.foldl declareParameter a.enter) around
      (declareAll (params.map Name.text) (.none :: around)) := by
  intro a hnames
  have hentered := follows_enter around a hnames
  have hreports := reports_declareParameters unconcerned_ofUse params a.enter
  rw [List.append_nil] at hreports
  have hempty : a.enter.stack = [] :: a.stack := rfl
  exact ⟨follows_declareParameters params _ _ hentered,
    stack_declareParameters params hentered hempty (fun _ hv => by cases hv), hreports⟩

/-- A variable that needs no reader stays as it is. -/
theorem readBy_of_read {scope : List Variable} (h : ∀ v ∈ scope, v.progress = .read)
    (level : Nat) (mentions : List Mention) :
    scope.map (·.readBy level mentions) = scope := by
  conv => rhs; rw [← List.map_id scope]
  apply List.map_congr_left
  intro v hv
  exact Variable.readBy_eq_self (by rw [h v hv]; rfl)

theorem proper_opened {scope : List Variable} {stack : Stack} (proper : Proper stack)
    (h : ∀ v ∈ scope, v.progress = .read) : Proper (scope :: stack) := by
  intro scope' hscope' v hv
  rcases List.mem_cons.mp hscope' with rfl | hscope'
  · exact .inl (h v hv)
  · exact proper scope' hscope' v hv

/-- The end of a scope. -/
theorem leave_eq {a : Analysis} {scope : List Variable} {outer : Stack}
    (h : a.stack = scope :: outer) :
    a.leave.stack = outer ∧
      a.leave.problems = a.problems ++
        (scope.filter fun v => v.progress = .defined).map fun v => ⟨v.name, .neverRead⟩ := by
  unfold Analysis.stack at h ⊢
  unfold Analysis.leave
  cases hscopes : a.scopes with
  | nil => simp [hscopes] at h
  | cons first rest =>
    rw [hscopes, List.map_cons, List.cons.injEq] at h
    obtain ⟨rfl, rfl⟩ := h
    exact ⟨rfl, rfl⟩

/-- Variables that need no reader are not reported. -/
theorem filter_of_read {scope : List Variable} (h : ∀ v ∈ scope, v.progress = .read) :
    scope.filter (fun v => v.progress = .defined) = [] := by
  rw [List.filter_eq_nil_iff]
  intro v hv
  simp [h v hv]

theorem reports_of_problems {a a' : Analysis} {added : List Problem}
    (h : a'.problems = a.problems ++ added) (kind : ∀ problem ∈ added, problem.cause = .neverRead) :
    a'.reports Cause.ofUse = a.reports Cause.ofUse ++ added := by
  unfold Analysis.reports
  rw [h, List.filter_append]
  congr 1
  apply List.filter_eq_self.mpr
  intro problem hproblem
  rw [kind problem hproblem]
  rfl

/-- A scope around the methods of a class or trait. -/
theorem touches_around {step : Analysis → Analysis} {name : String} {line : Nat}
    {around : Surroundings} {mentions : List Mention} {extents : List Extent}
    (h : Touches step (.only name :: around) mentions extents) :
    Touches (fun a => (step (a.enter.bindImplicit name line)).leave) around mentions extents := by
  intro explicit a hnames proper
  obtain ⟨hinside, ⟨scope, hread, hstack⟩, hreports⟩ := opens_implicit name line around a hnames
  have proper' := hstack ▸ proper_opened proper hread
  obtain ⟨hstep, hstepReports⟩ := h explicit _ hinside proper'
  -- `this` and `super` need no reader, so that nothing is reported at the end of their scope.
  rw [hstack, touched, readBy_of_read hread] at hstep
  obtain ⟨hleft, hproblems⟩ := leave_eq hstep
  rw [filter_of_read hread] at hproblems
  refine ⟨hleft, ?_⟩
  rw [reports_of_problems hproblems (by simp), hstepReports, hreports, List.map_nil,
    List.append_nil]

/-- Used or not, by the mentions behind the declaration alone. -/
theorem used_eq {level : Nat} {l : Local} (h : l.Begins level) :
    (decide ((variableOf level l).progress = .defined)) = !l.used level := by
  have hearlier : l.earlier.any (·.readsFrom level l.name.text) = false := by
    rw [List.any_eq_false]
    intro mention hmention
    rw [h mention hmention]
    exact Bool.false_ne_true
  unfold Local.used variableOf Variable.readBy
  rw [List.any_append, hearlier, Bool.false_or]
  rcases Bool.eq_false_or_eq_true (l.following.any (·.readsFrom level l.name.text)) with h | h <;>
    simp [h, Progress.markRead]

/-- At the end of an extent its variables that are not used are reported. -/
theorem leave_extent {x : Extent} {scope : List Variable} {stack : Stack}
    (hread : ∀ v ∈ scope, v.progress = .read) (length : stack.length = x.around.length)
    {a : Analysis} (h : a.stack = grown x.locals (scope :: stack)) :
    a.leave.stack = stack ∧ a.leave.problems = a.problems ++ x.unread := by
  obtain ⟨hleft, hproblems⟩ := leave_eq h
  -- What comes before a declaration does not read from it, as its name has not begun there.
  have hbegins : ∀ l ∈ x.locals, l.Begins x.around.length := by
    unfold Extent.locals Extent.inside
    rw [declareAll_cons]
    exact begins_localsInBody x.body _ x.around
  have hfilter : x.locals.filter
      ((fun v => decide (v.progress = .defined)) ∘ variableOf x.around.length) =
      x.locals.filter fun l => !l.used x.around.length :=
    List.filter_congr fun l hl => used_eq (hbegins l hl)
  rw [List.filter_append, filter_of_read hread, List.nil_append, length, List.filter_map,
    List.map_map, hfilter] at hproblems
  exact ⟨hleft, hproblems⟩

theorem neverRead_of_unread (x : Extent) : ∀ problem ∈ x.unread, problem.cause = .neverRead := by
  intro problem hproblem
  obtain ⟨l, -, rfl⟩ := List.mem_map.mp hproblem
  rfl

/-- The variables at the end of an extent. -/
theorem stack_extent {opening body : Analysis → Analysis} {x : Extent} {behind : Surroundings}
    {extents : List Extent} (hopen : Opens opening x.around x.inside)
    (hbody : Grows body x.inside behind x.mentions x.locals extents)
    (explicit : Explicit x.locals) (explicitExtents : ExplicitExtents extents) {a : Analysis}
    (hnames : a.names = namesOf x.around) (proper : Proper a.stack) :
    (∃ scope, (∀ v ∈ scope, v.progress = .read) ∧
      (body (opening a)).stack = grown x.locals (scope :: touched x.mentions a.stack)) ∧
    (body (opening a)).reports Cause.ofUse =
      a.reports Cause.ofUse ++ extents.flatMap Extent.unread := by
  obtain ⟨hinside, ⟨scope, hread, hstack⟩, hreports⟩ := hopen a hnames
  have proper' := hstack ▸ proper_opened proper hread
  have settled' : Settled (opening a).stack := by
    rw [hstack]
    intro v hv
    rw [hread v hv]
    simp
  obtain ⟨-, hstep, hstepReports⟩ := hbody explicit explicitExtents _ hinside proper' settled'
  rw [hstack, touched, readBy_of_read hread] at hstep
  rw [hreports] at hstepReports
  exact ⟨⟨scope, hread, hstep⟩, hstepReports⟩

/-- The extent of a scope, from its start to its end. -/
theorem touches_extent {opening body : Analysis → Analysis} {x : Extent} {behind : Surroundings}
    {extents : List Extent} (hopen : Opens opening x.around x.inside)
    (hbody : Grows body x.inside behind x.mentions x.locals extents) :
    Touches (fun a => (body (opening a)).leave) x.around x.mentions (extents ++ [x]) := by
  intro explicit a hnames proper
  obtain ⟨⟨scope, hread, hend⟩, hreports⟩ :=
    stack_extent hopen hbody (explicit x (by simp)) explicit.left hnames proper
  have hlength : (touched x.mentions a.stack).length = x.around.length := by
    rw [length_touched, length_stack hnames]
  obtain ⟨hleft, hproblems⟩ := leave_extent hread hlength hend
  refine ⟨hleft, ?_⟩
  rw [reports_of_problems hproblems (neverRead_of_unread x), hreports, List.flatMap_append,
    List.append_assoc, List.flatMap_singleton]

/-- The head of a class, in which its name has begun. -/
theorem touches_heads (name : Name) (superclass : Option Reference) (traits : List Reference)
    (methods : List NamedFunction) (around : Surroundings) :
    Touches (fun a => (checkComposition traits methods (resolveReferences traits
      (resolveSuperclass name superclass a))).2) around
      (mentionsAt around (superclass.toList.map Reference.occurrence) ++
        mentionsAt around (traits.map Reference.occurrence)) [] := by
  have hchecked : Touches (fun a => (checkComposition traits methods a).2) around [] [] :=
    touches_of_stack (fun a => stack_of_onlyNotes (onlyNotes_checkComposition traits methods a))
      (reports_checkComposition unconcerned_ofUse traits methods) around
  have hreads := (touches_resolveSuperclass name superclass around).comp
    (touches_resolveReferences traits around)
  have hall := hreads.comp hchecked
  simpa using hall

/-- The head of a trait, whose methods are known behind it. -/
theorem touches_traitHead (name : Name) (traits : List Reference) (methods : List NamedFunction)
    (around : Surroundings) :
    Touches (fun a =>
        let (provided, a) := checkComposition traits methods (resolveReferences traits a)
        a.changeTraits (·.insert name.text provided)) around
      (mentionsAt around (traits.map Reference.occurrence)) [] := by
  intro explicit a hnames proper
  obtain ⟨hstack, hreports⟩ :=
    touches_heads name none traits methods around explicit a hnames proper
  unfold Analysis.reports at hreports ⊢
  simp only [stack_changeTraits, problems_changeTraits]
  exact ⟨hstack, hreports⟩

/-- The scopes around the methods of a class. -/
theorem touches_class {step : Analysis → Analysis} {name : Name} (superclass : Option Reference)
    {around : Surroundings} {mentions : List Mention} {extents : List Extent}
    (h : Touches step (around.methods name superclass.isSome) mentions extents) :
    Touches (fun a => leaveClass superclass (step (enterClass name superclass a)))
      (around.declare name.text) mentions extents := by
  cases superclass with
  | none =>
    have hthis : Touches (fun a => (step (a.enter.bindImplicit thisName name.line)).leave)
        (around.declare name.text) mentions extents := touches_around h
    exact hthis
  | some ref => exact touches_around (touches_around h)

/-! ## The whole walk -/

mutual

theorem touches_resolveExpr : ∀ (e : Expr) (context : Context) (around : Surroundings),
    Touches (resolveExpr context e) around (e.mentions around) (e.extents around)
  | .literal _, _, around => touches_of_stack (fun _ => rfl) (reports_of_eq fun _ => rfl) around
  | .unary _ _ operand, context, around => touches_resolveExpr operand context around
  | .binary left _ _ right, context, around =>
    (touches_resolveExpr left context around).comp (touches_resolveExpr right context around)
  | .logical left _ _ right, context, around =>
    (touches_resolveExpr left context around).comp (touches_resolveExpr right context around)
  | .conditional condition thenBranch elseBranch, context, around =>
    ((touches_resolveExpr condition context around).comp
      (touches_resolveExpr thenBranch context around)).comp
      (touches_resolveExpr elseBranch context around)
  | .grouping inner, context, around => touches_resolveExpr inner context around
  | .variable ref, _, around => touches_resolveReference ref around
  | .assign ref value, context, around => by
    have hboth := (touches_resolveExpr value context around).comp (touches_bind ref around)
    rw [List.append_nil] at hboth
    exact hboth.swap
  | .call callee arguments _, context, around =>
    (touches_resolveExpr callee context around).comp
      (touches_resolveArguments arguments context around)
  | .get object _, context, around => touches_resolveExpr object context around
  | .set object _ value, context, around =>
    -- The value is resolved before the object that stands to the left of it.
    ((touches_resolveExpr value context around).comp
      (touches_resolveExpr object context around)).swap
  | .this id line, context, around => touches_resolveThis context.body id line around
  | .super id line _, context, around => touches_resolveSuper context.body id line around
  | .lambda _ function, _, around => touches_resolveFunction function _ around

theorem touches_resolveArguments : ∀ (arguments : List Expr) (context : Context)
    (around : Surroundings),
    Touches (resolveArguments context arguments) around (mentionsInArguments around arguments)
      (extentsInArguments around arguments)
  | [], _, around => touches_of_stack (fun _ => rfl) (reports_of_eq fun _ => rfl) around
  | argument :: rest, context, around =>
    (touches_resolveExpr argument context around).comp
      (touches_resolveArguments rest context around)

theorem touches_resolveFunction : ∀ (f : Function) (context : Context) (around : Surroundings),
    Touches (resolveFunction context f) around (f.mentions around) (f.extents around)
  | .mk params body, context, around =>
    touches_extent (x := ⟨around, params, body⟩) (opens_function params around)
      (grows_resolveBody body context (declareAll (params.map Name.text) (.none :: around)))

theorem touches_resolveMethods : ∀ (methods : List NamedFunction) (body : ClassContext)
    (around : Surroundings),
    Touches (resolveMethods body methods) around (mentionsInMethods around methods)
      (extentsInMethods around methods)
  | [], _, around => touches_of_stack (fun _ => rfl) (reports_of_eq fun _ => rfl) around
  | .mk _ function :: rest, body, around =>
    (touches_resolveFunction function _ around).comp (touches_resolveMethods rest body around)

theorem touches_resolveClassMethods : ∀ (methods : List NamedFunction) (body : ClassContext)
    (around : Surroundings),
    Touches (resolveClassMethods body methods) around (mentionsInMethods around methods)
      (extentsInMethods around methods)
  | [], _, around => touches_of_stack (fun _ => rfl) (reports_of_eq fun _ => rfl) around
  | .mk _ function :: rest, body, around =>
    (touches_resolveFunction function _ around).comp
      (touches_resolveClassMethods rest body around)

theorem grows_resolveStmt : ∀ (s : Stmt) (context : Context) (around : Surroundings),
    Grows (resolveStmt context s) around (around.declareAll s.begins) (s.mentions around)
      (s.locals around) (s.extents around)
  | .expression value, context, around => (touches_resolveExpr value context around).grows
  | .print value, context, around => (touches_resolveExpr value context around).grows
  | .varDecl name none, _, around =>
    grows_declaration (touches_of_stack (fun _ => rfl) (reports_of_eq fun _ => rfl) _)
  | .varDecl name (some initial), context, around =>
    grows_declaration (touches_resolveExpr initial context (around.declare name.text))
  | .block body, context, around =>
    (touches_extent (x := ⟨around, [], body⟩) (opens_enter around)
      (grows_resolveBody body context (.none :: around))).grows
  | .ifThen condition thenBranch none, context, around =>
    (touches_resolveExpr condition context around).grows.comp
      (grows_resolveStmt thenBranch context around)
  | .ifThen condition thenBranch (some elseBranch), context, around => by
    have hbranches := (grows_resolveStmt thenBranch context around).comp
      (grows_resolveStmt elseBranch context (around.declareAll thenBranch.begins))
    have hall := (touches_resolveExpr condition context around).grows.comp hbranches
    rw [← declareAll_append, ← List.append_assoc, ← List.append_assoc] at hall
    exact hall
  | .whileDo condition body, context, around =>
    (touches_resolveExpr condition context around).grows.comp
      (grows_resolveStmt body context around)
  | .breakLoop _, _, around =>
    (touches_of_stack (fun _ => rfl) (reports_of_eq fun _ => rfl) around).grows
  | .returnWith line none, context, around =>
    (touches_noteIf rfl (context.function = .outside) (returnWord line) around).grows
  | .returnWith line (some value), context, around => by
    have hplace : Touches (checkReturn context.function line) around [] [] :=
      touches_noteIf rfl (context.function = .outside) (returnWord line) around
    have hvalue : Touches (checkReturnValue context.function line) around [] [] :=
      touches_noteIf rfl (context.function = .initializer) (returnWord line) around
    exact ((hplace.comp hvalue).comp (touches_resolveExpr value context around)).grows
  | .funDecl (.mk name function), _, around =>
    grows_named (touches_resolveFunction function _ (around.declare name.text))
  | .classDecl name superclass traits methods classMethods, _, around => by
    have hheads := touches_heads name superclass traits methods (around.declare name.text)
    have hmethods := touches_class superclass
      ((touches_resolveMethods methods (classContext superclass)
        (around.methods name superclass.isSome)).comp
        (touches_resolveClassMethods classMethods (classContext superclass) _))
    have hclass := grows_named (hheads.comp hmethods)
    rw [← List.append_assoc] at hclass
    intro explicit explicitExtents a hnames proper settled
    simp only [resolveStmt, resolveClassHead_eq]
    exact hclass explicit explicitExtents a hnames proper settled
  | .traitDecl name traits methods, _, around => by
    have hheads := touches_traitHead name traits methods (around.declare name.text)
    have hmethods : Touches
        (fun a => (resolveMethods .traitBody methods (a.enter.bindImplicit thisName name.line)).leave)
        (around.declare name.text) _ _ :=
      touches_around (touches_resolveMethods methods .traitBody (around.methods name false))
    exact grows_named (hheads.comp hmethods)

theorem grows_resolveBody : ∀ (body : List Stmt) (context : Context) (around : Surroundings),
    Grows (resolveBody context body) around (around.declareAll (beginsInBody body))
      (mentionsInBody around body) (localsInBody around body) (extentsInBody around body)
  | [], _, around =>
    (touches_of_stack (fun _ => rfl) (reports_of_eq fun _ => rfl) around).grows
  | statement :: rest, context, around => by
    have hboth := (grows_resolveStmt statement context around).comp
      (grows_resolveBody rest context (around.declareAll statement.begins))
    rwa [← declareAll_append] at hboth

end

/-! ## Programs that can be read -/

section

variable {locals locals' : List Local} {extents extents' : List Extent}

theorem explicit_fresh {name : Name} (plain : name.Plain) (around : Surroundings)
    (initializer following : List Mention) :
    Explicit (fresh around name initializer following) := by
  intro l hl
  unfold fresh at hl
  split at hl
  · cases hl
  · obtain rfl := List.mem_singleton.mp hl
    exact plain.explicit

theorem Explicit.behind (h : Explicit locals) (mentions : List Mention) :
    Explicit (locals.map (Local.behind mentions)) := by
  intro l' hl'
  obtain ⟨l, hl, rfl⟩ := List.mem_map.mp hl'
  exact h l hl

theorem Explicit.before (h : Explicit locals) (mentions : List Mention) :
    Explicit (locals.map (Local.before mentions)) := by
  intro l' hl'
  obtain ⟨l, hl, rfl⟩ := List.mem_map.mp hl'
  exact h l hl

theorem Explicit.append (h : Explicit locals) (h' : Explicit locals') :
    Explicit (locals ++ locals') := by
  intro l hl
  exact (List.mem_append.mp hl).elim (h l) (h' l)

theorem ExplicitExtents.append (h : ExplicitExtents extents) (h' : ExplicitExtents extents') :
    ExplicitExtents (extents ++ extents') := by
  intro x hx
  exact (List.mem_append.mp hx).elim (h x) (h' x)

theorem explicitExtents_nil : ExplicitExtents [] :=
  nofun

/-- The extent of a scope behind those that lie in it. -/
theorem ExplicitExtents.scope (h : ExplicitExtents extents) {x : Extent}
    (explicit : Explicit x.locals) : ExplicitExtents (extents ++ [x]) := by
  refine h.append ?_
  intro y hy
  obtain rfl := List.mem_singleton.mp hy
  exact explicit

end

theorem explicit_locals : ∀ (s : Stmt) (around : Surroundings), s.Formed → Explicit (s.locals around)
  | .varDecl _ none, around, formed => explicit_fresh formed around [] []
  | .varDecl _ (some _), around, formed => explicit_fresh formed.1 around _ []
  | .ifThen condition thenBranch none, around, formed =>
    (explicit_locals thenBranch around formed.2.1).behind (condition.mentions around)
  | .ifThen condition thenBranch (some elseBranch), around, formed => by
    have hthen := explicit_locals thenBranch around formed.2.1
    have helse := explicit_locals elseBranch (around.declareAll thenBranch.begins) formed.2.2.2.1
    exact ((hthen.before _).append (helse.behind _)).behind (condition.mentions around)
  | .whileDo condition body, around, formed =>
    (explicit_locals body around formed.2.1).behind (condition.mentions around)
  | .funDecl (.mk _ _), around, formed => explicit_fresh formed.1 around [] _
  | .classDecl _ _ _ _ _, around, formed => explicit_fresh formed.1 around [] _
  | .traitDecl _ _ _, around, formed => explicit_fresh formed.1 around [] _
  | .expression _, _, _ => nofun
  | .print _, _, _ => nofun
  | .block _, _, _ => nofun
  | .breakLoop _, _, _ => nofun
  | .returnWith _ _, _, _ => nofun

theorem explicit_localsInBody : ∀ (body : List Stmt) (around : Surroundings), FormedBody body →
    Explicit (localsInBody around body)
  | [], _, _ => nofun
  | statement :: rest, around, formed =>
    ((explicit_locals statement around formed.1).before _).append
      ((explicit_localsInBody rest (around.declareAll statement.begins) formed.2).behind _)

mutual

theorem explicitExtents_expr : ∀ (e : Expr) (around : Surroundings), e.Formed →
    ExplicitExtents (e.extents around)
  | .literal _, _, _ => explicitExtents_nil
  | .unary _ _ operand, around, formed => explicitExtents_expr operand around formed
  | .binary left _ _ right, around, formed =>
    (explicitExtents_expr left around formed.1).append (explicitExtents_expr right around formed.2)
  | .logical left _ _ right, around, formed =>
    (explicitExtents_expr left around formed.1).append (explicitExtents_expr right around formed.2)
  | .conditional condition thenBranch elseBranch, around, formed =>
    ((explicitExtents_expr condition around formed.1).append
      (explicitExtents_expr thenBranch around formed.2.1)).append
        (explicitExtents_expr elseBranch around formed.2.2)
  | .grouping inner, around, formed => explicitExtents_expr inner around formed
  | .variable _, _, _ => explicitExtents_nil
  | .assign _ value, around, formed => explicitExtents_expr value around formed.2
  | .call callee arguments _, around, formed =>
    (explicitExtents_expr callee around formed.1).append
      (explicitExtents_arguments arguments around formed.2)
  | .get object _, around, formed => explicitExtents_expr object around formed
  | .set object _ value, around, formed =>
    (explicitExtents_expr value around formed.2).append (explicitExtents_expr object around formed.1)
  | .this _ _, _, _ => explicitExtents_nil
  | .super _ _ _, _, _ => explicitExtents_nil
  | .lambda _ function, around, formed => explicitExtents_function function around formed

theorem explicitExtents_arguments : ∀ (arguments : List Expr) (around : Surroundings),
    FormedArguments arguments → ExplicitExtents (extentsInArguments around arguments)
  | [], _, _ => explicitExtents_nil
  | argument :: rest, around, formed =>
    (explicitExtents_expr argument around formed.1).append
      (explicitExtents_arguments rest around formed.2)

theorem explicitExtents_function : ∀ (f : Function) (around : Surroundings), f.Formed →
    ExplicitExtents (f.extents around)
  | .mk _ body, _, formed =>
    (explicitExtents_body body _ formed.2.2).scope (explicit_localsInBody body _ formed.2.2)

theorem explicitExtents_methods : ∀ (methods : List NamedFunction) (around : Surroundings),
    FormedMethods methods → ExplicitExtents (extentsInMethods around methods)
  | [], _, _ => explicitExtents_nil
  | .mk _ function :: rest, around, formed =>
    (explicitExtents_function function around formed.1.2).append
      (explicitExtents_methods rest around formed.2)

theorem explicitExtents_stmt : ∀ (s : Stmt) (around : Surroundings), s.Formed →
    ExplicitExtents (s.extents around)
  | .expression value, around, formed => explicitExtents_expr value around formed
  | .print value, around, formed => explicitExtents_expr value around formed
  | .varDecl _ none, _, _ => explicitExtents_nil
  | .varDecl _ (some initial), _, formed => explicitExtents_expr initial _ formed.2
  | .block body, around, formed =>
    (explicitExtents_body body (.none :: around) formed).scope (explicit_localsInBody body _ formed)
  | .ifThen condition thenBranch none, around, formed =>
    (explicitExtents_expr condition around formed.1).append
      (explicitExtents_stmt thenBranch around formed.2.1)
  | .ifThen condition thenBranch (some elseBranch), around, formed =>
    ((explicitExtents_expr condition around formed.1).append
      (explicitExtents_stmt thenBranch around formed.2.1)).append
        (explicitExtents_stmt elseBranch _ formed.2.2.2.1)
  | .whileDo condition body, around, formed =>
    (explicitExtents_expr condition around formed.1).append
      (explicitExtents_stmt body around formed.2.1)
  | .breakLoop _, _, _ => explicitExtents_nil
  | .returnWith _ none, _, _ => explicitExtents_nil
  | .returnWith _ (some value), around, formed => explicitExtents_expr value around formed
  | .funDecl (.mk _ function), _, formed => explicitExtents_function function _ formed.2
  | .classDecl _ _ _ methods classMethods, _, formed =>
    (explicitExtents_methods methods _ formed.2.2.1).append
      (explicitExtents_methods classMethods _ formed.2.2.2)
  | .traitDecl _ _ methods, _, formed => explicitExtents_methods methods _ formed.2.2

/-- In a program that can be read from a text, no local variable has the name `this` or `super`. -/
theorem explicitExtents_body : ∀ (body : List Stmt) (around : Surroundings), FormedBody body →
    ExplicitExtents (extentsInBody around body)
  | [], _, _ => explicitExtents_nil
  | statement :: rest, around, formed =>
    (explicitExtents_stmt statement around formed.1).append
      (explicitExtents_body rest _ formed.2)

end

/-! ## Exactly the local variables that are not used -/

/-- A mention that refers to a variable is one that is read, and the variable is the one of its
name in the scope with that many scopes outside of it. -/
theorem readsFrom_iff (mention : Mention) (level : Nat) (name : String) :
    mention.readsFrom level name = true ↔
      mention.occurrence.form = .read ∧ mention.occurrence.word = name ∧
        ∃ b, mention.Denotes b ∧ b.depth + level + 1 = mention.around.length := by
  simp only [Mention.readsFrom, decide_eq_true_eq, level?_eq_some_iff]
  rfl

/-- The mentions of an extent stand within its scope. -/
theorem within_extent (x : Extent) :
    ∀ mention ∈ x.mentions, ∃ scope, scope :: x.around <:+ mention.around := by
  intro mention hmention
  obtain ⟨names, -, hwithin⟩ := encloses_body x.body x.inside mention hmention
  unfold Extent.inside at hwithin
  rw [← declareAll_append, declareAll_cons] at hwithin
  exact ⟨_, hwithin⟩

/-- The parameters come first in a scope, then its local variables. -/
theorem slots_extent (x : Extent) :
    ∃ first last : Begun, x.inside = first :: x.around ∧
      x.inside.declareAll (beginsInBody x.body) = last :: x.around ∧
      last.names = first.names ++ localNames x.locals := by
  refine ⟨Begun.none.addAll (x.params.map Name.text),
    (Begun.none.addAll (x.params.map Name.text)).addAll (beginsInBody x.body), ?_, ?_, ?_⟩
  · exact declareAll_cons _ _ _
  · unfold Extent.inside
    rw [declareAll_cons, declareAll_cons]
  · unfold Extent.locals Extent.inside
    rw [declareAll_cons]
    exact names_localsInBody x.body _ x.around

theorem declareAll_outside (names : List String) : declareAll names [] = [] := by
  induction names with
  | nil => rfl
  | cons name rest ih => exact ih

/-- Outside of all scopes there are no local variables. -/
theorem locals_outside : ∀ s : Stmt, s.locals [] = []
  | .varDecl _ none => rfl
  | .varDecl _ (some _) => rfl
  | .funDecl _ => rfl
  | .classDecl _ _ _ _ _ => rfl
  | .traitDecl _ _ _ => rfl
  | .ifThen _ thenBranch none => by
    simp [Stmt.locals, locals_outside thenBranch]
  | .ifThen _ thenBranch (some elseBranch) => by
    simp [Stmt.locals, declareAll_outside, locals_outside thenBranch, locals_outside elseBranch]
  | .whileDo _ body => by
    simp [Stmt.locals, locals_outside body]
  | .expression _ => rfl
  | .print _ => rfl
  | .block _ => rfl
  | .breakLoop _ => rfl
  | .returnWith _ _ => rfl

theorem localsInBody_outside (body : List Stmt) : localsInBody [] body = [] := by
  induction body with
  | nil => rfl
  | cons statement rest ih =>
    simp [localsInBody, declareAll_outside, locals_outside statement, ih]

/-- The functions and blocks of a program report at their ends. -/
theorem problems_extent {x : Extent} (context : Context) (explicit : Explicit x.locals)
    (explicitExtents : ExplicitExtents (extentsInBody x.inside x.body)) {a : Analysis}
    (hnames : a.names = namesOf x.around) (proper : Proper a.stack) :
    (resolveFunction context (.mk x.params x.body) a).problems =
      (resolveBody context x.body (x.params.foldl declareParameter a.enter)).problems ++
        x.unread := by
  obtain ⟨⟨scope, hread, hend⟩, -⟩ := stack_extent (opens_function x.params x.around)
    (grows_resolveBody x.body context x.inside) explicit explicitExtents hnames proper
  have hlength : (touched x.mentions a.stack).length = x.around.length := by
    rw [length_touched, length_stack hnames]
  exact (leave_extent hread hlength hend).2

/-- All reports of variables that are not used. -/
theorem filter_neverRead (program : List Stmt)
    (explicit : ExplicitExtents (extentsInBody [] program)) :
    (misuses program).filter (fun problem => problem.cause = .neverRead) =
      (extentsInBody [] program).flatMap Extent.unread := by
  have hlocals : Explicit (localsInBody [] program) := by
    intro l hl
    rw [localsInBody_outside] at hl
    cases hl
  obtain ⟨-, -, hreports⟩ := grows_resolveBody program ⟨.outside, .outside⟩ [] hlocals explicit
    Analysis.start.restart rfl (fun scope hscope => by cases hscope) trivial
  rw [misuses_eq]
  have hkind : (fun problem : Problem => decide (problem.cause = .neverRead)) =
      fun problem => problem.cause.ofUse := by
    funext problem
    cases problem.cause <;> simp [Cause.ofUse]
  rw [hkind]
  exact hreports

/-- Resolution reports exactly the local variables of blocks and functions that no variable
expression outside their own initializers refers to. The local variables of a scope are the names
that its statements add to it, in the order of their slots, so that neither parameters nor `this`
and `super` nor globals are among them. All mentions within the scope come before the declaration,
in the own initializer or behind it; those before it do not refer to the variable; and what a
mention refers to is what it denotes by the rule of lexical scoping. The reports of a scope are made
at its end, in the order of the slots. That no local variable has the name `this` or `super` is so in
every program that can be read (`explicitExtents_body`). -/
theorem unused_exact (program : List Stmt)
    (explicit : ExplicitExtents (extentsInBody [] program)) :
    (misuses program).filter (fun problem => problem.cause = .neverRead) =
      (extentsInBody [] program).flatMap Extent.unread ∧
    (∀ x ∈ extentsInBody [] program,
      (∃ first last : Begun, x.inside = first :: x.around ∧
        x.inside.declareAll (beginsInBody x.body) = last :: x.around ∧
        last.names = first.names ++ localNames x.locals) ∧
      (∀ mention ∈ x.mentions, ∃ scope, scope :: x.around <:+ mention.around) ∧
      ∀ l ∈ x.locals, l.earlier ++ l.initializer ++ l.following = x.mentions ∧
        ∀ mention ∈ l.earlier, mention.readsFrom x.around.length l.name.text = false) ∧
    (∀ (mention : Mention) (level : Nat) (name : String),
      mention.readsFrom level name = true ↔
        mention.occurrence.form = .read ∧ mention.occurrence.word = name ∧
          ∃ b, mention.Denotes b ∧ b.depth + level + 1 = mention.around.length) ∧
    ∀ x : Extent, Explicit x.locals → ExplicitExtents (extentsInBody x.inside x.body) →
      ∀ (context : Context) (a : Analysis), a.names = namesOf x.around → Proper a.stack →
        (resolveFunction context (.mk x.params x.body) a).problems =
          (resolveBody context x.body (x.params.foldl declareParameter a.enter)).problems ++
            x.unread := by
  refine ⟨filter_neverRead program explicit, ?_, readsFrom_iff, ?_⟩
  · intro x _
    refine ⟨slots_extent x, within_extent x, ?_⟩
    intro l hl
    refine ⟨mentions_localsInBody x.body x.inside l hl, ?_⟩
    unfold Extent.locals Extent.inside at hl
    rw [declareAll_cons] at hl
    exact begins_localsInBody x.body _ x.around l hl
  · intro x explicitLocals explicitExtents context a hnames proper
    exact problems_extent context explicitLocals explicitExtents hnames proper

/-- The statement `{ var f = fun() { return f; }; }`. -/
def selfReading : List Stmt :=
  [.block
    [.varDecl ⟨"f", 1⟩
      (some (.lambda 1 (.mk [] [.returnWith 1 (some (.variable ⟨0, ⟨"f", 1⟩⟩))])))]]

theorem explicit_selfReading : ExplicitExtents (extentsInBody [] selfReading) := by
  unfold ExplicitExtents Explicit
  decide

theorem unused_exact_selfReading :
    ExplicitExtents (extentsInBody [] selfReading) ∧
      (misuses selfReading).filter (fun problem => problem.cause = .neverRead) =
        [⟨⟨"f", 1⟩, .neverRead⟩] :=
  ⟨explicit_selfReading, (unused_exact selfReading explicit_selfReading).1.trans (by decide)⟩

/-- The reports that there would be if all mentions of a variable counted. -/
def unmentioned (x : Extent) : List Problem :=
  (x.locals.filter fun l =>
    !x.mentions.any (·.readsFrom x.around.length l.name.text)).map fun l => ⟨l.name, .neverRead⟩

/-- A variable that its own initializer refers to, and nothing else, is reported all the same. -/
theorem not_every_mention_counts :
    ¬∀ program : List Stmt, ExplicitExtents (extentsInBody [] program) →
      (misuses program).filter (fun problem => problem.cause = .neverRead) =
        (extentsInBody [] program).flatMap unmentioned := by
  intro h
  have hself := h selfReading explicit_selfReading
  revert hself
  decide

end Scoping

end LoxLang
