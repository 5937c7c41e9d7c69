import LoxLang.Grammar.Program
import LoxLang.Proofs.Ensures
import LoxLang.Proofs.Grammar.Derivable

/-!
# Reading within bounds

A rule goes on over the tokens and never back (`Cursor.Onward`), and where it finds something it has
read as many as that has at least. Whenever it comes back to a category, a token has been read in
between. So what it comes to is settled by what the categories come to where fewer tokens are left
(`Settles`), and neither the bound of the repetitions nor anything else about the rules for the
categories matters, whether the rule finds something or fails.
-/

namespace LoxLang

namespace Grammar

variable {α β : Type}

/-! ## Going on -/

/-- A cursor further on in the same tokens, at least as many as given. -/
structure Cursor.Onward (taken : Nat) (c c' : Cursor) : Prop where
  rest : c'.rest <:+ c.rest
  taken : c'.rest.length + taken ≤ c.rest.length

theorem Cursor.onward_of_rest {c c' : Cursor} (h : c'.rest = c.rest) : c.Onward 0 c' where
  rest := h ▸ List.suffix_rfl
  taken := Nat.le_of_eq (congrArg List.length h)

theorem Cursor.Onward.trans {c c₁ c₂ : Cursor} {first second taken : Nat}
    (h : c.Onward first c₁) (h' : c₁.Onward second c₂) (hle : taken ≤ first + second) :
    c.Onward taken c₂ where
  rest := h'.rest.trans h.rest
  taken := by
    have := h.taken
    have := h'.taken
    omega

theorem Cursor.Onward.mono {c c' : Cursor} {taken taken' : Nat} (h : c.Onward taken c')
    (hle : taken' ≤ taken) : c.Onward taken' c' where
  rest := h.rest
  taken := by
    have := h.taken
    omega

/-- Started at a cursor, a rule goes on, over `taken` tokens at least where it finds something, and
a second rule does the same. -/
structure SettlesAt (c : Cursor) (taken : Nat) (rule rule' : Rule α) : Prop where
  same : rule' c = rule c
  onward : Ensures rule c (fun _ c' => c.Onward taken c') fun _ c' => c.Onward 0 c'

/-- The same of rules that start anywhere where fewer tokens than `room` are left. -/
def Settles (room taken : Nat) (rule rule' : Rule α) : Prop :=
  ∀ c : Cursor, c.rest.length < room → SettlesAt c taken rule rule'

/-- The same of rules that start at a given token. -/
def SettlesBefore (t : Token) (room taken : Nat) (rule rule' : Rule α) : Prop :=
  ∀ c : Cursor, c.peek = t → c.rest.length < room → SettlesAt c taken rule rule'

section

variable {c : Cursor} {t : Token} {room taken first : Nat} {rule rule' : Rule α}
  {next next' : α → Rule β}

theorem SettlesAt.mono {taken' : Nat} (h : SettlesAt c taken rule rule') (hle : taken' ≤ taken) :
    SettlesAt c taken' rule rule' where
  same := h.same
  onward := h.onward.mono (fun _ _ honward => honward.mono hle) fun _ _ => id

/-- One rule after the other: the second has to read what the first is short of. -/
theorem SettlesAt.use (h : SettlesAt c first rule rule')
    (h' : ∀ a c', c.Onward first c' → SettlesAt c' (taken - first) (next a) (next' a)) :
    SettlesAt c taken (rule >>= next) (rule' >>= next') where
  same := by
    show EStateM.bind rule' next' c = EStateM.bind rule next c
    unfold EStateM.bind
    rw [h.same]
    cases hrun : rule c with
    | ok a c' => exact (h' a c' (h.onward.of_ok hrun)).same
    | error problem c' => rfl
  onward := by
    refine h.onward.bind fun a c' hfirst => ?_
    refine (h' a c' hfirst).onward.mono (fun _ _ hsecond => ?_) fun _ _ hsecond => ?_
    · exact hfirst.trans hsecond (by omega)
    · exact hfirst.trans hsecond (Nat.zero_le _)

theorem Settles.mono {room' taken' : Nat} (h : Settles room taken rule rule')
    (hroom : room' ≤ room) (htaken : taken' ≤ taken) : Settles room' taken' rule rule' :=
  fun c hc => (h c (Nat.lt_of_lt_of_le hc hroom)).mono htaken

theorem Settles.less {room' : Nat} (h : Settles room taken rule rule') (hroom : room' ≤ room) :
    Settles room' taken rule rule' :=
  h.mono hroom (Nat.le_refl _)

theorem settles_zero : Settles 0 taken rule rule' :=
  fun _ hc => absurd hc (Nat.not_lt_zero _)

theorem Settles.use (h : Settles room first rule rule')
    (h' : ∀ a, Settles (room - first) (taken - first) (next a) (next' a)) :
    Settles room taken (rule >>= next) (rule' >>= next') := by
  intro c hc
  refine (h c hc).use fun a c' honward => h' a c' ?_
  have := honward.taken
  omega

/-- One rule after the other, where the first reads all that has to be read. -/
theorem Settles.onward (h : Settles room taken rule rule')
    (h' : ∀ a, Settles (room - taken) 0 (next a) (next' a)) :
    Settles room taken (rule >>= next) (rule' >>= next') :=
  h.use fun a => (h' a).mono (Nat.le_refl _) (by omega)

theorem Settles.before (h : Settles room taken rule rule') :
    SettlesBefore t room taken rule rule' :=
  fun c _ hc => h c hc

/-- A rule that finds something where it stands. -/
theorem settles_of_rest (h : ∀ c, ∃ a c', rule c = .ok a c' ∧ c'.rest = c.rest) :
    Settles room 0 rule rule := by
  intro c _
  obtain ⟨a, c', hrun, hrest⟩ := h c
  refine ⟨rfl, ?_⟩
  unfold Ensures
  rw [hrun]
  exact Cursor.onward_of_rest hrest

theorem settles_pure (a : α) : Settles room 0 (pure a) (pure a) :=
  settles_of_rest fun c => ⟨a, c, rfl, rfl⟩

theorem settles_throw (problem : Problem) :
    Settles room taken (throw problem : Rule α) (throw problem) :=
  fun _ _ => ⟨rfl, Cursor.onward_of_rest rfl⟩

theorem settles_failHere (cause : Cause) :
    Settles room taken (failHere cause : Rule α) (failHere cause) :=
  fun _ _ => ⟨rfl, Cursor.onward_of_rest rfl⟩

theorem Settles.map (h : Settles room taken rule rule') (f : α → β) :
    Settles room taken (f <$> rule) (f <$> rule') := by
  rw [map_eq_pure_bind, map_eq_pure_bind]
  exact h.onward fun a => settles_pure (f a)

theorem Settles.ite {condition : Prop} [Decidable condition] {other other' : Rule α}
    (h : condition → Settles room taken rule rule')
    (h' : ¬condition → Settles room taken other other') :
    Settles room taken (if condition then rule else other)
      (if condition then rule' else other') := by
  split
  · next hc => exact h hc
  · next hc => exact h' hc

/-- What is read in one case only, and then what is read in any. -/
theorem Settles.optional {condition : Prop} [Decidable condition] {absent : α}
    (h : Settles room first rule rule')
    (rest : ∀ a left, left ≤ room → Settles left taken (next a) (next' a)) :
    Settles room taken (if condition then rule >>= next else next absent)
      (if condition then rule' >>= next' else next' absent) := by
  refine Settles.ite (fun _ => h.use fun a => ?_) fun _ => rest absent room (Nat.le_refl _)
  exact (rest a (room - first) (Nat.sub_le _ _)).mono (Nat.le_refl _) (Nat.sub_le _ _)

/-- The same where it is read in the other case. -/
theorem Settles.optionalElse {condition : Prop} [Decidable condition] {absent : α}
    (h : Settles room first rule rule')
    (rest : ∀ a left, left ≤ room → Settles left taken (next a) (next' a)) :
    Settles room taken (if condition then next absent else rule >>= next)
      (if condition then next' absent else rule' >>= next') := by
  refine Settles.ite (fun _ => rest absent room (Nat.le_refl _)) fun _ => h.use fun a => ?_
  exact (rest a (room - first) (Nat.sub_le _ _)).mono (Nat.le_refl _) (Nat.sub_le _ _)

theorem SettlesBefore.ite {condition : Prop} [Decidable condition] {other other' : Rule α}
    (h : condition → SettlesBefore t room taken rule rule')
    (h' : ¬condition → SettlesBefore t room taken other other') :
    SettlesBefore t room taken (if condition then rule else other)
      (if condition then rule' else other') := by
  split
  · next hc => exact h hc
  · next hc => exact h' hc

end

/-! ## Primitive rules -/

section

variable {c : Cursor} {t : Token} {room taken : Nat}

/-- What is seen from the cursor is known from there. -/
theorem SettlesAt.look {look : Rule α} {a : α} {next next' : α → Rule β} (hlook : look c = .ok a c)
    (h : SettlesAt c taken (next a) (next' a)) :
    SettlesAt c taken (look >>= next) (look >>= next') := by
  have hbind : ∀ rest : α → Rule β, (look >>= rest) c = rest a c := by
    intro rest
    show EStateM.bind look rest c = rest a c
    unfold EStateM.bind
    rw [hlook]
  refine ⟨by rw [hbind, hbind, h.same], ?_⟩
  unfold Ensures
  rw [hbind]
  exact h.onward

/-- The token at the cursor may be looked at. -/
theorem Settles.peek {next next' : Token → Rule β}
    (h : ∀ t, SettlesBefore t room taken (next t) (next' t)) :
    Settles room taken (Grammar.peek >>= next) (Grammar.peek >>= next') :=
  fun c hc => SettlesAt.look rfl (h c.peek c rfl hc)

/-- Where a token other than the end mark is at the cursor, there is one left. -/
theorem rest_ne_nil (h : c.peek.kind ≠ .eof) : c.rest ≠ [] := by
  intro hnil
  unfold Cursor.peek at h
  rw [hnil] at h
  exact h rfl

/-- After the token at the cursor. -/
theorem SettlesBefore.advance {next next' : Unit → Rule β} (ht : t.kind ≠ .eof)
    (h : Settles (room - 1) (taken - 1) (next ()) (next' ())) :
    SettlesBefore t room taken (Grammar.advance >>= next) (Grammar.advance >>= next') := by
  rintro c rfl hc
  have hsome := List.length_pos_iff.mpr (rest_ne_nil ht)
  have hadvance : SettlesAt c 1 Grammar.advance Grammar.advance := by
    refine ⟨rfl, List.tail_suffix c.rest, ?_⟩
    show c.rest.tail.length + 1 ≤ c.rest.length
    rw [List.length_tail]
    omega
  refine hadvance.use fun _ c' honward => h c' ?_
  have := honward.taken
  omega

theorem settles_loopDepth : Settles room 0 loopDepth loopDepth :=
  settles_of_rest fun c => ⟨_, c, rfl, rfl⟩

theorem settles_freshId : Settles room 0 freshId freshId :=
  settles_of_rest fun _ => ⟨_, _, rfl, rfl⟩

theorem settles_note (problem : Problem) : Settles room 0 (note problem) (note problem) :=
  settles_of_rest fun _ => ⟨_, _, rfl, rfl⟩

theorem settles_atSymbol (symbol : Symbol) : Settles room 0 (atSymbol symbol) (atSymbol symbol) :=
  settles_of_rest fun c => ⟨_, c, rfl, rfl⟩

/-- Where a function is declared there are tokens left. -/
theorem SettlesAt.atNamedFunction {next next' : Bool → Rule β}
    (found : c.peek.kind ≠ .eof → SettlesAt c taken (next true) (next' true))
    (other : SettlesAt c taken (next false) (next' false)) :
    SettlesAt c taken (Grammar.atNamedFunction >>= next) (Grammar.atNamedFunction >>= next') := by
  have hlook : Grammar.atNamedFunction c = .ok true c ∧ c.peek.kind ≠ .eof ∨
      Grammar.atNamedFunction c = .ok false c := by
    unfold Grammar.atNamedFunction Cursor.peek
    split
    · next hrest => exact .inl ⟨rfl, by simp [hrest]⟩
    · exact .inr rfl
  rcases hlook with ⟨hlook, hkind⟩ | hlook
  · exact SettlesAt.look hlook (found hkind)
  · exact SettlesAt.look hlook other

theorem settles_accept (symbol : Symbol) : Settles room 0 (accept symbol) (accept symbol) := by
  unfold accept atSymbol
  simp only [bind_assoc, pure_bind]
  refine Settles.peek fun t => SettlesBefore.ite (fun h => ?_) fun _ => (settles_pure _).before
  exact SettlesBefore.advance (by simp [kind_of_isSymbol h]) (settles_pure _)

theorem settles_expect (landmark : Landmark) :
    Settles room 1 (expect landmark) (expect landmark) := by
  refine Settles.peek fun t => SettlesBefore.ite (fun h => ?_) fun _ => (settles_failHere _).before
  exact SettlesBefore.advance (by simp [kind_of_isSymbol h]) (settles_pure _)

theorem settles_expectName (role : NameRole) :
    Settles room 1 (expectName role) (expectName role) := by
  refine Settles.peek fun t => ?_
  split
  · next name hkind => exact SettlesBefore.advance (by simp [hkind]) (settles_pure _)
  · exact (settles_failHere _).before

/-- A word is stepped over, or another way is taken. -/
theorem Settles.acceptWord {next next' : Bool → Rule β} (word : Keyword)
    (found : Settles (room - 1) (taken - 1) (next true) (next' true))
    (other : Settles room taken (next false) (next' false)) :
    Settles room taken (acceptWord word >>= next) (acceptWord word >>= next') := by
  unfold Grammar.acceptWord
  simp only [bind_assoc]
  refine Settles.peek fun t => ?_
  by_cases h : isWord word t = true
  · simp only [h, if_true, bind_assoc, pure_bind]
    exact SettlesBefore.advance (by simp [kind_of_isWord h]) found
  · rw [if_neg h]
    exact other.before

theorem settles_reference (role : NameRole) :
    Settles room 1 (reference role) (reference role) :=
  (settles_expectName role).onward fun _ => settles_freshId.onward fun _ => settles_pure _

theorem settles_checkArity (cause : Cause) (count : Nat) :
    Settles room 0 (checkArity cause count) (checkArity cause count) := by
  refine Settles.ite (fun _ => ?_) fun _ => settles_pure ()
  exact Settles.peek fun t => (settles_note _).before

theorem Settles.withLoopDepth {rule rule' : Rule α} (h : Settles room taken rule rule')
    (change : Nat → Nat) :
    Settles room taken (withLoopDepth change rule) (withLoopDepth change rule') := by
  intro c hc
  obtain ⟨same, onward⟩ := h { c with loopDepth := change c.loopDepth } hc
  refine ⟨?_, ?_⟩
  · unfold Grammar.withLoopDepth
    rw [same]
  · unfold Ensures Grammar.withLoopDepth at *
    cases hrun : rule { c with loopDepth := change c.loopDepth } with
    | ok a c' =>
      rw [hrun] at onward
      exact ⟨onward.rest, onward.taken⟩
    | error problem c' =>
      rw [hrun] at onward
      exact ⟨onward.rest, onward.taken⟩

end

/-! ## Recovery -/

/-- Which tokens are dropped in front of those that remain, so that a statement may begin there: the
first one in any case, whatever it is. -/
structure Skips (dropped remaining : List Token) : Prop where
  nonempty : dropped ≠ []
  /-- What remains is nothing, or is behind a semicolon or at a word that begins a statement. -/
  ends : remaining = [] ∨ dropped.getLast?.any (isSymbol .semicolon) = true ∨
    remaining.head?.any startsStatement = true
  /-- There is no such place before. -/
  words : ∀ t ∈ dropped.tail, startsStatement t = false
  semicolons : ∀ t ∈ dropped.dropLast, isSymbol .semicolon t = false

theorem skips_skipStatement (t : Token) (rest : List Token) :
    ∃ dropped, dropped ++ skipStatement (t :: rest) = t :: rest ∧
      Skips dropped (skipStatement (t :: rest)) := by
  induction rest generalizing t with
  | nil =>
    have hnil : skipStatement [t] = [] := by simp [skipStatement]
    rw [hnil]
    exact ⟨[t], rfl, List.cons_ne_nil _ _, .inl rfl, by simp, by simp⟩
  | cons next rest ih =>
    rw [skipStatement]
    by_cases hstop : (isSymbol .semicolon t || (next :: rest).head?.any startsStatement) = true
    · rw [if_pos hstop]
      rw [Bool.or_eq_true] at hstop
      exact ⟨[t], rfl, List.cons_ne_nil _ _, .inr hstop, by simp, by simp⟩
    · rw [if_neg hstop]
      rw [Bool.not_eq_true, Bool.or_eq_false_iff] at hstop
      obtain ⟨dropped, hdropped, hnonempty, hends, hwords, hsemicolons⟩ := ih next
      -- The next token is the first of those that are dropped behind this one.
      obtain ⟨first, dropped, rfl⟩ := List.exists_cons_of_ne_nil hnonempty
      obtain rfl : first = next := (List.cons.inj hdropped).1
      refine ⟨t :: first :: dropped, congrArg (t :: ·) hdropped, ?_⟩
      refine ⟨List.cons_ne_nil _ _, hends, ?_, ?_⟩
      · intro u hu
        rcases List.mem_cons.mp hu with rfl | hlater
        · exact hstop.2
        · exact hwords u hlater
      · intro u hu
        rw [List.dropLast_cons_cons] at hu
        rcases List.mem_cons.mp hu with rfl | hlater
        · exact hstop.1
        · exact hsemicolons u hlater

theorem skipStatement_onward (tokens : List Token) :
    skipStatement tokens <:+ tokens ∧
      (skipStatement tokens).length + min 1 tokens.length ≤ tokens.length := by
  cases tokens with
  | nil => simp [skipStatement]
  | cons t rest =>
    obtain ⟨dropped, hdropped, hskips⟩ := skips_skipStatement t rest
    have hnonempty := List.length_pos_iff.mpr hskips.nonempty
    have hlength := congrArg List.length hdropped
    rw [List.length_append] at hlength
    refine ⟨⟨dropped, hdropped⟩, ?_⟩
    omega

/-- Behind a problem reading goes on, and a token is dropped if there is one. A rule may fail with
no token left, so that nothing more can be said. -/
theorem Settles.recover {room : Nat} {rule rule' : Rule α} (h : Settles room 1 rule rule') :
    ∀ c : Cursor, c.rest.length < room →
      SettlesAt c (min 1 c.rest.length) (recover rule) (recover rule') := by
  intro c hc
  obtain ⟨same, onward⟩ := h c hc
  refine ⟨?_, ?_⟩
  · unfold Grammar.recover
    rw [same]
  · unfold Ensures Grammar.recover at *
    cases hrun : rule c with
    | ok a c' =>
      rw [hrun] at onward
      exact onward.mono (Nat.min_le_left _ _)
    | error problem c' =>
      rw [hrun] at onward
      have hskip := skipStatement_onward c'.rest
      refine ⟨hskip.1.trans onward.rest, ?_⟩
      have := onward.taken
      have := hskip.2
      show (skipStatement c'.rest).length + min 1 c.rest.length ≤ c.rest.length
      omega

/-! ## Repetition -/

section

variable {room : Nat}

/-- A repetition settles if each of its rounds does, behind which a token less is left. No round is
short of the bound, which is above the number of tokens left. -/
theorem Settles.repeated {γ : Type} {taken : Nat} {loop loop' : Nat → γ → Rule α}
    (round : ∀ left bound bound', left ≤ room →
      (∀ x, Settles (left - 1) taken (loop bound x) (loop' bound' x)) →
      ∀ x, Settles left taken (loop (bound + 1) x) (loop' (bound' + 1) x))
    {bound bound' : Nat} (hbound : room ≤ bound) (hbound' : room ≤ bound') (x : γ) :
    Settles room taken (loop bound x) (loop' bound' x) := by
  -- The two bounds may differ: both are left only where no token is left any more.
  have hloop : ∀ bound bound' left, left ≤ room → left ≤ bound → left ≤ bound' →
      ∀ x, Settles left taken (loop bound x) (loop' bound' x) := by
    intro bound
    induction bound with
    | zero =>
      intro bound' left _ hleft _ x
      obtain rfl : left = 0 := Nat.le_zero.mp hleft
      exact settles_zero
    | succ bound ih =>
      intro bound' left hroom hleft hleft' x
      cases bound' with
      | zero =>
        obtain rfl : left = 0 := Nat.le_zero.mp hleft'
        exact settles_zero
      | succ bound' =>
        exact round left bound bound' hroom
          (ih bound' (left - 1) (by omega) (by omega) (by omega)) x
  exact hloop bound bound' room (Nat.le_refl _) hbound hbound' x

theorem settles_commaSeparated {item item' : Nat → Rule α}
    (h : ∀ count, Settles room 1 (item count) (item' count)) {bound bound' : Nat}
    (hbound : room ≤ bound) (hbound' : room ≤ bound') (count : Nat) :
    Settles room 1 (commaSeparated item bound count) (commaSeparated item' bound' count) := by
  refine Settles.repeated (fun left bound bound' hleft hrest count => ?_) hbound hbound' count
  unfold commaSeparated
  refine ((h count).less hleft).onward fun first => (settles_accept .comma).onward fun found => ?_
  refine Settles.ite (fun _ => ?_) fun _ => settles_pure _
  exact (hrest (count + 1)).use fun rest => settles_pure _

/-- An operator is a token, so that each round reads one. -/
theorem settles_leftNested {ω : Type} {operator? : Token → Option ω} {operand operand' : Rule Expr}
    {build : Expr → ω → Nat → Expr → Expr} (hend : ∀ t, t.kind = .eof → operator? t = none)
    (h : Settles (room - 1) 1 operand operand') {bound bound' : Nat} (hbound : room ≤ bound)
    (hbound' : room ≤ bound') (left : Expr) :
    Settles room 0 (leftNested operator? operand build bound left)
      (leftNested operator? operand' build bound' left) := by
  refine Settles.repeated (fun tokens bound bound' htokens hrest left => ?_) hbound hbound' left
  unfold leftNested
  refine Settles.peek fun t => ?_
  cases hop : operator? t with
  | none => exact (settles_pure left).before
  | some op =>
    have ht : t.kind ≠ .eof := fun ht => by simp [hend t ht] at hop
    have hoperand : Settles (tokens - 1) 1 operand operand' := h.less (by omega)
    exact SettlesBefore.advance ht (hoperand.use fun right => (hrest _).less (by omega))

/-- Items are looked for only where there is something left. -/
theorem settles_untilBrace {item item' : Rule α}
    (h : ∀ c : Cursor, c.rest.length < room → SettlesAt c (min 1 c.rest.length) item item')
    {bound bound' : Nat} (hbound : room ≤ bound) (hbound' : room ≤ bound') :
    Settles room 0 (untilBrace item bound) (untilBrace item' bound') := by
  suffices hround : ∀ left bound bound', left ≤ room →
      (Unit → Settles (left - 1) 0 (untilBrace item bound) (untilBrace item' bound')) →
      Unit → Settles left 0 (untilBrace item (bound + 1)) (untilBrace item' (bound' + 1)) from
    Settles.repeated hround hbound hbound' ()
  intro left bound bound' hleft hrest _
  unfold untilBrace
  refine (settles_atSymbol .rightBrace).onward fun brace => ?_
  -- An item is sure to read a token only where one is left, which is known from the cursor.
  intro c hc
  refine SettlesAt.look (rfl : atEnd c = .ok c.rest.isEmpty c) ?_
  by_cases hstop : (brace || c.rest.isEmpty) = true
  · rw [if_pos hstop, if_pos hstop]
    exact settles_pure [] c hc
  · rw [if_neg hstop, if_neg hstop]
    have hsome : c.rest ≠ [] := by
      intro hnil
      simp [hnil] at hstop
    have hlength := List.length_pos_iff.mpr hsome
    have hitem : SettlesAt c 1 item item' := (h c (by omega)).mono (by omega)
    refine hitem.use fun first c' honward => ?_
    have := honward.taken
    exact ((hrest ()).onward fun rest => settles_pure _) c' (by omega)

end

/-! ## Categories -/

/-- How many tokens a category has at least, where there are any left. A declaration with a problem
is dropped, and there may be nothing to be dropped. -/
def Category.taken (c : Cursor) : Category → Nat
  | .declaration => min 1 c.rest.length
  | _ => 1

/-- Rules that do the same where fewer tokens are left than `room`. -/
structure Rules.Settle (room : Nat) (inner inner' : Rules) : Prop where
  bound : room ≤ inner.bound
  bound' : room ≤ inner'.bound
  read : ∀ category c, c.rest.length < room →
    SettlesAt c (category.taken c) (inner.read category) (inner'.read category)

section

variable {room : Nat} {inner inner' : Rules}

/-! ### Functions -/

theorem settles_parameter (count : Nat) : Settles room 1 (parameter count) (parameter count) :=
  (settles_checkArity _ _).use fun _ => settles_expectName _

theorem settles_block (h : inner.Settle room inner') :
    Settles room 1 (block inner) (block inner') := by
  refine (settles_untilBrace (h.read .declaration) h.bound h.bound').use fun body => ?_
  exact (settles_expect _).onward fun _ => settles_pure _

theorem settles_function (h : inner.Settle room inner') (callable : Callable) :
    Settles room 1 (function inner callable) (function inner' callable) := by
  have hbound := h.bound
  have hbound' := h.bound'
  refine (settles_expect (.parametersOpen callable)).onward fun _ => ?_
  refine (settles_atSymbol .rightParen).onward fun found => ?_
  refine Settles.optionalElse (settles_commaSeparated settles_parameter (by omega) (by omega) 0)
    fun params left hleft => ?_
  refine (settles_expect .parametersClose).use fun _ => ?_
  refine (settles_expect (.bodyOpen callable)).use fun _ => ?_
  have hbody : Settles (left - 1 - 1) 1 (block inner) (block inner') :=
    (settles_block h).less (by omega)
  exact (hbody.withLoopDepth fun _ => 0).use fun body => settles_pure _

theorem settles_namedFunction (h : inner.Settle room inner') (callable : Callable) :
    Settles room 1 (namedFunction inner callable) (namedFunction inner' callable) := by
  refine (settles_expectName _).onward fun name => ?_
  refine Settles.onward ((settles_function h callable).mono (Nat.sub_le room 1) (Nat.zero_le _))
    fun function => settles_pure _

/-! ### Expressions -/

/-- An operand begins with a token, behind which there is room for all that is in it. -/
theorem settles_primary (h : inner.Settle room inner') :
    Settles (room + 1) 1 (primary inner) (primary inner') := by
  refine Settles.peek fun t => ?_
  split
  case h_1 hkind =>
    refine SettlesBefore.advance (by simp [hkind]) ?_
    exact (settles_function h .function).use fun function => settles_pure _
  case h_8 hkind =>
    refine SettlesBefore.advance (by simp [hkind]) ?_
    refine (settles_expect _).use fun _ => (settles_expectName _).use fun method => ?_
    exact settles_freshId.use fun id => settles_pure _
  case h_10 hkind =>
    refine SettlesBefore.advance (by simp [hkind]) ?_
    refine Settles.use (h.read .expression) fun e => (settles_expect _).use fun _ => ?_
    exact settles_pure _
  case h_11 => exact (settles_failHere _).before
  case h_7 hkind =>
    exact SettlesBefore.advance (by simp [hkind]) (settles_freshId.use fun id => settles_pure _)
  case h_9 hkind =>
    exact SettlesBefore.advance (by simp [hkind]) (settles_freshId.use fun id => settles_pure _)
  all_goals
    next hkind => exact SettlesBefore.advance (by simp [hkind]) (settles_pure _)

theorem settles_argument (h : inner.Settle room inner') (count : Nat) :
    Settles room 1 (argument inner count) (argument inner' count) :=
  (settles_checkArity _ _).use fun _ => h.read .assignment

theorem settles_arguments (h : inner.Settle room inner') :
    Settles room 1 (arguments inner) (arguments inner') := by
  refine (settles_atSymbol .rightParen).use fun found => ?_
  refine Settles.optionalElse (settles_commaSeparated (settles_argument h) h.bound h.bound' 0)
    fun args left _ => ?_
  exact (settles_expect _).onward fun line => settles_pure _

theorem settles_suffixes (h : inner.Settle room inner') {bound bound' : Nat} (hbound : room ≤ bound)
    (hbound' : room ≤ bound') (e : Expr) :
    Settles room 0 (suffixes inner bound e) (suffixes inner' bound' e) := by
  refine Settles.repeated (fun left bound bound' hleft hrest e => ?_) hbound hbound' e
  unfold suffixes
  refine Settles.peek fun t => ?_
  split
  · next hkind =>
    refine SettlesBefore.advance (by simp [hkind]) ?_
    refine ((settles_arguments h).less (by omega)).use fun found => ?_
    exact (hrest _).less (by omega)
  · next hkind =>
    refine SettlesBefore.advance (by simp [hkind]) ?_
    exact (settles_expectName _).use fun name => (hrest _).less (by omega)
  · exact (settles_pure e).before

theorem settles_call (h : inner.Settle room inner') :
    Settles (room + 1) 1 (call inner) (call inner') :=
  (settles_primary h).onward fun e => settles_suffixes h h.bound h.bound' e

theorem settles_unary (h : inner.Settle room inner') :
    Settles (room + 1) 1 (unary inner) (unary inner') := by
  refine Settles.peek fun t => ?_
  cases hop : unaryOp? t with
  | none => exact (settles_call h).before
  | some op =>
    have ht : t.kind ≠ .eof := fun ht => by simp [unaryOp?, ht] at hop
    refine SettlesBefore.advance ht ?_
    exact Settles.use (h.read .unary) fun e => settles_pure _

theorem settles_binary (level : Level) {bound bound' : Nat} {operand operand' : Rule Expr}
    (h : Settles (room + 1) 1 operand operand') (hbound : room ≤ bound) (hbound' : room ≤ bound') :
    Settles (room + 1) 1 (binary level bound operand) (binary level bound' operand') := by
  have hend : ∀ t, t.kind = .eof → level.operator? t = none := by
    intro t ht
    simp [Level.operator?, ht]
  refine Settles.peek fun t => SettlesBefore.ite (fun hleft => ?_) fun _ => ?_
  · have ht : t.kind ≠ .eof := fun ht => by simp [hend t ht] at hleft
    refine SettlesBefore.advance ht ((h.less (by omega)).use fun _ => ?_)
    exact settles_throw _
  · refine (h.onward fun left => ?_).before
    exact settles_leftNested hend (h.less (by omega)) hbound hbound' left

theorem settles_logical (op : LogicalOp) {bound bound' : Nat} {operand operand' : Rule Expr}
    (h : Settles (room + 1) 1 operand operand') (hbound : room ≤ bound) (hbound' : room ≤ bound') :
    Settles (room + 1) 1 (logical op bound operand) (logical op bound' operand') := by
  have hend : ∀ t, t.kind = .eof → logicalOp? op t = none := by
    intro t ht
    simp [logicalOp?, isWord, ht]
  refine h.onward fun left => ?_
  exact settles_leftNested hend (h.less (by omega)) hbound hbound' left

theorem settles_either (h : inner.Settle room inner') :
    Settles (room + 1) 1 (either inner) (either inner') := by
  have hfactor := settles_binary .factor (settles_unary h) h.bound h.bound'
  have hterm := settles_binary .term hfactor h.bound h.bound'
  have hcomparison := settles_binary .comparison hterm h.bound h.bound'
  have hequality := settles_binary .equality hcomparison h.bound h.bound'
  have hboth := settles_logical .both hequality h.bound h.bound'
  exact settles_logical .either hboth h.bound h.bound'

theorem settles_conditional (h : inner.Settle room inner') :
    Settles (room + 1) 1 (conditional inner) (conditional inner') := by
  refine (settles_either h).onward fun condition => (settles_accept _).onward fun found => ?_
  refine Settles.ite (fun _ => ?_) fun _ => settles_pure condition
  refine Settles.use (h.read .expression) fun thenBranch => (settles_expect _).use fun _ => ?_
  have helse : Settles room 1 (inner.read .conditional) (inner'.read .conditional) :=
    h.read .conditional
  exact (helse.less (by omega)).use fun elseBranch => settles_pure _

theorem settles_assignTo (target value : Expr) (equals : Token) :
    Settles room 0 (assignTo target equals value) (assignTo target equals value) := by
  cases target with
  | «variable» ref => exact settles_freshId.onward fun id => settles_pure _
  | get object name => exact settles_pure _
  | _ => exact (settles_note _).onward fun _ => settles_pure _

theorem settles_assignment (h : inner.Settle room inner') :
    Settles (room + 1) 1 (assignment inner) (assignment inner') := by
  refine (settles_conditional h).onward fun target => ?_
  refine Settles.peek fun t => SettlesBefore.ite (fun hequal => ?_) fun _ => (settles_pure _).before
  refine SettlesBefore.advance (by simp [kind_of_isSymbol hequal]) ?_
  have hvalue : Settles room 1 (inner.read .assignment) (inner'.read .assignment) :=
    h.read .assignment
  exact (hvalue.less (by omega)).use fun value => settles_assignTo target value t

theorem settles_expression (h : inner.Settle room inner') :
    Settles (room + 1) 1 (expression inner) (expression inner') := by
  have hend : ∀ t, t.kind = .eof → comma? t = none := by
    intro t ht
    simp [comma?, isSymbol, ht]
  refine (settles_assignment h).onward fun left => ?_
  exact settles_leftNested hend ((settles_assignment h).less (by omega)) h.bound h.bound' left

/-! ### Statements -/

theorem Rules.Settle.expression {left : Nat} (h : inner.Settle room inner') (hleft : left ≤ room) :
    Settles left 1 (inner.read .expression) (inner'.read .expression) :=
  Settles.less (h.read .expression) hleft

theorem Rules.Settle.statement {left : Nat} (h : inner.Settle room inner') (hleft : left ≤ room) :
    Settles left 1 (inner.read .statement) (inner'.read .statement) :=
  Settles.less (h.read .statement) hleft

theorem settles_optionalBefore (symbol : Symbol) {rule rule' : Rule Expr}
    (h : Settles room 1 rule rule') :
    Settles room 0 (optionalBefore symbol rule) (optionalBefore symbol rule') :=
  (settles_atSymbol symbol).onward fun _ => Settles.ite (fun _ => settles_pure none) fun _ =>
    h.use fun _ => settles_pure _

theorem settles_varDecl (h : inner.Settle room inner') :
    Settles room 1 (varDecl inner) (varDecl inner') := by
  refine (settles_expectName _).onward fun name => (settles_accept _).onward fun found => ?_
  refine Settles.optional ((h.expression (by omega)).map some) fun initial left _ => ?_
  exact (settles_expect _).use fun _ => settles_pure _

theorem settles_expressionStatement {rule rule' : Rule Expr} (h : Settles room 1 rule rule') :
    Settles room 1 (expressionStatement rule) (expressionStatement rule') :=
  h.onward fun _ => (settles_expect _).use fun _ => settles_pure _

theorem settles_breakLoop (word : Token) :
    Settles room 1 (breakLoop word) (breakLoop word) :=
  settles_loopDepth.use fun _ => Settles.ite (fun _ => settles_throw _) fun _ =>
    (settles_expect _).onward fun _ => settles_pure _

theorem settles_forInitial (h : inner.Settle room inner') :
    Settles room 0 (forInitial inner) (forInitial inner') := by
  refine (settles_accept _).onward fun _ => Settles.ite (fun _ => settles_pure none) fun _ => ?_
  refine Settles.acceptWord .varWord ?_ ?_
  · exact ((settles_varDecl h).less (Nat.sub_le _ _)).use fun s => settles_pure _
  · exact (settles_expressionStatement (h.expression (Nat.le_refl _))).use fun s => settles_pure _

theorem settles_forStatement (h : inner.Settle room inner') :
    Settles room 1 (forStatement inner) (forStatement inner') := by
  have hpart (symbol : Symbol) := settles_optionalBefore symbol (h.expression (Nat.le_refl _))
  refine (settles_expect _).onward fun _ => ?_
  refine ((settles_forInitial h).less (by omega)).onward fun initial => ?_
  refine ((hpart _).less (by omega)).onward fun condition => (settles_expect _).use fun _ => ?_
  refine ((hpart _).less (by omega)).onward fun increment => (settles_expect _).use fun _ => ?_
  exact ((h.statement (by omega)).withLoopDepth (· + 1)).use fun body => settles_pure _

theorem settles_ifStatement (h : inner.Settle room inner') :
    Settles room 1 (ifStatement inner) (ifStatement inner') := by
  refine (settles_expect _).onward fun _ => (h.expression (by omega)).use fun condition => ?_
  refine (settles_expect _).use fun _ => (h.statement (by omega)).use fun thenBranch => ?_
  refine Settles.acceptWord .elseWord ?_ (settles_pure _)
  exact ((h.statement (by omega)).map some).use fun elseBranch => settles_pure _

theorem settles_whileStatement (h : inner.Settle room inner') :
    Settles room 1 (whileStatement inner) (whileStatement inner') := by
  refine (settles_expect _).onward fun _ => (h.expression (by omega)).use fun condition => ?_
  refine (settles_expect _).use fun _ => ?_
  exact ((h.statement (by omega)).withLoopDepth (· + 1)).use fun body => settles_pure _

theorem settles_returnStatement (h : inner.Settle room inner') (line : Nat) :
    Settles room 1 (returnStatement inner line) (returnStatement inner' line) := by
  refine (settles_optionalBefore _ (h.expression (Nat.le_refl _))).use fun value => ?_
  exact (settles_expect _).onward fun _ => settles_pure _

theorem settles_printStatement (h : inner.Settle room inner') :
    Settles room 1 (printStatement inner) (printStatement inner') :=
  (h.expression (Nat.le_refl _)).onward fun _ => (settles_expect _).use fun _ => settles_pure _

theorem settles_statement (h : inner.Settle room inner') :
    Settles (room + 1) 1 (statement inner) (statement inner') := by
  have hword : ∀ {t : Token} {rule rule' : Rule Stmt}, t.kind ≠ .eof → Settles room 1 rule rule' →
      SettlesBefore t (room + 1) 1 (advance >>= fun _ => rule) (advance >>= fun _ => rule') :=
    fun ht hrule => SettlesBefore.advance ht (hrule.mono (Nat.le_refl _) (Nat.zero_le _))
  refine Settles.peek fun t => ?_
  split
  · next hkind => exact hword (by simp [hkind]) (settles_breakLoop t)
  · next hkind => exact hword (by simp [hkind]) (settles_forStatement h)
  · next hkind => exact hword (by simp [hkind]) (settles_ifStatement h)
  · next hkind => exact hword (by simp [hkind]) (settles_whileStatement h)
  · next hkind => exact hword (by simp [hkind]) (settles_returnStatement h t.line)
  · next hkind =>
    exact hword (by simp [hkind]) ((settles_block h).onward fun body => settles_pure _)
  · next hkind => exact hword (by simp [hkind]) (settles_printStatement h)
  · exact (settles_expressionStatement (settles_expression h)).before

/-! ### Declarations -/

theorem settles_withClause {bound bound' : Nat} (hbound : room ≤ bound) (hbound' : room ≤ bound') :
    Settles room 0 (withClause bound) (withClause bound') := by
  refine Settles.acceptWord .withWord ?_ (settles_pure [])
  exact (settles_commaSeparated (fun _ => settles_reference _) (by omega) (by omega) 0).mono
    (Nat.le_refl _) (Nat.zero_le _)

theorem settles_classMember (h : inner.Settle room inner') :
    Settles room 1 (classMember inner) (classMember inner') := by
  have hmember : ∀ ofClass : Bool, Settles room 1
      (namedFunction inner .method >>= fun f => pure (ofClass, f))
      (namedFunction inner' .method >>= fun f => pure (ofClass, f)) :=
    fun ofClass => (settles_namedFunction h .method).onward fun f => settles_pure _
  refine Settles.acceptWord .classWord ?_ (hmember false)
  exact (hmember true).mono (Nat.sub_le _ _) (Nat.zero_le _)

/-- The items of a body have a token at least, where there are any left. -/
theorem settles_members {item item' : Rule α} (hitem : Settles room 1 item item')
    (h : inner.Settle room inner') {left : Nat} (hleft : left ≤ room) :
    Settles left 0 (untilBrace item inner.bound) (untilBrace item' inner'.bound) :=
  settles_untilBrace
    (fun c hc => (hitem c (by omega)).mono (Nat.min_le_left _ _))
    (Nat.le_trans hleft h.bound) (Nat.le_trans hleft h.bound')

theorem settles_classDecl (h : inner.Settle room inner') :
    Settles room 1 (classDecl inner) (classDecl inner') := by
  have hbound := h.bound
  have hbound' := h.bound'
  refine (settles_expectName _).onward fun name => (settles_accept _).onward fun found => ?_
  refine Settles.optional ((settles_reference _).map some) fun superclass left hleft => ?_
  refine (settles_withClause (by omega) (by omega)).onward fun traits => ?_
  refine (settles_expect _).use fun _ => ?_
  refine (settles_members (settles_classMember h) h (by omega)).onward fun members => ?_
  exact (settles_expect _).use fun _ => settles_pure _

theorem settles_traitDecl (h : inner.Settle room inner') :
    Settles room 1 (traitDecl inner) (traitDecl inner') := by
  have hbound := h.bound
  have hbound' := h.bound'
  refine (settles_expectName _).onward fun name => ?_
  refine (settles_withClause (by omega) (by omega)).onward fun traits => ?_
  refine (settles_expect _).use fun _ => ?_
  refine (settles_members (settles_namedFunction h .method) h (by omega)).onward fun methods => ?_
  exact (settles_expect _).use fun _ => settles_pure _

theorem settles_strictDeclaration (h : inner.Settle room inner') :
    Settles (room + 1) 1 (strictDeclaration inner) (strictDeclaration inner') := by
  refine Settles.acceptWord .classWord ?_ ?_
  · exact (settles_classDecl h).mono (Nat.le_refl _) (Nat.zero_le _)
  refine Settles.acceptWord .traitWord ?_ ?_
  · exact (settles_traitDecl h).mono (Nat.le_refl _) (Nat.zero_le _)
  intro c hc
  refine SettlesAt.atNamedFunction (fun hkind => ?_) ?_
  · refine SettlesBefore.advance hkind ?_ c rfl hc
    exact ((settles_namedFunction h .function).mono (Nat.le_refl _) (Nat.zero_le _)).onward
      fun function => settles_pure _
  · refine Settles.acceptWord .varWord ?_ (settles_statement h) c hc
    exact (settles_varDecl h).mono (Nat.le_refl _) (Nat.zero_le _)

/-- What a category comes to is settled where fewer tokens are left, and so is what its parts come
to where as many are. -/
theorem settles_rule (h : inner.Settle room inner') (category : Category) (c : Cursor)
    (hc : c.rest.length < room + 1) :
    SettlesAt c (category.taken c) (rule inner category) (rule inner' category) := by
  cases category with
  | expression => exact settles_expression h c hc
  | assignment => exact settles_assignment h c hc
  | conditional => exact settles_conditional h c hc
  | unary => exact settles_unary h c hc
  | statement => exact settles_statement h c hc
  | declaration => exact (settles_strictDeclaration h).recover c hc

end

end Grammar

end LoxLang
