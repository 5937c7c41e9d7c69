import LoxLang.Grammar.Program
import LoxLang.Proofs.Ensures
import LoxLang.Proofs.Grammar.Derivable
import LoxLang.Proofs.Tree.Relabelling

/-!
# Reading a text again

A text that is read without a problem is read in the same way where it stands in another place: on
other lines, with other references taken before it, and with more text behind it. Rules look no
further than they read but for a few tokens, so that they do not meet what comes behind, and the
tree is the same but for its labels (`Retells`). Behind an expression with which the text ended, a
semicolon may come instead.
-/

namespace LoxLang

namespace Grammar

variable {α β γ δ : Type}

/-- Another place of a text: the labels that it has there, how much greater its references are, up to
which reference this is so, and what comes behind, which does not go on with an `if`. -/
structure Retelling where
  labels : Relabelling
  shift : Nat
  limit : RefId
  more : List Token
  ids : ∀ id < limit, labels.id id = id + shift
  stops : ∀ t ∈ more.head?, isWord .elseWord t = false

variable {p : Retelling}

/-- How many tokens behind an expression are looked at. It does not matter whether a semicolon is
found there or the end of the text. -/
def Retelling.look (p : Retelling) : Nat :=
  if p.more.head?.any (isSymbol .semicolon) then 0 else 1

theorem Retelling.look_le_one : p.look ≤ 1 := by
  unfold look
  split <;> decide

/-- A cursor in the other place. -/
structure Retelling.Moves (p : Retelling) (c c' : Cursor) : Prop where
  rest : c'.rest = c.rest.map (Token.relabel p.labels) ++ p.more
  loopDepth : c'.loopDepth = c.loopDepth
  nextId : c'.nextId = c.nextId + p.shift
  problems : c'.problems = []

/-- A rule has got from `c` to `c₁` without a problem and has read at least `taken` tokens, if there
are fewer than `room` in all. Then another rule does so in the other place, unless the text ends
there within the next `ahead` tokens. -/
structure Retelling.Repeats (p : Retelling) (room taken ahead : Nat) (c c₁ : Cursor) (a : α)
    (rule : Rule α) : Prop where
  problems : c.problems = []
  nextId : c.nextId ≤ c₁.nextId
  taken : c.rest.length < room → c₁.rest.length + taken ≤ c.rest.length
  repeats : c.rest.length < room → p.more = [] ∨ ahead ≤ c₁.rest.length → c₁.nextId ≤ p.limit →
    ∀ c', p.Moves c c' → ∃ c₁', rule c' = .ok a c₁' ∧ p.Moves c₁ c₁'

/-- Started at a token, a second rule reads in the other place what a first one reads, and its
result is that of the first under `g`. -/
def RetellsAt (p : Retelling) (t : Token) (room taken ahead : Nat) (g : α → β) (rule : Rule α)
    (rule' : Rule β) : Prop :=
  ∀ c : Cursor, c.peek = t →
    Ensures rule c
      (fun a c₁ => c₁.problems = [] → p.Repeats room taken ahead c c₁ (g a) rule')
      fun _ _ => True

/-- The same of rules that start anywhere. -/
def Retells (p : Retelling) (room taken ahead : Nat) (g : α → β) (rule : Rule α)
    (rule' : Rule β) : Prop :=
  ∀ t, RetellsAt p t room taken ahead g rule rule'

section

variable {t : Token} {room taken ahead : Nat} {g : α → β} {k : γ → δ} {rule : Rule α}
  {rule' : Rule β}

theorem RetellsAt.mono {room' taken' ahead' : Nat} (h : RetellsAt p t room taken ahead g rule rule')
    (hroom : room' ≤ room) (htaken : taken' ≤ taken) (hahead : ahead ≤ ahead') :
    RetellsAt p t room' taken' ahead' g rule rule' := by
  intro c hc
  refine (h c hc).mono (fun a c₁ hrepeats hproblems => ?_) fun _ _ => id
  obtain ⟨problems, nextId, htaken', repeats⟩ := hrepeats hproblems
  refine ⟨problems, nextId, fun hc => ?_, fun hc hmore => ?_⟩
  · have := htaken' (by omega)
    omega
  · exact repeats (by omega) (hmore.imp_right (Nat.le_trans hahead))

theorem Retells.mono {room' taken' ahead' : Nat} (h : Retells p room taken ahead g rule rule')
    (hroom : room' ≤ room) (htaken : taken' ≤ taken) (hahead : ahead ≤ ahead') :
    Retells p room' taken' ahead' g rule rule' :=
  fun t => (h t).mono hroom htaken hahead

/-- What is said of any text is said of shorter ones. -/
theorem Retells.less {room' : Nat} (h : Retells p room taken ahead g rule rule')
    (hroom : room' ≤ room) : Retells p room' taken ahead g rule rule' :=
  h.mono hroom (Nat.le_refl _) (Nat.le_refl _)

/-- With no room nothing is said of the second rule. -/
theorem Retells.of_zero {other : Rule β} (h : Retells p 0 taken ahead g rule rule') :
    Retells p 0 taken ahead g rule other := by
  intro t c hc
  refine (h t c hc).mono (fun a c₁ hrepeats hproblems => ?_) fun _ _ => id
  obtain ⟨problems, nextId, -, -⟩ := hrepeats hproblems
  exact ⟨problems, nextId, fun hc => by omega, fun hc => by omega⟩

/-- One rule after the other: the second has to read what the first is short of, and to look at no
fewer tokens. -/
theorem RetellsAt.use {first : Nat} {look : Nat} {next : α → Rule γ} {next' : β → Rule δ}
    (h : RetellsAt p t room first look g rule rule')
    (h' : ∀ a, Retells p (room - first) (max (taken - first) (look - ahead)) ahead k (next a)
      (next' (g a))) :
    RetellsAt p t room taken ahead k (rule >>= next) (rule' >>= next') := by
  intro c hc
  refine Ensures.bind (h c hc) ?_
  intro a c₁ hfirst
  refine (h' a _ c₁ rfl).mono ?_ fun _ _ => id
  intro b c₂ hsecond hproblems
  obtain ⟨problems₁, nextId₁, taken₁, repeats₁⟩ := hsecond hproblems
  obtain ⟨problems, nextId, taken, repeats⟩ := hfirst problems₁
  have hroom₁ : c.rest.length < room → c₁.rest.length < room - first := by
    intro hroom
    have := taken hroom
    omega
  refine ⟨problems, Nat.le_trans nextId nextId₁, fun hroom => ?_, ?_⟩
  · have := taken hroom
    have := taken₁ (hroom₁ hroom)
    omega
  · intro hroom hmore hlimit c' hmoves
    -- What the first part looks ahead at is taken by the second one, or left behind it.
    have hlook : p.more = [] ∨ look ≤ c₁.rest.length := by
      refine hmore.imp_right fun h => ?_
      have := taken₁ (hroom₁ hroom)
      omega
    obtain ⟨c₁', hrun, hmoves₁⟩ := repeats hroom hlook (Nat.le_trans nextId₁ hlimit) c' hmoves
    obtain ⟨c₂', hrun₁, hmoves₂⟩ := repeats₁ (hroom₁ hroom) hmore hlimit c₁' hmoves₁
    refine ⟨c₂', ?_, hmoves₂⟩
    simp only [bind, EStateM.bind, hrun, hrun₁]

theorem Retells.use {first : Nat} {look : Nat} {next : α → Rule γ} {next' : β → Rule δ}
    (h : Retells p room first look g rule rule')
    (h' : ∀ a, Retells p (room - first) (max (taken - first) (look - ahead)) ahead k (next a)
      (next' (g a))) :
    Retells p room taken ahead k (rule >>= next) (rule' >>= next') :=
  fun t => (h t).use h'

theorem retells_pure {a : α} {b : β} (h : g a = b) : Retells p room 0 ahead g (pure a) (pure b) := by
  intro t c _ hproblems
  refine ⟨hproblems, Nat.le_refl _, fun _ => Nat.le_refl _, fun _ _ _ c' hmoves => ?_⟩
  exact ⟨c', by rw [h]; rfl, hmoves⟩

/-- One rule after the other, where the second looks no further than the first. -/
theorem Retells.onward {next : α → Rule γ} {next' : β → Rule δ}
    (h : Retells p room taken ahead g rule rule')
    (h' : ∀ a, Retells p (room - taken) 0 ahead k (next a) (next' (g a))) :
    Retells p room taken ahead k (rule >>= next) (rule' >>= next') :=
  h.use fun a => (h' a).mono (Nat.le_refl _) (by omega) (Nat.le_refl _)

theorem Retells.map {f : α → γ} {f' : β → δ} (h : Retells p room taken ahead g rule rule')
    (hf : ∀ a, f' (g a) = k (f a)) :
    Retells p room taken ahead k (f <$> rule) (f' <$> rule') := by
  rw [map_eq_pure_bind, map_eq_pure_bind]
  refine h.use fun a => (retells_pure (hf a).symm).mono (Nat.le_refl _) ?_ (Nat.le_refl _)
  omega

theorem retells_throw {problem : Problem} :
    RetellsAt p t room taken ahead g (throw problem) rule' :=
  fun _ _ => trivial

theorem retells_failHere {cause : Cause} :
    Retells p room taken ahead g (failHere cause) rule' :=
  fun _ _ _ => trivial

theorem RetellsAt.ite {condition : Prop} [Decidable condition] {other : Rule α} {other' : Rule β}
    (h : condition → RetellsAt p t room taken ahead g rule rule')
    (h' : ¬condition → RetellsAt p t room taken ahead g other other') :
    RetellsAt p t room taken ahead g (if condition then rule else other)
      (if condition then rule' else other') := by
  split
  · next hc => exact h hc
  · next hc => exact h' hc

theorem Retells.ite {condition : Prop} [Decidable condition] {other : Rule α} {other' : Rule β}
    (h : condition → Retells p room taken ahead g rule rule')
    (h' : ¬condition → Retells p room taken ahead g other other') :
    Retells p room taken ahead g (if condition then rule else other)
      (if condition then rule' else other') :=
  fun t => RetellsAt.ite (fun hc => h hc t) fun hc => h' hc t

end

/-! ## Primitive rules -/

section

variable {t : Token} {room taken ahead : Nat} {k : γ → δ}

/-- The token at the cursor is the same but for its line. An end mark may have any line. -/
theorem Retelling.Moves.peek {c c' : Cursor} (h : p.Moves c c')
    (hrest : p.more = [] ∨ c.rest ≠ []) :
    c'.peek = c.peek.relabel p.labels ∨ c.peek = ⟨.eof, c.endLine⟩ ∧ c'.peek = ⟨.eof, c'.endLine⟩ := by
  unfold Cursor.peek
  rw [h.rest]
  cases hlist : c.rest with
  | nil =>
    have hmore : p.more = [] := hrest.resolve_right fun hne => hne hlist
    rw [hmore]
    exact .inr ⟨rfl, rfl⟩
  | cons token rest => exact .inl rfl

/-- A token with which no expression goes on: a semicolon, or the end mark. -/
def AtClose (t : Token) : Prop :=
  t.kind = .eof ∨ t.kind = .symbol .semicolon

/-- Where the text ends and a semicolon comes behind it, the one is met for the other. -/
theorem Retelling.Moves.atClose {c c' : Cursor} (h : p.Moves c c') (hrest : c.rest = [])
    (hmore : p.more = [] ∨ p.look = 0) : AtClose c.peek ∧ AtClose c'.peek := by
  have hend : AtClose c.peek := by
    unfold Cursor.peek
    rw [hrest]
    exact .inl rfl
  refine ⟨hend, ?_⟩
  unfold Cursor.peek
  rw [h.rest, hrest, List.map_nil, List.nil_append]
  cases hmark : p.more with
  | nil => exact .inl rfl
  | cons t more =>
    have hlook : p.look = 0 := hmore.resolve_left (by simp [hmark])
    unfold look at hlook
    split at hlook
    · next hsemicolon =>
      rw [hmark] at hsemicolon
      exact .inr (kind_of_isSymbol hsemicolon)
    · cases hlook

/-- The token at the cursor may be looked at if the same is done at the token in the other place. -/
theorem RetellsAt.peekSame {next : Token → Rule γ} {next' : Token → Rule δ}
    (h : RetellsAt p t room taken ahead k (next t) (next' (t.relabel p.labels)))
    (hsame : ∀ c c', p.Moves c c' → c.peek = t →
      p.more = [] ∨ taken + ahead ≤ c.rest.length → next' c'.peek = next' (t.relabel p.labels)) :
    RetellsAt p t room taken ahead k (Grammar.peek >>= next) (Grammar.peek >>= next') := by
  intro c hc
  refine Ensures.bind (Q := fun a c₁ => a = t ∧ c₁ = c) ⟨hc, rfl⟩ ?_
  rintro a c₁ ⟨rfl, rfl⟩
  refine (h c₁ hc).mono (fun b c₂ hrepeats hproblems => ?_) fun _ _ => id
  obtain ⟨problems, nextId, taken, repeats⟩ := hrepeats hproblems
  refine ⟨problems, nextId, taken, fun hroom hmore hlimit c' hmoves => ?_⟩
  have hpeek : next' c'.peek = next' (a.relabel p.labels) := by
    refine hsame c₁ c' hmoves hc (hmore.imp_right fun hahead => ?_)
    have := taken hroom
    omega
  obtain ⟨c₂', hrun, hmoves₂⟩ := repeats hroom hmore hlimit c' hmoves
  refine ⟨c₂', ?_, hmoves₂⟩
  rw [← hpeek] at hrun
  exact hrun

/-- The token at the cursor may be looked at if the rule reads it or looks as far. What is done at
an end mark must not depend on its line. -/
theorem RetellsAt.peek {next : Token → Rule γ} {next' : Token → Rule δ}
    (h : RetellsAt p t room taken ahead k (next t) (next' (t.relabel p.labels)))
    (hend : ∀ line line', next' ⟨.eof, line⟩ = next' ⟨.eof, line'⟩) (hlook : 1 ≤ taken + ahead) :
    RetellsAt p t room taken ahead k (Grammar.peek >>= next) (Grammar.peek >>= next') := by
  refine h.peekSame fun c c' hmoves hc hmore => ?_
  have hrest : p.more = [] ∨ c.rest ≠ [] := by
    refine hmore.imp_right fun hahead hnil => ?_
    rw [hnil, List.length_nil] at hahead
    omega
  rcases hmoves.peek hrest with hsame | ⟨hold, hnew⟩
  · rw [hsame, hc]
  · rw [hnew, ← hc, hold]
    exact hend _ _

/-- The token behind an expression may be looked at. What is done where an expression ends must not
depend on how it does. -/
theorem RetellsAt.peekEnd {next : Token → Rule γ} {next' : Token → Rule δ}
    (h : RetellsAt p t room taken p.look k (next t) (next' (t.relabel p.labels)))
    (hend : ∀ t t', AtClose t → AtClose t' → next' t = next' t') :
    RetellsAt p t room taken p.look k (Grammar.peek >>= next) (Grammar.peek >>= next') := by
  refine h.peekSame fun c c' hmoves hc hmore => ?_
  by_cases hrest : c.rest = []
  · have hlook : p.more = [] ∨ p.look = 0 := by
      refine hmore.imp_right fun hahead => ?_
      rw [hrest, List.length_nil] at hahead
      omega
    obtain ⟨hold, hnew⟩ := hmoves.atClose hrest hlook
    rw [hc] at hold
    exact hend _ _ hnew hold
  · rcases hmoves.peek (.inr hrest) with hsame | ⟨hold, hnew⟩
    · rw [hsame, hc]
    · rw [hnew, ← hc, hold]
      exact hend _ _ (.inl rfl) (.inl rfl)

theorem Retells.peek {next : Token → Rule γ} {next' : Token → Rule δ}
    (h : ∀ t, RetellsAt p t room taken ahead k (next t) (next' (t.relabel p.labels)))
    (hend : ∀ line line', next' ⟨.eof, line⟩ = next' ⟨.eof, line'⟩) (hlook : 1 ≤ taken + ahead) :
    Retells p room taken ahead k (Grammar.peek >>= next) (Grammar.peek >>= next') :=
  fun t => (h t).peek hend hlook

theorem Retells.peekEnd {next : Token → Rule γ} {next' : Token → Rule δ}
    (h : ∀ t, RetellsAt p t room taken p.look k (next t) (next' (t.relabel p.labels)))
    (hend : ∀ t t', AtClose t → AtClose t' → next' t = next' t') :
    Retells p room taken p.look k (Grammar.peek >>= next) (Grammar.peek >>= next') :=
  fun t => (h t).peekEnd hend

/-- A token that is not the end mark is stepped over. -/
theorem retellsAt_advance (ht : t.kind ≠ .eof) :
    RetellsAt p t room 1 0 id advance advance := by
  intro c hc hproblems
  obtain ⟨token, rest, hrest⟩ : ∃ token rest, c.rest = token :: rest := by
    unfold Cursor.peek at hc
    split at hc
    · next token rest hrest => exact ⟨token, rest, hrest⟩
    · exact absurd (congrArg Token.kind hc.symm) ht
  refine ⟨hproblems, Nat.le_refl _, fun _ => ?_, fun _ _ _ c' hmoves => ?_⟩
  · show c.rest.tail.length + 1 ≤ c.rest.length
    simp [hrest]
  · refine ⟨{ c' with rest := c'.rest.tail }, rfl, ?_⟩
    refine ⟨?_, hmoves.loopDepth, hmoves.nextId, hmoves.problems⟩
    show c'.rest.tail = c.rest.tail.map _ ++ p.more
    rw [hmoves.rest, hrest]
    rfl

/-- After the token at the cursor. -/
theorem RetellsAt.advance {next : Unit → Rule γ} {next' : Unit → Rule δ} (ht : t.kind ≠ .eof)
    (h : Retells p (room - 1) (taken - 1) ahead k (next ()) (next' ())) :
    RetellsAt p t room taken ahead k (Grammar.advance >>= next) (Grammar.advance >>= next') := by
  refine (retellsAt_advance ht).use fun _ => ?_
  rwa [Nat.zero_sub, Nat.max_zero]

theorem retells_loopDepth : Retells p room 0 0 id loopDepth loopDepth :=
  fun _ _ _ hproblems => ⟨hproblems, Nat.le_refl _, fun _ => Nat.le_refl _,
    fun _ _ _ c' hmoves => ⟨c', by rw [← hmoves.loopDepth]; rfl, hmoves⟩⟩

theorem retells_atEnd : Retells p room 0 1 id atEnd atEnd := by
  intro t c _ hproblems
  refine ⟨hproblems, Nat.le_refl _, fun _ => Nat.le_refl _, fun _ hmore _ c' hmoves => ?_⟩
  refine ⟨c', ?_, hmoves⟩
  have hsame : c'.rest.isEmpty = c.rest.isEmpty := by
    rw [hmoves.rest]
    rcases hmore with hmore | hahead
    · simp [hmore]
    · cases hrest : c.rest with
      | nil => simp [hrest] at hahead
      | cons token rest => rfl
  show EStateM.Result.ok c'.rest.isEmpty c' = _
  rw [hsame]
  rfl

theorem retells_freshId : Retells p room 0 0 p.labels.id freshId freshId := by
  intro t c _ hproblems
  refine ⟨hproblems, Nat.le_succ _, fun _ => Nat.le_refl _, fun _ _ hlimit c' hmoves => ?_⟩
  refine ⟨{ c' with nextId := c'.nextId + 1 }, ?_, ?_⟩
  · rw [p.ids c.nextId hlimit, ← hmoves.nextId]
    rfl
  · refine ⟨hmoves.rest, hmoves.loopDepth, ?_, hmoves.problems⟩
    show c'.nextId + 1 = c.nextId + 1 + p.shift
    rw [hmoves.nextId]
    exact Nat.add_right_comm _ _ _

/-- Of a rule that leaves a problem behind nothing is said. -/
theorem retells_of_problem {g : α → β} {rule : Rule α} {rule' : Rule β}
    (h : ∀ c, Ensures rule c (fun _ c₁ => c₁.problems ≠ []) fun _ _ => True) :
    Retells p room taken ahead g rule rule' :=
  fun _ c _ => (h c).mono (fun _ _ hne hproblems => absurd hproblems hne) fun _ _ => id

theorem retells_atSymbol (symbol : Symbol) :
    Retells p room 0 1 id (atSymbol symbol) (atSymbol symbol) :=
  Retells.peek (fun t => retells_pure rfl t) (fun _ _ => rfl) (by decide)

theorem retells_accept (symbol : Symbol) :
    Retells p room 0 1 id (accept symbol) (accept symbol) := by
  unfold accept atSymbol
  simp only [bind_assoc, pure_bind]
  refine Retells.peek (fun t => ?_) (fun _ _ => rfl) (by decide)
  have hsymbol : isSymbol symbol (t.relabel p.labels) = isSymbol symbol t := rfl
  rw [hsymbol]
  refine RetellsAt.ite (fun h => ?_) fun _ => retells_pure rfl t
  exact RetellsAt.advance (by simp [kind_of_isSymbol h]) (retells_pure rfl)

/-- Behind an expression a symbol other than the semicolon may be stepped over. -/
theorem retells_acceptBehind {symbol : Symbol} (h : symbol ≠ .semicolon) :
    Retells p room 0 p.look id (accept symbol) (accept symbol) := by
  unfold accept atSymbol
  simp only [bind_assoc, pure_bind]
  have hnone : ∀ t, AtClose t → isSymbol symbol t = false := by
    rintro t (ht | ht)
    · simp [isSymbol, ht]
    · simpa [isSymbol, ht] using h.symm
  refine Retells.peekEnd (fun t => ?_) fun t t' ht ht' => by rw [hnone t ht, hnone t' ht']
  have hsymbol : isSymbol symbol (t.relabel p.labels) = isSymbol symbol t := rfl
  rw [hsymbol]
  refine RetellsAt.ite (fun h => ?_) fun _ => retells_pure rfl t
  exact RetellsAt.advance (by simp [kind_of_isSymbol h]) (retells_pure rfl)

theorem retells_acceptWord (word : Keyword) :
    Retells p room 0 1 id (acceptWord word) (acceptWord word) := by
  refine Retells.peek (fun t => ?_) (fun _ _ => rfl) (by decide)
  have hword : isWord word (t.relabel p.labels) = isWord word t := rfl
  rw [hword]
  refine RetellsAt.ite (fun h => ?_) fun _ => retells_pure rfl t
  exact RetellsAt.advance (by simp [kind_of_isWord h]) (retells_pure rfl)

theorem retells_expect (landmark : Landmark) :
    Retells p room 1 0 p.labels.line (expect landmark) (expect landmark) := by
  refine Retells.peek (fun t => ?_) (fun _ _ => rfl) (by decide)
  have hsymbol : isSymbol landmark.symbol (t.relabel p.labels) = isSymbol landmark.symbol t := rfl
  rw [hsymbol]
  refine RetellsAt.ite (fun h => ?_) fun _ => retells_failHere t
  exact RetellsAt.advance (by simp [kind_of_isSymbol h]) (retells_pure rfl)

theorem retells_expectName (role : NameRole) :
    Retells p room 1 0 (Name.relabel p.labels) (expectName role) (expectName role) := by
  refine Retells.peek (fun t => ?_) (fun _ _ => rfl) (by decide)
  dsimp only [Token.relabel]
  split
  · next name hkind => exact RetellsAt.advance (by simp [hkind]) (retells_pure rfl)
  · exact retells_failHere t

theorem retells_reference (role : NameRole) :
    Retells p room 1 0 (Reference.relabel p.labels) (reference role) (reference role) :=
  (retells_expectName role).use fun _ => retells_freshId.use fun _ => retells_pure rfl

theorem Retells.withLoopDepth {g : α → β} {rule : Rule α} {rule' : Rule β}
    (h : Retells p room taken ahead g rule rule') (change : Nat → Nat) :
    Retells p room taken ahead g (withLoopDepth change rule) (withLoopDepth change rule') := by
  intro t c _
  have hinner := h _ { c with loopDepth := change c.loopDepth } rfl
  unfold Ensures Grammar.withLoopDepth at *
  cases hrule : rule { c with loopDepth := change c.loopDepth } with
  | error problem c₁ => trivial
  | ok a c₁ =>
    rw [hrule] at hinner
    intro hproblems
    obtain ⟨problems, nextId, taken, repeats⟩ := hinner hproblems
    refine ⟨problems, nextId, taken, fun hroom hmore hlimit c' hmoves => ?_⟩
    obtain ⟨c₁', hrun, hmoves₁⟩ := repeats hroom hmore hlimit
      { c' with loopDepth := change c'.loopDepth }
      ⟨hmoves.rest, congrArg change hmoves.loopDepth, hmoves.nextId, hmoves.problems⟩
    refine ⟨{ c₁' with loopDepth := c'.loopDepth }, by simp only [hrun], ?_⟩
    exact ⟨hmoves₁.rest, hmoves.loopDepth, hmoves₁.nextId, hmoves₁.problems⟩

theorem Retells.recover {g : α → β} {rule : Rule α} {rule' : Rule β}
    (h : Retells p room taken ahead g rule rule') :
    Retells p room taken ahead (Option.map g) (recover rule) (recover rule') := by
  intro t c hc
  have hinner := h t c hc
  unfold Ensures Grammar.recover at *
  cases hrule : rule c with
  | error problem c₁ =>
    intro hproblems
    simp at hproblems
  | ok a c₁ =>
    rw [hrule] at hinner
    intro hproblems
    obtain ⟨problems, nextId, taken, repeats⟩ := hinner hproblems
    refine ⟨problems, nextId, taken, fun hroom hmore hlimit c' hmoves => ?_⟩
    obtain ⟨c₁', hrun, hmoves₁⟩ := repeats hroom hmore hlimit c' hmoves
    exact ⟨c₁', by simp only [hrun, Option.map_some], hmoves₁⟩

/-- An `else` is looked for where the text may end: none comes behind the text. -/
theorem retells_acceptElse :
    Retells p room 0 0 id (acceptWord .elseWord) (acceptWord .elseWord) := by
  intro t
  have hword : isWord .elseWord (t.relabel p.labels) = isWord .elseWord t := rfl
  cases helse : isWord .elseWord t with
  | true =>
    have hread : RetellsAt p t room 1 0 id (acceptWord .elseWord) (acceptWord .elseWord) := by
      refine RetellsAt.peek ?_ (fun _ _ => rfl) (by decide)
      rw [hword, if_pos helse]
      exact RetellsAt.advance (by simp [kind_of_isWord helse]) (retells_pure rfl)
    exact hread.mono (Nat.le_refl _) (by decide) (Nat.le_refl _)
  | false =>
    intro c hc
    have hrun : ∀ c : Cursor, isWord .elseWord c.peek = false →
        acceptWord .elseWord c = .ok false c := by
      intro c hpeek
      simp only [acceptWord, bind, EStateM.bind, Grammar.peek, hpeek]
      rfl
    unfold Ensures
    rw [hrun c (by rw [hc, helse])]
    intro hproblems
    refine ⟨hproblems, Nat.le_refl _, fun _ => Nat.le_refl _, fun _ _ _ c' hmoves => ?_⟩
    refine ⟨c', hrun c' ?_, hmoves⟩
    -- Only at the end of the text does the other reader see what has been put behind it.
    by_cases hrest : p.more = [] ∨ c.rest ≠ []
    · rcases hmoves.peek hrest with hsame | ⟨-, hnew⟩
      · rw [hsame, hc, hword, helse]
      · rw [hnew]
        rfl
    · simp only [not_or, ne_eq, Decidable.not_not] at hrest
      obtain ⟨token, more, hmore⟩ := List.exists_cons_of_ne_nil hrest.1
      have hpeek : c'.peek = token := by
        unfold Cursor.peek
        rw [hmoves.rest, hrest.2, hmore]
        rfl
      rw [hpeek]
      exact p.stops token (by rw [hmore]; rfl)

theorem retells_checkArity (cause : Cause) (count : Nat) :
    Retells p room 0 0 id (checkArity cause count) (checkArity cause count) := by
  unfold checkArity
  split
  · exact retells_of_problem fun c => by
      show c.problems ++ [⟨c.peek, cause⟩] ≠ []
      simp
  · exact retells_pure rfl

end

/-! ## Repetition -/

section

variable {room taken ahead : Nat} {k : α → β}

/-- The second of two rules with a bound may be taken to have one above zero. -/
theorem Retells.bounded {rule : Rule α} (rule' : Nat → Rule β) {bound : Nat}
    (hbound : room ≤ bound)
    (h : ∀ bound, room ≤ bound + 1 → Retells p room taken ahead k rule (rule' (bound + 1))) :
    Retells p room taken ahead k rule (rule' bound) := by
  cases bound with
  | zero =>
    obtain rfl : room = 0 := Nat.le_zero.mp hbound
    exact (h 0 (Nat.zero_le _)).of_zero
  | succ bound => exact h bound hbound

theorem retells_commaSeparated {item : Nat → Rule α} {item' : Nat → Rule β}
    (h : ∀ count, Retells p room 1 1 k (item count) (item' count)) {bound bound' : Nat}
    (hbound : room ≤ bound) (hbound' : room ≤ bound') (count : Nat) :
    Retells p room 1 1 (List.map k) (commaSeparated item bound count)
      (commaSeparated item' bound' count) := by
  induction bound generalizing bound' room count with
  | zero => exact retells_failHere
  | succ bound ih =>
    refine Retells.bounded (fun bound' => commaSeparated item' bound' count) hbound'
      fun bound' hbound' => ?_
    unfold commaSeparated
    refine (h count).use fun a => (retells_accept .comma).use fun found => ?_
    cases found with
    | false => exact retells_pure rfl
    | true =>
      have hrest : Retells p (room - 1) 1 1 (List.map k) (commaSeparated item bound (count + 1))
          (commaSeparated item' bound' (count + 1)) :=
        ih (fun count => (h count).less (Nat.sub_le room 1))
          (by omega) (by omega) (count + 1)
      exact hrest.use fun as => retells_pure rfl

theorem retells_leftNested {ω : Type} {operator? : Token → Option ω} {operand operand' : Rule Expr}
    {build : Expr → ω → Nat → Expr → Expr}
    (hoperator : ∀ t, operator? (t.relabel p.labels) = operator? t)
    (hkind : ∀ t, AtClose t → operator? t = none)
    (hbuild : ∀ left op line right, (build left op line right).relabel p.labels =
      build (left.relabel p.labels) op (p.labels.line line) (right.relabel p.labels))
    (h : Retells p (room - 1) 1 p.look (Expr.relabel p.labels) operand operand')
    {bound bound' : Nat} (hbound : room ≤ bound) (hbound' : room ≤ bound') (e : Expr) :
    Retells p room 0 p.look (Expr.relabel p.labels) (leftNested operator? operand build bound e)
      (leftNested operator? operand' build bound' (e.relabel p.labels)) := by
  induction bound generalizing bound' room e with
  | zero =>
    obtain rfl : room = 0 := Nat.le_zero.mp hbound
    exact (retells_pure (g := Expr.relabel p.labels) rfl).of_zero
  | succ bound ih =>
    refine Retells.bounded (fun bound' => leftNested operator? operand' build bound'
      (e.relabel p.labels)) hbound' fun bound' hbound' => ?_
    unfold leftNested
    refine Retells.peekEnd (fun t => ?_) fun t t' ht ht' => by simp only [hkind t ht, hkind t' ht']
    rw [hoperator]
    cases hop : operator? t with
    | none => exact retells_pure rfl t
    | some op =>
      have ht : t.kind ≠ .eof := fun ht => by simp [hkind t (.inl ht)] at hop
      have hrest : ∀ left : Expr, Retells p (room - 1 - 1) 0 p.look (Expr.relabel p.labels)
          (leftNested operator? operand build bound left)
          (leftNested operator? operand' build bound' (left.relabel p.labels)) := fun left =>
        ih (h.less (by omega)) (by omega) (by omega) left
      have hboth : Retells p (room - 1) 1 p.look (Expr.relabel p.labels)
          (operand >>= fun right => leftNested operator? operand build bound
            (build e op t.line right))
          (operand' >>= fun right => leftNested operator? operand' build bound'
            (build (e.relabel p.labels) op (t.relabel p.labels).line right)) := by
        refine h.onward fun right => ?_
        have hright := hrest (build e op t.line right)
        rwa [hbuild] at hright
      exact RetellsAt.advance ht (hboth.mono (Nat.le_refl _) (by omega) (Nat.le_refl _))

theorem retells_untilBrace {item : Rule α} {item' : Rule β}
    (h : Retells p room 1 1 k item item') {bound bound' : Nat}
    (hbound : room ≤ bound) (hbound' : room ≤ bound') :
    Retells p room 0 1 (List.map k) (untilBrace item bound) (untilBrace item' bound') := by
  induction bound generalizing bound' room with
  | zero =>
    obtain rfl : room = 0 := Nat.le_zero.mp hbound
    exact (retells_pure (g := List.map k) rfl).of_zero
  | succ bound ih =>
    refine Retells.bounded (fun bound' => untilBrace item' bound') hbound'
      fun bound' hbound' => ?_
    unfold untilBrace
    refine (retells_atSymbol .rightBrace).use fun brace => retells_atEnd.use fun ended => ?_
    refine Retells.ite (fun _ => retells_pure rfl) fun _ => ?_
    have hrest : Retells p (room - 1) 0 1 (List.map k) (untilBrace item bound)
        (untilBrace item' bound') :=
      ih (h.less (Nat.sub_le room 1)) (by omega) (by omega)
    exact h.use fun a => hrest.use fun as => retells_pure rfl

end

/-! ## Functions -/

/-- What is found for a category, with the labels of the other place. -/
def Category.relabel (ρ : Relabelling) : (category : Category) → category.Found → category.Found
  | .expression => Expr.relabel ρ
  | .assignment => Expr.relabel ρ
  | .conditional => Expr.relabel ρ
  | .unary => Expr.relabel ρ
  | .statement => Stmt.relabel ρ
  | .declaration => Option.map (Stmt.relabel ρ)

/-- How many tokens a category has at least. -/
def Category.least : Category → Nat
  | .statement => 2
  | .declaration => 2
  | _ => 1

/-- How many tokens behind a category are looked at. A statement is looked behind only for an
`else`. -/
def Category.look (p : Retelling) : Category → Nat
  | .statement => 0
  | .declaration => 0
  | _ => p.look

/-- Rules of which the second ones read in the other place what the first ones read, if there are
fewer tokens than `room` behind the one that has been read in between. -/
structure Rules.Retell (p : Retelling) (room : Nat) (inner inner' : Rules) : Prop where
  bound : room < inner.bound
  bound' : room < inner'.bound
  read (category : Category) : Retells p room category.least (category.look p)
    (category.relabel p.labels) (inner.read category) (inner'.read category)

section

variable {room : Nat} {inner inner' : Rules}

theorem Rules.Retell.expression (h : inner.Retell p room inner') :
    Retells p room 1 1 (Expr.relabel p.labels) (inner.read .expression)
      (inner'.read .expression) :=
  (h.read .expression).mono (Nat.le_refl _) (Nat.le_refl _) p.look_le_one

theorem retells_parameter (count : Nat) :
    Retells p room 1 0 (Name.relabel p.labels) (parameter count) (parameter count) :=
  (retells_checkArity _ _).use fun _ => retells_expectName _

theorem flatMap_relabel (body : List (Option Stmt)) :
    (body.map (Option.map (Stmt.relabel p.labels))).flatMap Option.toList =
      relabelBody p.labels (body.flatMap Option.toList) := by
  induction body with
  | nil => simp [relabelBody]
  | cons st rest ih => cases st <;> simp [ih, relabelBody]

theorem retells_block (h : inner.Retell p room inner') :
    Retells p room 1 0 (relabelBody p.labels) (block inner) (block inner') := by
  have hitem : Retells p room 1 1 (Option.map (Stmt.relabel p.labels))
      (inner.read .declaration) (inner'.read .declaration) :=
    (h.read .declaration).mono (Nat.le_refl _) (by decide) (Nat.zero_le _)
  refine (retells_untilBrace hitem (Nat.le_of_lt h.bound) (Nat.le_of_lt h.bound')).use
    fun body => (retells_expect .blockClose).use fun _ => retells_pure ?_
  exact (flatMap_relabel body).symm

theorem retells_function (h : inner.Retell p room inner') (callable : Callable) :
    Retells p room 1 0 (Function.relabel p.labels) (function inner callable)
      (function inner' callable) := by
  have hrest : ∀ (params : List Name) (left : Nat), left ≤ room →
      Retells p left 1 0 (Function.relabel p.labels) (do
          let _ ← expect .parametersClose
          let _ ← expect (.bodyOpen callable)
          let body ← withLoopDepth (fun _ => 0) (block inner)
          return Function.mk params body)
        (do
          let _ ← expect .parametersClose
          let _ ← expect (.bodyOpen callable)
          let body ← withLoopDepth (fun _ => 0) (block inner')
          return Function.mk (params.map (Name.relabel p.labels)) body) := by
    intro params left hleft
    refine (retells_expect .parametersClose).use fun _ => ?_
    refine (retells_expect (.bodyOpen callable)).use fun _ => ?_
    have hbody : Retells p (left - 1 - 1) 1 0 (relabelBody p.labels) (block inner)
        (block inner') := (retells_block h).less (by omega)
    refine (hbody.withLoopDepth fun _ => 0).use fun body => retells_pure ?_
    simp only [Function.relabel]
  refine (retells_expect (.parametersOpen callable)).use fun _ => ?_
  refine (retells_atSymbol .rightParen).use fun found => Retells.ite (fun _ => ?_) fun _ => ?_
  · exact hrest [] (room - 1) (Nat.sub_le room 1)
  · have hparams : Retells p (room - 1) 1 1 (List.map (Name.relabel p.labels))
        (commaSeparated parameter inner.bound 0) (commaSeparated parameter inner'.bound 0) :=
      retells_commaSeparated (fun count => (retells_parameter count).mono (Nat.le_refl _)
        (Nat.le_refl _) (by decide)) (by have := h.bound; omega) (by have := h.bound'; omega) 0
    exact hparams.use fun params => hrest params (room - 1 - 1) (by omega)

theorem retells_namedFunction (h : inner.Retell p room inner') (callable : Callable) :
    Retells p room 2 0 (NamedFunction.relabel p.labels) (namedFunction inner callable)
      (namedFunction inner' callable) := by
  refine (retells_expectName _).use fun name => ?_
  have hfunction : Retells p (room - 1) 1 0 (Function.relabel p.labels) (function inner callable)
      (function inner' callable) :=
    (retells_function h callable).less (Nat.sub_le room 1)
  refine hfunction.use fun f => retells_pure ?_
  simp only [NamedFunction.relabel]

end

/-! ## Expressions -/

section

variable {room : Nat} {inner inner' : Rules}

theorem retells_primary (h : inner.Retell p room inner') :
    Retells p (room + 1) 1 0 (Expr.relabel p.labels) (primary inner) (primary inner') := by
  refine Retells.peek (fun t => ?_) (fun _ _ => rfl) (by decide)
  dsimp only [Token.relabel]
  have hliteral : ∀ (l : Literal), t.kind ≠ .eof →
      RetellsAt p t (room + 1) 1 0 (Expr.relabel p.labels) (do
          advance
          return Expr.literal l) (do
          advance
          return Expr.literal l) := by
    intro l ht
    refine RetellsAt.advance ht (retells_pure ?_)
    simp only [Expr.relabel]
  split
  · next hkind =>
    refine RetellsAt.advance (by simp [hkind]) ((retells_function h .function).use fun f => retells_pure ?_)
    simp only [Expr.relabel]
  · next hkind => exact hliteral _ (by simp [hkind])
  · next hkind => exact hliteral _ (by simp [hkind])
  · next hkind => exact hliteral _ (by simp [hkind])
  · next hkind => exact hliteral _ (by simp [hkind])
  · next hkind => exact hliteral _ (by simp [hkind])
  · next hkind =>
    refine RetellsAt.advance (by simp [hkind]) (retells_freshId.use fun id => retells_pure ?_)
    simp only [Expr.relabel]
  · next hkind =>
    refine RetellsAt.advance (by simp [hkind]) ?_
    refine (retells_expect _).use fun _ => (retells_expectName _).use fun name => ?_
    refine retells_freshId.use fun id => retells_pure ?_
    simp only [Expr.relabel]
  · next hkind =>
    refine RetellsAt.advance (by simp [hkind]) (retells_freshId.use fun id => retells_pure ?_)
    simp only [Expr.relabel, Reference.relabel, Name.relabel]
  · next hkind =>
    refine RetellsAt.advance (by simp [hkind]) (h.expression.use fun e => ?_)
    refine (retells_expect _).use fun _ => retells_pure ?_
    simp only [Expr.relabel]
  · exact retells_failHere t

theorem retells_argument (h : inner.Retell p room inner') (count : Nat) :
    Retells p room 1 1 (Expr.relabel p.labels) (argument inner count) (argument inner' count) :=
  (retells_checkArity _ _).use fun _ =>
    (h.read .assignment).mono (Nat.le_refl _) (Nat.le_refl _) p.look_le_one

theorem retells_arguments (h : inner.Retell p room inner') :
    Retells p room 1 0 (Prod.map (relabelArguments p.labels) p.labels.line) (arguments inner)
      (arguments inner') := by
  have hclose : ∀ (args : List Expr) (left : Nat),
      Retells p left 1 0 (Prod.map (relabelArguments p.labels) p.labels.line) (do
          let line ← expect .argumentsClose
          return (args, line))
        (do
          let line ← expect .argumentsClose
          return (relabelArguments p.labels args, line)) :=
    fun args left => (retells_expect _).use fun line => retells_pure rfl
  refine (retells_atSymbol .rightParen).use fun found => Retells.ite (fun _ => ?_) fun _ => ?_
  · exact hclose [] room
  · have hargs : Retells p room 1 1 (List.map (Expr.relabel p.labels))
        (commaSeparated (argument inner) inner.bound 0)
        (commaSeparated (argument inner') inner'.bound 0) :=
      retells_commaSeparated (retells_argument h) (Nat.le_of_lt h.bound)
        (Nat.le_of_lt h.bound') 0
    refine hargs.use fun args => ?_
    rw [← relabelArguments_eq_map]
    exact hclose args (room - 1)

theorem retells_suffixes (h : inner.Retell p room inner') {left bound bound' : Nat}
    (hleft : left ≤ room + 1) (hbound : left ≤ bound) (hbound' : left ≤ bound') (e : Expr) :
    Retells p left 0 p.look (Expr.relabel p.labels) (suffixes inner bound e)
      (suffixes inner' bound' (e.relabel p.labels)) := by
  induction bound generalizing bound' left e with
  | zero =>
    obtain rfl : left = 0 := Nat.le_zero.mp hbound
    exact (retells_pure (g := Expr.relabel p.labels) rfl).of_zero
  | succ bound ih =>
    refine Retells.bounded (fun bound' => suffixes inner' bound' (e.relabel p.labels))
      hbound' fun bound' hbound' => ?_
    unfold suffixes
    refine Retells.peekEnd (fun t => ?_) ?_
    · dsimp only [Token.relabel]
      have hrest : ∀ (e e' : Expr) (less : Nat), less + 2 ≤ left ∨ less = left - 2 →
          e.relabel p.labels = e' → Retells p less 0 p.look (Expr.relabel p.labels)
            (suffixes inner bound e) (suffixes inner' bound' e') := by
        rintro e _ less hless rfl
        exact ih (by omega) (by omega) (by omega) e
      split
      · next hkind =>
        refine RetellsAt.advance (by simp [hkind]) ?_
        have hargs : Retells p (left - 1) 1 0 (Prod.map (relabelArguments p.labels) p.labels.line)
            (arguments inner) (arguments inner') :=
          (retells_arguments h).less (by omega)
        refine hargs.use fun found => (hrest _ _ (left - 1 - 1) (by omega) ?_).mono
          (Nat.le_refl _) (by omega) (Nat.le_refl _)
        simp only [Expr.relabel, Prod.map]
      · next hkind =>
        refine RetellsAt.advance (by simp [hkind]) ?_
        refine (retells_expectName _).use fun name => (hrest _ _ (left - 1 - 1) (by omega) ?_).mono
          (Nat.le_refl _) (by omega) (Nat.le_refl _)
        simp only [Expr.relabel]
      · exact retells_pure rfl t
    · rintro t t' (ht | ht) (ht' | ht') <;> rw [ht, ht']

theorem retells_call (h : inner.Retell p room inner') :
    Retells p (room + 1) 1 p.look (Expr.relabel p.labels) (call inner) (call inner') := by
  have := h.bound
  have := h.bound'
  refine ((retells_primary h).mono (Nat.le_refl _) (Nat.le_refl _) (Nat.zero_le _)).onward
    fun e => ?_
  exact retells_suffixes h (by omega) (by omega) (by omega) e

theorem retells_unary (h : inner.Retell p room inner') :
    Retells p (room + 1) 1 p.look (Expr.relabel p.labels) (unary inner) (unary inner') := by
  have hnone : ∀ t, AtClose t → unaryOp? t = none := by
    rintro t (ht | ht) <;> simp [unaryOp?, ht]
  refine Retells.peekEnd (fun t => ?_) fun t t' ht ht' => by simp only [hnone t ht, hnone t' ht']
  have hop : unaryOp? (t.relabel p.labels) = unaryOp? t := rfl
  rw [hop]
  cases hfound : unaryOp? t with
  | none => exact retells_call h t
  | some op =>
    have ht : t.kind ≠ .eof := fun ht => by simp [hnone t (.inl ht)] at hfound
    have hrest : Retells p room 1 p.look (Expr.relabel p.labels)
        (inner.read .unary >>= fun e => pure (.unary op t.line e))
        (inner'.read .unary >>= fun e => pure (.unary op (t.relabel p.labels).line e)) := by
      refine Retells.onward (h.read .unary) fun e => retells_pure ?_
      simp only [Expr.relabel, Token.relabel, Category.relabel]
    exact RetellsAt.advance ht (hrest.mono (Nat.le_refl _) (by decide) (Nat.le_refl _))

theorem retells_binary (level : Level) {bound bound' : Nat} {operand operand' : Rule Expr}
    (h : Retells p room 1 p.look (Expr.relabel p.labels) operand operand')
    (hbound : room ≤ bound) (hbound' : room ≤ bound') :
    Retells p room 1 p.look (Expr.relabel p.labels) (binary level bound operand)
      (binary level bound' operand') := by
  have hnone : ∀ t, AtClose t → level.operator? t = none := by
    rintro t (ht | ht) <;> simp [Level.operator?, ht]
  refine Retells.peekEnd (fun t => ?_) fun t t' ht ht' => by
    simp only [hnone t ht, hnone t' ht', Option.any_none, Bool.false_eq_true, if_false]
  have hop : level.operator? (t.relabel p.labels) = level.operator? t := rfl
  rw [hop]
  refine RetellsAt.ite (fun _ => ?_) fun _ => ?_
  · refine retells_of_problem (fun c => ?_) t
    refine ensures_last (fun _ c => ?_) c
    refine ensures_last (fun _ c => ?_) c
    exact trivial
  · refine h.onward (fun left => ?_) t
    refine retells_leftNested (fun _ => rfl) hnone (fun _ _ _ _ => ?_) (h.less (by omega))
      (by omega) (by omega) left
    simp only [Expr.relabel]

theorem retells_logical (op : LogicalOp) {bound bound' : Nat} {operand operand' : Rule Expr}
    (h : Retells p room 1 p.look (Expr.relabel p.labels) operand operand')
    (hbound : room ≤ bound) (hbound' : room ≤ bound') :
    Retells p room 1 p.look (Expr.relabel p.labels) (logical op bound operand)
      (logical op bound' operand') := by
  have hnone : ∀ t, AtClose t → logicalOp? op t = none := by
    rintro t (ht | ht) <;> simp [logicalOp?, isWord, ht]
  refine h.onward fun left => ?_
  refine retells_leftNested (fun _ => rfl) hnone (fun _ _ _ _ => ?_) (h.less (by omega))
    (by omega) (by omega) left
  simp only [Expr.relabel]

theorem retells_either (h : inner.Retell p room inner') :
    Retells p (room + 1) 1 p.look (Expr.relabel p.labels) (either inner) (either inner') := by
  have hfactor := retells_binary .factor (retells_unary h) h.bound h.bound'
  have hterm := retells_binary .term hfactor h.bound h.bound'
  have hcomparison := retells_binary .comparison hterm h.bound h.bound'
  have hequality := retells_binary .equality hcomparison h.bound h.bound'
  have hboth := retells_logical .both hequality h.bound h.bound'
  exact retells_logical .either hboth h.bound h.bound'

theorem retells_conditional (h : inner.Retell p room inner') :
    Retells p (room + 1) 1 p.look (Expr.relabel p.labels) (conditional inner)
      (conditional inner') := by
  refine (retells_either h).onward fun condition => ?_
  refine (retells_acceptBehind (by decide)).onward fun found => ?_
  refine Retells.ite (fun _ => ?_) fun _ => retells_pure rfl
  have helse : Retells p (room - 1 - 1) 1 p.look (Expr.relabel p.labels)
      (inner.read .conditional) (inner'.read .conditional) :=
    (h.read .conditional).less (by omega)
  refine h.expression.use fun thenBranch => ?_
  have hmiddle : Retells p (room - 1) 1 p.look p.labels.line (expect .conditionalMiddle)
      (expect .conditionalMiddle) :=
    (retells_expect _).mono (Nat.le_refl _) (Nat.le_refl _) (Nat.zero_le _)
  refine (hmiddle.onward fun _ => ?_).mono (Nat.le_refl _) (by omega) (Nat.le_refl _)
  have hrest : Retells p (room - 1 - 1) 1 p.look (Expr.relabel p.labels)
      ((Expr.conditional condition thenBranch ·) <$> inner.read .conditional)
      ((Expr.conditional (condition.relabel p.labels) (thenBranch.relabel p.labels) ·) <$>
        inner'.read .conditional) :=
    helse.map fun _ => by simp only [Expr.relabel]
  simp only [map_eq_pure_bind] at hrest
  exact hrest.mono (Nat.le_refl _) (by decide) (Nat.le_refl _)

theorem retells_assignTo {room : Nat} (target value : Expr) (equals equals' : Token) :
    Retells p room 0 0 (Expr.relabel p.labels) (assignTo target equals value)
      (assignTo (target.relabel p.labels) equals' (value.relabel p.labels)) := by
  cases target with
  | «variable» ref =>
    simp only [Expr.relabel]
    refine retells_freshId.use fun id => retells_pure ?_
    simp only [Expr.relabel, Reference.relabel]
  | get object name =>
    simp only [Expr.relabel]
    refine retells_pure ?_
    simp only [Expr.relabel]
  | _ =>
    exact retells_of_problem fun c => by
      show c.problems ++ [⟨equals, .invalidTarget⟩] ≠ []
      simp

theorem retells_assignment (h : inner.Retell p room inner') :
    Retells p (room + 1) 1 p.look (Expr.relabel p.labels) (assignment inner)
      (assignment inner') := by
  have hnone : ∀ t, AtClose t → isSymbol .equal t = false := by
    rintro t (ht | ht) <;> simp [isSymbol, ht]
  refine (retells_conditional h).onward fun target => ?_
  refine Retells.peekEnd (fun t => ?_) fun t t' ht ht' => by
    simp only [hnone t ht, hnone t' ht', Bool.false_eq_true, if_false]
  have hequal : isSymbol .equal (t.relabel p.labels) = isSymbol .equal t := rfl
  rw [hequal]
  refine RetellsAt.ite (fun hfound => ?_) fun _ => retells_pure rfl t
  have hrest : Retells p room 1 p.look (Expr.relabel p.labels)
      (inner.read .assignment >>= fun value => assignTo target t value)
      (inner'.read .assignment >>= fun value =>
        assignTo (target.relabel p.labels) (t.relabel p.labels) value) :=
    Retells.onward (h.read .assignment) fun value =>
      (retells_assignTo target value t _).mono (Nat.le_refl _) (Nat.le_refl _) (Nat.zero_le _)
  exact RetellsAt.advance (by simp [kind_of_isSymbol hfound])
    (hrest.mono (by omega) (by omega) (Nat.le_refl _))

theorem retells_expression (h : inner.Retell p room inner') :
    Retells p (room + 1) 1 p.look (Expr.relabel p.labels) (expression inner)
      (expression inner') := by
  have hbound := h.bound
  have hbound' := h.bound'
  have hnone : ∀ t, AtClose t → comma? t = none := by
    rintro t (ht | ht) <;> simp [comma?, isSymbol, ht]
  refine (retells_assignment h).onward fun left => ?_
  refine retells_leftNested (fun _ => rfl) hnone (fun _ _ _ _ => ?_)
    ((retells_assignment h).less (by omega)) (by omega) (by omega) left
  simp only [Expr.relabel]

end

/-! ## Statements -/

section

variable {room : Nat} {inner inner' : Rules}

theorem retells_optionalBefore (symbol : Symbol) {rule rule' : Rule Expr}
    (h : Retells p room 1 1 (Expr.relabel p.labels) rule rule') :
    Retells p room 0 1 (Option.map (Expr.relabel p.labels)) (optionalBefore symbol rule)
      (optionalBefore symbol rule') :=
  (retells_atSymbol symbol).use fun _ => Retells.ite (fun _ => retells_pure rfl) fun _ =>
    h.use fun _ => retells_pure rfl

theorem retells_varDecl (h : inner.Retell p room inner') :
    Retells p room 2 0 (Stmt.relabel p.labels) (varDecl inner) (varDecl inner') := by
  have hrest : ∀ (name : Name) (initial : Option Expr) (left : Nat),
      Retells p left 1 0 (Stmt.relabel p.labels) (do
          let _ ← expect .declarationEnd
          return Stmt.varDecl name initial)
        (do
          let _ ← expect .declarationEnd
          return Stmt.varDecl (name.relabel p.labels)
            (initial.map (Expr.relabel p.labels))) := by
    intro name initial left
    refine (retells_expect _).use fun _ => retells_pure ?_
    cases initial <;> simp only [Stmt.relabel, Option.map_some, Option.map_none]
  refine (retells_expectName _).use fun name => (retells_accept _).use fun found => ?_
  refine Retells.ite (fun _ => ?_) fun _ => hrest name none _
  have hinitial : Retells p (room - 1) 1 1 (Option.map (Expr.relabel p.labels))
      (some <$> inner.read .expression) (some <$> inner'.read .expression) :=
    (h.expression.less (Nat.sub_le room 1)).map
      fun _ => rfl
  exact hinitial.use fun initial => hrest name initial _

theorem retells_expressionStatement {rule rule' : Rule Expr}
    (h : Retells p room 1 1 (Expr.relabel p.labels) rule rule') :
    Retells p room 2 0 (Stmt.relabel p.labels) (expressionStatement rule)
      (expressionStatement rule') := by
  refine h.use fun e => (retells_expect _).use fun _ => retells_pure ?_
  simp only [Stmt.relabel]

theorem retells_breakLoop (word : Token) :
    Retells p room 1 0 (Stmt.relabel p.labels) (breakLoop word)
      (breakLoop (word.relabel p.labels)) := by
  refine retells_loopDepth.use fun depth => Retells.ite (fun _ _ => retells_throw) fun _ => ?_
  refine (retells_expect _).use fun _ => retells_pure ?_
  simp only [Stmt.relabel, Token.relabel]

theorem retells_forInitial (h : inner.Retell p room inner') :
    Retells p room 0 1 (Option.map (Stmt.relabel p.labels)) (forInitial inner)
      (forInitial inner') := by
  refine (retells_accept _).use fun _ => Retells.ite (fun _ => retells_pure rfl) fun _ => ?_
  refine (retells_acceptWord _).use fun _ => Retells.ite (fun _ => ?_) fun _ => ?_
  · exact (retells_varDecl h).use fun st =>
      (retells_pure rfl).mono (Nat.le_refl _) (by decide) (Nat.le_refl _)
  · exact (retells_expressionStatement h.expression).use fun st => retells_pure rfl

theorem loopRound_relabel (ρ : Relabelling) (increment : Option Expr) (body : Stmt) :
    (loopRound increment body).relabel ρ =
      loopRound (increment.map (Expr.relabel ρ)) (body.relabel ρ) := by
  cases increment with
  | none => rfl
  | some e => simp only [loopRound, Option.map_some, Stmt.relabel, relabelBody]

theorem forLoop_relabel (ρ : Relabelling) (initial : Option Stmt)
    (condition increment : Option Expr) (body : Stmt) :
    (forLoop initial condition increment body).relabel ρ =
      forLoop (initial.map (Stmt.relabel ρ)) (condition.map (Expr.relabel ρ))
        (increment.map (Expr.relabel ρ)) (body.relabel ρ) := by
  have hcondition : (condition.getD (.literal (.bool true))).relabel ρ =
      (condition.map (Expr.relabel ρ)).getD (.literal (.bool true)) := by
    cases condition <;> simp [Expr.relabel]
  cases initial with
  | none => simp only [forLoop, Option.map_none, Stmt.relabel, hcondition, loopRound_relabel]
  | some st =>
    simp only [forLoop, Option.map_some, Stmt.relabel, relabelBody, hcondition,
      loopRound_relabel]

theorem retells_forStatement (h : inner.Retell p room inner') :
    Retells p room 1 0 (Stmt.relabel p.labels) (forStatement inner) (forStatement inner') := by
  have hpart (symbol : Symbol) := retells_optionalBefore symbol h.expression
  refine (retells_expect _).use fun _ => ?_
  refine ((retells_forInitial h).less (by omega)).use fun initial => ?_
  refine ((hpart _).less (by omega)).use fun condition => (retells_expect _).use fun _ => ?_
  refine ((hpart _).less (by omega)).use fun increment => (retells_expect _).use fun _ => ?_
  refine (((h.read .statement).less (by omega)).withLoopDepth (· + 1)).use fun body => ?_
  exact retells_pure (forLoop_relabel _ _ _ _ _)

theorem retells_ifStatement (h : inner.Retell p room inner') :
    Retells p room 1 0 (Stmt.relabel p.labels) (ifStatement inner) (ifStatement inner') := by
  refine (retells_expect _).use fun _ => (h.expression.less (by omega)).use
    fun condition => (retells_expect _).use fun _ => ?_
  refine ((h.read .statement).less (by omega)).use fun thenBranch => ?_
  refine retells_acceptElse.use fun _ => Retells.ite (fun _ => ?_) fun _ => ?_
  · have hother : ∀ left ≤ room, Retells p left 2 0 (Option.map (Stmt.relabel p.labels))
        (some <$> inner.read .statement) (some <$> inner'.read .statement) :=
      fun left hleft => ((h.read .statement).less hleft).map fun _ => rfl
    refine (hother _ (by omega)).use fun elseBranch => retells_pure ?_
    cases elseBranch <;> simp only [Stmt.relabel, Option.map_some, Option.map_none,
      Category.relabel]
  · refine retells_pure ?_
    simp only [Stmt.relabel, Category.relabel]

theorem retells_whileStatement (h : inner.Retell p room inner') :
    Retells p room 1 0 (Stmt.relabel p.labels) (whileStatement inner) (whileStatement inner') := by
  refine (retells_expect _).use fun _ => (h.expression.less (by omega)).use
    fun condition => (retells_expect _).use fun _ => ?_
  refine (((h.read .statement).less (by omega)).withLoopDepth (· + 1)).use fun body => ?_
  refine retells_pure ?_
  simp only [Stmt.relabel, Category.relabel]

theorem retells_returnStatement (h : inner.Retell p room inner') (line : Nat) :
    Retells p room 1 0 (Stmt.relabel p.labels) (returnStatement inner line)
      (returnStatement inner' (p.labels.line line)) := by
  refine (retells_optionalBefore _ h.expression).use fun value => ?_
  refine (retells_expect _).use fun _ => retells_pure ?_
  cases value <;> simp only [Stmt.relabel, Option.map_some, Option.map_none]

theorem retells_printStatement (h : inner.Retell p room inner') :
    Retells p room 1 0 (Stmt.relabel p.labels) (printStatement inner)
      (printStatement inner') := by
  refine h.expression.use fun e => (retells_expect _).use fun _ => retells_pure ?_
  simp only [Stmt.relabel]

theorem retells_statement (h : inner.Retell p room inner') :
    Retells p (room + 1) 2 0 (Stmt.relabel p.labels) (statement inner) (statement inner') := by
  refine Retells.peek (fun t => ?_) (fun _ _ => rfl) (by decide)
  dsimp only [Token.relabel]
  split
  · next hkind => exact RetellsAt.advance (by simp [hkind]) (retells_breakLoop t)
  · next hkind => exact RetellsAt.advance (by simp [hkind]) (retells_forStatement h)
  · next hkind => exact RetellsAt.advance (by simp [hkind]) (retells_ifStatement h)
  · next hkind => exact RetellsAt.advance (by simp [hkind]) (retells_whileStatement h)
  · next hkind => exact RetellsAt.advance (by simp [hkind]) (retells_returnStatement h t.line)
  · next hkind =>
    refine RetellsAt.advance (by simp [hkind]) ((retells_block h).use fun body => retells_pure ?_)
    simp only [Stmt.relabel]
  · next hkind => exact RetellsAt.advance (by simp [hkind]) (retells_printStatement h)
  · exact retells_expressionStatement
      ((retells_expression h).mono (Nat.le_refl _) (Nat.le_refl _) p.look_le_one) t

end

/-! ## Declarations -/

section

variable {room : Nat} {inner inner' : Rules}

theorem retells_withClause {bound bound' : Nat} (hbound : room ≤ bound) (hbound' : room ≤ bound') :
    Retells p room 0 1 (List.map (Reference.relabel p.labels)) (withClause bound)
      (withClause bound') := by
  refine (retells_acceptWord _).use fun _ => Retells.ite (fun _ => ?_) fun _ => retells_pure rfl
  refine (retells_commaSeparated (fun _ => ?_) hbound hbound' 0).mono (Nat.le_refl _) (by decide)
    (Nat.le_refl _)
  exact (retells_reference .ofTrait).mono (Nat.le_refl _) (Nat.le_refl _) (by decide)

theorem retells_classMember (h : inner.Retell p room inner') :
    Retells p room 2 0 (Prod.map id (NamedFunction.relabel p.labels)) (classMember inner)
      (classMember inner') :=
  (retells_acceptWord _).use fun _ => (retells_namedFunction h .method).use fun _ =>
    retells_pure rfl

theorem partition_relabel (members : List (Bool × NamedFunction)) :
    (members.map (Prod.map id (NamedFunction.relabel p.labels))).partition Prod.fst =
      ((members.partition Prod.fst).1.map (Prod.map id (NamedFunction.relabel p.labels)),
        (members.partition Prod.fst).2.map (Prod.map id (NamedFunction.relabel p.labels))) := by
  simp only [List.partition_eq_filter_filter, List.filter_map]
  rfl

theorem retells_classDecl (h : inner.Retell p room inner') :
    Retells p room 2 0 (Stmt.relabel p.labels) (classDecl inner) (classDecl inner') := by
  have hbound := h.bound
  have hbound' := h.bound'
  have hrest : ∀ (name : Name) (superclass : Option Reference) (left : Nat), left ≤ room →
      Retells p left 1 0 (Stmt.relabel p.labels) (do
          let traits ← withClause inner.bound
          let _ ← expect .classOpen
          let members ← untilBrace (classMember inner) inner.bound
          let _ ← expect .classClose
          return Stmt.classDecl name superclass traits ((members.partition Prod.fst).2.map Prod.snd)
            ((members.partition Prod.fst).1.map Prod.snd))
        (do
          let traits ← withClause inner'.bound
          let _ ← expect .classOpen
          let members ← untilBrace (classMember inner') inner'.bound
          let _ ← expect .classClose
          return Stmt.classDecl (name.relabel p.labels)
            (superclass.map (Reference.relabel p.labels)) traits
            ((members.partition Prod.fst).2.map Prod.snd)
            ((members.partition Prod.fst).1.map Prod.snd)) := by
    intro name superclass left hleft
    have htraits : Retells p left 0 1 (List.map (Reference.relabel p.labels))
        (withClause inner.bound) (withClause inner'.bound) :=
      retells_withClause (by omega) (by omega)
    refine htraits.use fun traits => (retells_expect _).use fun _ => ?_
    have hmember : Retells p (left - 0 - 1) 1 1 (Prod.map id (NamedFunction.relabel p.labels))
        (classMember inner) (classMember inner') :=
      (retells_classMember h).mono (by omega) (by decide) (by decide)
    refine (retells_untilBrace hmember (by omega) (by omega)).use fun members => ?_
    refine (retells_expect _).use fun _ => ?_
    rw [partition_relabel]
    refine retells_pure ?_
    simp only [Stmt.relabel, relabelMethods_eq_map, List.map_map]
    rfl
  refine (retells_expectName _).use fun name => (retells_accept _).use fun found => ?_
  refine Retells.ite (fun _ => ?_) fun _ => hrest name none _ (by omega)
  have hsuperclass : Retells p (room - 1 - 0) 1 0 (Option.map (Reference.relabel p.labels))
      (some <$> reference .ofSuperclass) (some <$> reference .ofSuperclass) :=
    (retells_reference _).map fun _ => rfl
  exact hsuperclass.use fun superclass =>
    (hrest name superclass (room - 1 - 0 - 1) (by omega)).mono (Nat.le_refl _) (by decide)
      (Nat.le_refl _)

theorem retells_traitDecl (h : inner.Retell p room inner') :
    Retells p room 2 0 (Stmt.relabel p.labels) (traitDecl inner) (traitDecl inner') := by
  have hbound := h.bound
  have hbound' := h.bound'
  have htraits : Retells p (room - 1) 0 1 (List.map (Reference.relabel p.labels))
      (withClause inner.bound) (withClause inner'.bound) :=
    retells_withClause (by omega) (by omega)
  refine (retells_expectName _).use fun name => htraits.use fun traits => ?_
  refine (retells_expect _).use fun _ => ?_
  have hmethod : Retells p (room - 1 - 0 - 1) 1 1 (NamedFunction.relabel p.labels)
      (namedFunction inner .method) (namedFunction inner' .method) :=
    (retells_namedFunction h .method).mono (by omega) (by decide) (by decide)
  refine (retells_untilBrace hmethod (by omega) (by omega)).use fun methods => ?_
  refine (retells_expect _).use fun _ => retells_pure ?_
  simp only [Stmt.relabel, relabelMethods_eq_map]

/-- Reading one way behind a word and another way without it. -/
theorem retells_ifWord {taken ahead : Nat} {k : α → β} (word : Keyword) {yes no : Rule α}
    {yes' no' : Rule β} (hlook : 1 ≤ taken + ahead)
    (h : Retells p (room - 1) (taken - 1) ahead k yes yes')
    (h' : Retells p room taken ahead k no no') :
    Retells p room taken ahead k (acceptWord word >>= fun found => if found then yes else no)
      (acceptWord word >>= fun found => if found then yes' else no') := by
  unfold acceptWord
  rw [bind_assoc, bind_assoc]
  refine Retells.peek (fun t => ?_) (fun _ _ => rfl) hlook
  have hword : isWord word (t.relabel p.labels) = isWord word t := rfl
  rw [hword]
  split
  · next hfound =>
    rw [bind_assoc, bind_assoc]
    exact RetellsAt.advance (by simp [kind_of_isWord hfound]) h
  · exact h' t

/-- Whether tokens begin with a function that has a name. -/
def namesFunction (tokens : List Token) : Bool :=
  match (tokens.take 2).map Token.kind with
  | [.keyword .funWord, .identifier _] => true
  | _ => false

theorem atNamedFunction_rest (c : Cursor) :
    atNamedFunction c = .ok (namesFunction c.rest) c := by
  unfold atNamedFunction
  split
  · next hrest =>
    rw [hrest]
    rfl
  · next hrest =>
    have hnone : namesFunction c.rest = false := by
      unfold namesFunction
      split
      · next name hkinds =>
        match hlist : c.rest, hkinds with
        | ⟨_, _⟩ :: ⟨_, _⟩ :: _, hkinds =>
          simp only [List.take_succ_cons, List.map_cons, List.cons.injEq] at hkinds
          obtain ⟨rfl, rfl, -⟩ := hkinds
          exact absurd hlist (hrest _ _ _ _)
      · rfl
    rw [hnone]

theorem namesFunction_moves {c c' : Cursor} (h : p.Moves c c')
    (hlook : p.more = [] ∨ 2 ≤ c.rest.length) :
    namesFunction c'.rest = namesFunction c.rest := by
  have hkinds : (c.rest.map (Token.relabel p.labels)).map Token.kind = c.rest.map Token.kind := by
    rw [List.map_map]
    rfl
  have hsame : (c'.rest.take 2).map Token.kind = (c.rest.take 2).map Token.kind := by
    rw [h.rest, List.map_take, List.map_take, List.map_append, hkinds]
    rcases hlook with hmore | hlength
    · rw [hmore, List.map_nil, List.append_nil]
    · exact List.take_append_of_le_length (by rwa [List.length_map])
  unfold namesFunction
  rw [hsame]

/-- Two tokens are looked at to tell a function with a name from one without. -/
theorem retells_ifNamedFunction {taken ahead : Nat} {k : α → β} {yes no : Rule α}
    {yes' no' : Rule β} (hlook : 2 ≤ taken + ahead)
    (h : Retells p (room - 1) (taken - 1) ahead k yes yes')
    (h' : Retells p room taken ahead k no no') :
    Retells p room taken ahead k
      (atNamedFunction >>= fun found => if found then advance >>= fun _ => yes else no)
      (atNamedFunction >>= fun found => if found then advance >>= fun _ => yes' else no') := by
  intro t c hc
  have hstart : ∀ c : Cursor, ∀ (γ : Type) (next : Bool → Rule γ),
      (atNamedFunction >>= next) c = next (namesFunction c.rest) c := by
    intro c γ next
    simp only [bind, EStateM.bind, atNamedFunction_rest]
  have hrun : RetellsAt p t room taken ahead k
      (if namesFunction c.rest then advance >>= fun _ => yes else no)
      (if namesFunction c.rest then advance >>= fun _ => yes' else no') := by
    refine RetellsAt.ite (fun hnames => ?_) fun _ => h' t
    refine RetellsAt.advance (fun hkind => ?_) h
    rw [← hc] at hkind
    unfold namesFunction at hnames
    unfold Cursor.peek at hkind
    split at hkind
    · next token rest hrest =>
      rw [hrest, List.take_succ_cons, List.map_cons, hkind] at hnames
      cases hnames
    · next hrest =>
      rw [hrest] at hnames
      cases hnames
  unfold Ensures at hrun ⊢
  rw [hstart]
  refine Ensures.mono (hrun c hc) (fun a c₁ hrepeats hproblems => ?_) fun _ _ => id
  obtain ⟨problems, nextId, taken, repeats⟩ := hrepeats hproblems
  refine ⟨problems, nextId, taken, fun hroom hmore hlimit c' hmoves => ?_⟩
  -- Two tokens are looked at, both of which are in the text.
  have hnames : namesFunction c'.rest = namesFunction c.rest := by
    refine namesFunction_moves hmoves (hmore.imp_right fun hahead => ?_)
    have := taken hroom
    omega
  obtain ⟨c₁', hrun', hmoves₁⟩ := repeats hroom hmore hlimit c' hmoves
  exact ⟨c₁', by rw [hstart, hnames, hrun'], hmoves₁⟩

theorem retells_strictDeclaration (h : inner.Retell p room inner') :
    Retells p (room + 1) 2 0 (Stmt.relabel p.labels) (strictDeclaration inner)
      (strictDeclaration inner') := by
  have hless {rule rule' : Rule Stmt} (h : Retells p room 2 0 (Stmt.relabel p.labels) rule rule') :
      Retells p (room + 1 - 1) (2 - 1) 0 (Stmt.relabel p.labels) rule rule' :=
    h.mono (Nat.le_refl _) (by decide) (Nat.le_refl _)
  refine retells_ifWord _ (by decide) (hless (retells_classDecl h)) ?_
  refine retells_ifWord _ (by decide) (hless (retells_traitDecl h)) ?_
  refine retells_ifNamedFunction (by decide) (hless ?_) ?_
  · refine (retells_namedFunction h .function).use fun f => retells_pure ?_
    simp only [Stmt.relabel]
  · exact retells_ifWord _ (by decide) (hless (retells_varDecl h)) (retells_statement h)

/-! ## The knot -/

theorem retells_rule (h : inner.Retell p room inner') (category : Category) :
    Retells p (room + 1) category.least (category.look p) (category.relabel p.labels)
      (rule inner category) (rule inner' category) := by
  cases category with
  | expression => exact retells_expression h
  | assignment => exact retells_assignment h
  | conditional => exact retells_conditional h
  | unary => exact retells_unary h
  | statement => exact retells_statement h
  | declaration => exact (retells_strictDeclaration h).recover

/-- Budgets that are above the number of tokens make no difference. -/
theorem retells_ruleAt {budget budget' : Nat} (hbudget : room ≤ budget)
    (hbudget' : room ≤ budget') (category : Category) :
    Retells p room category.least (category.look p) (category.relabel p.labels)
      (ruleAt budget category) (ruleAt budget' category) := by
  induction budget generalizing room budget' category with
  | zero => exact retells_failHere
  | succ budget ih =>
    refine Retells.bounded (fun budget' => ruleAt budget' category) hbudget'
      fun budget' hbudget' => ?_
    have hinner : Rules.Retell p (room - 1) ⟨budget + 1, ruleAt budget⟩
        ⟨budget' + 1, ruleAt budget'⟩ :=
      ⟨by dsimp only; omega, by dsimp only; omega, fun category =>
        ih (by omega) (by omega) category⟩
    exact (retells_rule hinner category).less (by omega)

end

end Grammar

end LoxLang
