import LoxLang.Grammar.Program
import LoxLang.Proofs.Ensures
import LoxLang.Proofs.Grammar.Productions

/-!
# What rules read can be derived

Where a rule ends without a problem, the tokens that it has read are derived from the phrase of
the rule (`Yields`). Of a rule that has met a problem nothing is said, and as problems stay with
the cursor (`Parses`), no later rule can make up for it. An expression that may be assigned to
has moreover been read from tokens that say so (`Operand`): of these the rules find out only
afterwards, from the tree.
-/

namespace LoxLang

/-- An expression that denotes something to assign to. -/
def Expr.Assignable : Expr → Prop
  | .variable _ => True
  | .get _ _ => True
  | _ => False

namespace Grammar

/-- Whether the cursor stands within a loop of the same function. -/
def Cursor.InLoop (c : Cursor) (loop : Bool) : Prop :=
  c.loopDepth ≠ 0 ↔ loop = true

variable {α β ω : Type}

/-- A rule that starts at a token ends within as many loops as before. Where it has a result
and there are no problems at its end, then there were none before, and the tokens that it has
read are in relation `good` to the result. -/
def ParsesAt (loop : Bool) (t : Token) (rule : Rule α) (good : List Token → α → Prop) : Prop :=
  ∀ c : Cursor, c.peek = t → c.InLoop loop →
    Ensures rule c
      (fun a c' => c'.loopDepth = c.loopDepth ∧
        (c'.problems = [] → c.problems = [] ∧ ∃ w, c.rest = w ++ c'.rest ∧ good w a))
      fun _ c' => c'.loopDepth = c.loopDepth

/-- The same of a rule that starts anywhere. -/
def Parses (loop : Bool) (rule : Rule α) (good : List Token → α → Prop) : Prop :=
  ∀ t, ParsesAt loop t rule good

/-- What a rule reads is derived from a phrase. -/
abbrev Yields (loop : Bool) (rule : Rule α) (p : Phrase) : Prop :=
  Parses loop rule fun w _ => Derives loop p w

section

variable {loop : Bool} {t : Token} {rule : Rule α} {next : α → Rule β}
  {first good good' : List Token → α → Prop} {goodNext : List Token → β → Prop}

theorem ParsesAt.mono (h : ParsesAt loop t rule good)
    (imp : ∀ w a, good w a → good' w a) : ParsesAt loop t rule good' := by
  intro c hpeek hloop
  refine (h c hpeek hloop).mono ?_ fun _ _ => id
  rintro a c' ⟨hdepth, hread⟩
  refine ⟨hdepth, fun hproblems => ?_⟩
  obtain ⟨hbefore, w, hrest, hgood⟩ := hread hproblems
  exact ⟨hbefore, w, hrest, imp w a hgood⟩

theorem Parses.mono (h : Parses loop rule good) (imp : ∀ w a, good w a → good' w a) :
    Parses loop rule good' :=
  fun t => (h t).mono imp

/-- What a rule is known to read in two ways are the same tokens. -/
theorem Parses.and (h : Parses loop rule good) (h' : Parses loop rule good') :
    Parses loop rule fun w a => good w a ∧ good' w a := by
  intro t c hpeek hloop
  refine ((h t c hpeek hloop).and (h' t c hpeek hloop)).mono ?_ fun _ _ => And.left
  rintro a c' ⟨⟨hdepth, hread⟩, -, hread'⟩
  refine ⟨hdepth, fun hproblems => ?_⟩
  obtain ⟨hbefore, w, hrest, hgood⟩ := hread hproblems
  obtain ⟨-, w', hrest', hgood'⟩ := hread' hproblems
  obtain rfl : w' = w := List.append_cancel_right (hrest'.symm.trans hrest)
  exact ⟨hbefore, w', hrest, hgood, hgood'⟩

/-- What was read first stands before what is read next, which may depend on what is known of the
first result and of the token behind it. -/
theorem ParsesAt.useBefore (before : α → Token → Prop) (h : ParsesAt loop t rule first)
    (hbefore : ∀ c, Ensures rule c (fun a c' => before a c'.peek) fun _ _ => True)
    (h' : ∀ a t, before a t →
      ParsesAt loop t (next a) fun v b => ∀ w, first w a → goodNext (w ++ v) b) :
    ParsesAt loop t (rule >>= next) goodNext := by
  intro c hpeek hloop
  have hboth := (h c hpeek hloop).and (hbefore c)
  refine Ensures.bind (hboth.mono (fun _ _ => id) fun _ _ => And.left) ?_
  rintro a c' ⟨⟨hdepth, hread⟩, hpeek'⟩
  have hloop' : c'.InLoop loop := by
    unfold Cursor.InLoop
    rwa [hdepth]
  refine (h' a _ hpeek' c' rfl hloop').mono ?_ fun _ c'' hdepth' => hdepth'.trans hdepth
  rintro b c'' ⟨hdepth', hread'⟩
  refine ⟨hdepth'.trans hdepth, fun hproblems => ?_⟩
  obtain ⟨hbefore', v, hrest', hgood⟩ := hread' hproblems
  obtain ⟨hbefore, w, hrest, hfirst⟩ := hread hbefore'
  refine ⟨hbefore, w ++ v, ?_, hgood w hfirst⟩
  rw [hrest, hrest', List.append_assoc]

theorem ParsesAt.use (h : ParsesAt loop t rule first)
    (h' : ∀ a, Parses loop (next a) fun v b => ∀ w, first w a → goodNext (w ++ v) b) :
    ParsesAt loop t (rule >>= next) goodNext :=
  h.useBefore (fun _ _ => True) (ensures_trivial rule) fun a t _ => h' a t

theorem Parses.use (h : Parses loop rule first)
    (h' : ∀ a, Parses loop (next a) fun v b => ∀ w, first w a → goodNext (w ++ v) b) :
    Parses loop (rule >>= next) goodNext :=
  fun t => (h t).use h'

/-- Phrases in a row are read one after the other. -/
theorem Parses.cons {p : Phrase} {ps : List Phrase} (h : Yields loop rule p)
    (h' : ∀ a, Yields loop (next a) (.seq ps)) : Yields loop (rule >>= next) (.seq (p :: ps)) :=
  h.use fun a => (h' a).mono fun _ _ hv _ hw => .cons hw hv

theorem parses_pure {a : α} (h : good [] a) : Parses loop (pure a) good :=
  fun _ _ _ _ => ⟨rfl, fun hproblems => ⟨hproblems, [], rfl, h⟩⟩

theorem parses_throw {problem : Problem} : Parses loop (throw problem) good :=
  fun _ _ _ _ => rfl

theorem parses_failHere {cause : Cause} : Parses loop (failHere cause) good :=
  fun _ _ _ _ => rfl

theorem parses_ite {condition : Prop} [Decidable condition] {rule' : Rule α}
    (h : condition → Parses loop rule good) (h' : ¬ condition → Parses loop rule' good) :
    Parses loop (if condition then rule else rule') good := by
  split
  · next hc => exact h hc
  · next hc => exact h' hc

end

/-! ## Primitive rules -/

section

variable {loop : Bool} {t : Token} {good : List Token → β → Prop}

theorem parsesAt_peek {next : Token → Rule β} (h : ParsesAt loop t (next t) good) :
    ParsesAt loop t (peek >>= next) good := by
  intro c hpeek hloop
  refine Ensures.bind (Q := fun a c' => a = t ∧ c' = c) ⟨hpeek, rfl⟩ ?_
  rintro a c' ⟨rfl, rfl⟩
  exact h c' hpeek hloop

theorem parses_peek {next : Token → Rule β} (h : ∀ t, ParsesAt loop t (next t) good) :
    Parses loop (peek >>= next) good :=
  fun t => parsesAt_peek (h t)

/-- A token that is not the end mark is left behind. -/
theorem parsesAt_advance (h : t.kind ≠ .eof) :
    ParsesAt loop t advance fun w _ => w = [t] := by
  intro c hpeek _
  refine ⟨rfl, fun hproblems => ⟨hproblems, [t], ?_, rfl⟩⟩
  unfold Cursor.peek at hpeek
  split at hpeek
  · next token rest hrest => rw [hrest, ← hpeek]; rfl
  · exact absurd (congrArg Token.kind hpeek.symm) h

/-- The token at the cursor is the first phrase of several. -/
theorem ParsesAt.cons {p : Phrase} {ps : List Phrase} {next : Unit → Rule β}
    (h : Derives loop p [t]) (h' : ∀ u, Yields loop (next u) (.seq ps)) :
    ParsesAt loop t (advance >>= next) fun w _ => Derives loop (.seq (p :: ps)) w := by
  refine (parsesAt_advance (h.ne_eof t (by simp))).use fun u => ?_
  refine (h' u).mono fun v _ hv w hw => ?_
  rw [hw]
  exact .cons h hv

theorem parses_atSymbol (symbol : Symbol) :
    Parses loop (atSymbol symbol) fun w _ => w = [] :=
  parses_peek fun t => parses_pure rfl t

theorem parses_atEnd : Parses loop atEnd fun w _ => w = [] :=
  fun _ _ _ _ => ⟨rfl, fun hproblems => ⟨hproblems, [], rfl, rfl⟩⟩

theorem parses_freshId : Parses loop freshId fun w _ => w = [] :=
  fun _ _ _ _ => ⟨rfl, fun hproblems => ⟨hproblems, [], rfl, rfl⟩⟩

/-- Looking at what is to come reads nothing. -/
theorem Parses.skip {rule : Rule α} {next : α → Rule β} (h : Parses loop rule fun w _ => w = [])
    (h' : ∀ a, Parses loop (next a) good) : Parses loop (rule >>= next) good := by
  refine h.use fun a => (h' a).mono fun v _ hv w hw => ?_
  rw [hw]
  exact hv

theorem parses_loopDepth {next : Nat → Rule β}
    (h : ∀ depth, (depth ≠ 0 ↔ loop = true) → Parses loop (next depth) good) :
    Parses loop (loopDepth >>= next) good := by
  intro t c hpeek hloop
  refine Ensures.bind (Q := fun a c' => a = c.loopDepth ∧ c' = c) ⟨rfl, rfl⟩ ?_
  rintro depth c' ⟨rfl, rfl⟩
  exact h _ hloop t c' hpeek hloop

/-- A problem stays. -/
theorem parses_note {problem : Problem} {good : List Token → Unit → Prop} :
    Parses loop (note problem) good :=
  fun _ _ _ _ => ⟨rfl, fun hproblems => by simp at hproblems⟩

theorem parses_checkArity (cause : Cause) (count : Nat) :
    Parses loop (checkArity cause count) fun w _ => w = [] ∧ count < maxArity := by
  refine parses_ite (fun _ => parses_peek fun t => parses_note t) fun hcount => ?_
  exact parses_pure ⟨rfl, by omega⟩

theorem kind_of_isSymbol {symbol : Symbol} (h : isSymbol symbol t = true) :
    t.kind = .symbol symbol := by
  unfold isSymbol at h
  split at h
  · next s hkind => rw [hkind, beq_iff_eq.mp h]
  · cases h

theorem kind_of_isWord {word : Keyword} (h : isWord word t = true) :
    t.kind = .keyword word := by
  unfold isWord at h
  split at h
  · next k hkind => rw [hkind, beq_iff_eq.mp h]
  · cases h

/-- Reading one way behind a symbol and another way without it. -/
theorem parses_ifAccept (symbol : Symbol) {yes no : Rule β}
    (h : Parses loop yes fun v b => ∀ w, Derives loop (.symbol symbol) w → good (w ++ v) b)
    (h' : Parses loop no good) :
    Parses loop (accept symbol >>= fun found => if found then yes else no) good := by
  unfold accept atSymbol
  rw [bind_assoc, bind_assoc]
  refine parses_peek fun t => ?_
  rw [pure_bind]
  split
  · next hsymbol =>
    have ht : Derives loop (.symbol symbol) [t] := .symbol (kind_of_isSymbol hsymbol)
    rw [bind_assoc]
    refine (parsesAt_advance (ht.ne_eof t (by simp))).use fun _ => ?_
    rw [pure_bind, if_pos rfl]
    refine h.mono fun v _ hv w hw => ?_
    rw [hw]
    exact hv [t] ht
  · rw [pure_bind]
    exact h' t

theorem parses_acceptWord (word : Keyword) (hword : word ≠ .breakWord) :
    Parses loop (acceptWord word) fun w found =>
      if found then Derives loop (.word word) w else w = [] := by
  refine parses_peek fun t => ?_
  split
  · next h =>
    have hkind := kind_of_isWord h
    refine (parsesAt_advance (by simp [hkind])).use fun _ => parses_pure fun w hw => ?_
    rw [hw]
    exact .word hkind fun h => absurd h hword
  · exact parses_pure rfl t

/-- Reading one way behind a word and another way without it. -/
theorem parses_ifWord (word : Keyword) (hword : word ≠ .breakWord) {yes no : Rule β}
    (h : Parses loop yes fun v b => ∀ w, Derives loop (.word word) w → good (w ++ v) b)
    (h' : Parses loop no good) :
    Parses loop (acceptWord word >>= fun found => if found then yes else no) good := by
  refine (parses_acceptWord word hword).use fun found => ?_
  cases found with
  | true => exact h
  | false =>
    refine h'.mono fun v _ hv w hw => ?_
    rw [show w = [] from hw]
    exact hv

theorem yields_expect (landmark : Landmark) :
    Yields loop (expect landmark) (.symbol landmark.symbol) := by
  refine parses_peek fun t => ?_
  split
  · next h =>
    have hkind := kind_of_isSymbol h
    refine (parsesAt_advance (by simp [hkind])).use fun _ => parses_pure fun w hw => ?_
    rw [hw]
    exact .symbol hkind
  · exact parses_failHere t

theorem yields_expectName (role : NameRole) : Yields loop (expectName role) .name := by
  refine parses_peek fun t => ?_
  split
  · next name hkind =>
    refine (parsesAt_advance (by simp [hkind])).use fun _ => parses_pure fun w hw => ?_
    rw [hw]
    exact .name hkind
  · exact parses_failHere t

/-- Reading with another number of loops around. -/
theorem parses_withLoopDepth {rule : Rule α} {good : List Token → α → Prop}
    {change : Nat → Nat} {within : Bool} (h : Parses within rule good)
    (hchange : ∀ depth, (depth ≠ 0 ↔ loop = true) → (change depth ≠ 0 ↔ within = true)) :
    Parses loop (withLoopDepth change rule) good := by
  intro t c _ hloop
  have hinner := h _ { c with loopDepth := change c.loopDepth } rfl (hchange _ hloop)
  unfold Ensures withLoopDepth at *
  cases hrule : rule { c with loopDepth := change c.loopDepth } with
  | ok a c' => rw [hrule] at hinner; exact ⟨rfl, hinner.2⟩
  | error problem c' => exact rfl

/-- A rule that recovers from a problem leaves the problem behind. -/
theorem parses_recover {rule : Rule α} {good : List Token → α → Prop}
    (h : Parses loop rule good) :
    Parses loop (recover rule) fun w found => ∃ a ∈ found, good w a := by
  intro t c hpeek hloop
  have hinner := h t c hpeek hloop
  unfold Ensures recover at *
  cases hrule : rule c with
  | ok a c' =>
    rw [hrule] at hinner
    refine ⟨hinner.1, fun hproblems => ?_⟩
    obtain ⟨hbefore, w, hrest, hgood⟩ := hinner.2 hproblems
    exact ⟨hbefore, w, hrest, a, rfl, hgood⟩
  | error problem c' =>
    rw [hrule] at hinner
    exact ⟨hinner, fun hproblems => by simp at hproblems⟩

end

/-! ## Repetition -/

section

variable {loop : Bool} {p : Phrase}

/-- One more item in front. -/
theorem derives_listed_comma {limit : Option Nat} {u w : List Token} {t : Token}
    (room : limit ≠ some 0) (first : Derives loop p u) (comma : Derives loop (.symbol .comma) [t])
    (rest : Derives loop (.listed (limit.map (· - 1)) p) w) :
    Derives loop (.listed limit p) (u ++ ([t] ++ w)) := by
  obtain ⟨v, v', rfl, hv, hv'⟩ := derives_pair.mp rest
  have hitem : Derives loop (.seq [.symbol .comma, p]) ([t] ++ v) :=
    .cons comma (derives_single.mpr hv)
  have hmany := Derives.again room hitem hv'
  rw [List.append_assoc] at hmany
  exact derives_pair.mpr ⟨u, _, rfl, first, hmany⟩

/-- Where `count` items precede, so many fewer may follow. -/
theorem parses_commaSeparated {item : Nat → Rule α} {limit : Option Nat}
    (h : ∀ count, Parses loop (item count) fun w _ =>
      Derives loop p w ∧ ∀ most ∈ limit, count ≤ most) (budget count : Nat) :
    Parses loop (commaSeparated item budget count) fun w _ =>
      Derives loop (.listed (limit.map (· - count)) p) w ∧ ∀ most ∈ limit, count ≤ most := by
  induction budget generalizing count with
  | zero => exact parses_failHere
  | succ budget ih =>
    refine (h count).use fun a => parses_ifAccept .comma ?_ ?_
    · refine (ih (count + 1)).use fun as => parses_pure ?_
      rintro w ⟨hlist, hroom⟩ v hv u ⟨hu, hcount⟩
      obtain ⟨t, rfl, ht⟩ := derives_symbol.mp hv
      refine ⟨?_, hcount⟩
      rw [List.append_nil]
      -- The next item has passed its own check, so that there was room behind this one.
      refine derives_listed_comma ?_ hu (.symbol ht) ?_
      · cases limit with
        | none => simp
        | some most =>
          have := hroom most rfl
          simp only [Option.map_some, ne_eq, Option.some.injEq]
          omega
      · cases limit with
        | none => exact hlist
        | some most => simpa only [Option.map_some, Nat.sub_sub] using hlist
    · refine parses_pure fun u hu => ⟨derives_pair.mpr ⟨u, [], rfl, hu.1, .done⟩, hu.2⟩

/-- Operands behind a first one. Only where there are none is the result what stood before. -/
theorem parses_leftNested {operator? : Token → Option ω} {operator : Phrase}
    {operand : Rule Expr} {build : Expr → ω → Nat → Expr → Expr} (h : Yields loop operand p)
    (hoperator : ∀ t op, operator? t = some op → Derives loop operator [t])
    (hbuild : ∀ left op line right, ¬ (build left op line right).Assignable)
    (budget : Nat) (e : Expr) :
    Parses loop (leftNested operator? operand build budget e) fun w whole =>
      Derives loop (.many none (.seq [operator, p])) w ∧
        (whole.Assignable → w = [] ∧ whole = e) := by
  induction budget generalizing e with
  | zero => exact parses_pure ⟨.done, fun _ => ⟨rfl, rfl⟩⟩
  | succ budget ih =>
    refine parses_peek fun t => ?_
    split
    · exact parses_pure ⟨.done, fun _ => ⟨rfl, rfl⟩⟩ t
    · next op hop =>
      have ht := hoperator t op hop
      refine (parsesAt_advance (ht.ne_eof t (by simp))).use fun _ => h.use fun right => ?_
      refine (ih _).mono ?_
      rintro w whole ⟨hmany, hwhole⟩ v hv u rfl
      refine ⟨?_, fun hassignable => ?_⟩
      · rw [← List.append_assoc]
        exact .again (by simp) (.cons ht (derives_single.mpr hv)) hmany
      -- What an operator builds is not assignable, so that the whole is not either.
      · have hsame := (hwhole hassignable).2
        rw [hsame] at hassignable
        exact absurd hassignable (hbuild _ _ _ _)

theorem yields_untilBrace {item : Rule α} (h : Yields loop item p) (budget : Nat) :
    Yields loop (untilBrace item budget) (.many none p) := by
  induction budget with
  | zero => exact parses_pure .done
  | succ budget ih =>
    refine (parses_atSymbol _).skip fun _ => parses_atEnd.skip fun _ => ?_
    refine parses_ite (fun _ => parses_pure .done) fun _ => ?_
    refine h.use fun a => ih.use fun as => parses_pure fun v hv u hu => ?_
    rw [List.append_nil]
    exact .again (by simp) hu hv

end

end Grammar

end LoxLang
