import LoxLang.Proofs.Grammar.Derivable
import LoxLang.Proofs.Grammar.Openings

/-!
# Reading what is to be read

A rule that stands before tokens of its own and any others takes up the former, leaves the
latter and meets no problem (`Takes`). As rules read on for as long as they can, this is so only
where what follows does not continue what is read.
-/

namespace LoxLang

namespace Grammar

variable {α β ω : Type}

/-- Before `w` and `r` a rule reads `w`, without a problem and within as many loops as before,
and what it reads is `good`. -/
def Takes (loop : Bool) (rule : Rule α) (w r : List Token) (good : α → Prop) : Prop :=
  ∀ c : Cursor, c.rest = w ++ r → c.InLoop loop →
    Ensures rule c
      (fun a c' => c'.rest = r ∧ c'.loopDepth = c.loopDepth ∧ c'.problems = c.problems ∧ good a)
      fun _ _ => False

/-- The same where it does not matter what is read. -/
abbrev TakesUp (loop : Bool) (rule : Rule α) (w r : List Token) : Prop :=
  Takes loop rule w r fun _ => True

/-- What is to come begins with no token of a kind. -/
def Avoids (kind : Token → Bool) (r : List Token) : Prop :=
  ∀ t ∈ r.head?, kind t = false

theorem Avoids.append {kind : Token → Bool} {u v : List Token} (h : Avoids kind u)
    (hne : u ≠ []) : Avoids kind (u ++ v) := by
  cases u with
  | nil => exact absurd rfl hne
  | cons t u => exact h

/-- What is derived from a phrase avoids the symbols that the phrase does not begin with. -/
theorem avoids_symbol {loop : Bool} {p : Phrase} {s : Symbol} {w : List Token}
    (h : Derives loop p w) (hs : .symbol s ∉ p.starts) : Avoids (isSymbol s) w :=
  fun _ ht => (begins_of_derives h).isSymbol ht hs

theorem avoids_word {loop : Bool} {p : Phrase} {k : Keyword} {w : List Token}
    (h : Derives loop p w) (hk : .word k ∉ p.starts) : Avoids (isWord k) w :=
  fun _ ht => (begins_of_derives h).isWord ht hk

section

variable {loop : Bool} {rule : Rule α} {next : α → Rule β} {w v r : List Token}
  {first good' : α → Prop} {good : β → Prop}

theorem Takes.mono (h : Takes loop rule w r first) (imp : ∀ a, first a → good' a) :
    Takes loop rule w r good' := by
  intro c hrest hloop
  refine (h c hrest hloop).mono ?_ fun _ _ => id
  rintro a c' ⟨hrest', hdepth, hproblems, hfirst⟩
  exact ⟨hrest', hdepth, hproblems, imp a hfirst⟩

theorem Takes.up (h : Takes loop rule w r first) : TakesUp loop rule w r :=
  h.mono fun _ _ => trivial

/-- The first rule stands before its own tokens and those of the second. -/
theorem Takes.use (h : Takes loop rule w (v ++ r) first)
    (h' : ∀ a, first a → Takes loop (next a) v r good) :
    Takes loop (rule >>= next) (w ++ v) r good := by
  intro c hrest hloop
  rw [List.append_assoc] at hrest
  refine Ensures.bind (h c hrest hloop) ?_
  rintro a c' ⟨hrest', hdepth, hproblems, hfirst⟩
  have hloop' : c'.InLoop loop := by
    unfold Cursor.InLoop
    rwa [hdepth]
  refine (h' a hfirst c' hrest' hloop').mono ?_ fun _ _ => id
  rintro b c'' ⟨hrest'', hdepth', hproblems', hgood⟩
  exact ⟨hrest'', hdepth'.trans hdepth, hproblems'.trans hproblems, hgood⟩

/-- A first rule that reads nothing. -/
theorem Takes.skip (h : Takes loop rule [] (w ++ r) first)
    (h' : ∀ a, first a → Takes loop (next a) w r good) :
    Takes loop (rule >>= next) w r good :=
  Takes.use (w := []) h h'

/-- A last rule that reads nothing. -/
theorem Takes.last (h : Takes loop rule w r first)
    (h' : ∀ a, first a → Takes loop (next a) [] r good) :
    Takes loop (rule >>= next) w r good := by
  have hboth := Takes.use (v := []) h h'
  rwa [List.append_nil] at hboth

theorem takes_pure {a : α} (h : good' a) : Takes loop (pure a) [] r good' :=
  fun _ hrest _ => ⟨hrest, rfl, rfl, h⟩

theorem takesUp_pure {a : α} : TakesUp loop (pure a) [] r :=
  takes_pure trivial

end

/-! ## Primitive rules -/

section

variable {loop : Bool} {w r : List Token} {good : β → Prop}

/-- The token at the cursor is the first one, or else an end mark. -/
theorem takes_peek {next : Token → Rule β}
    (h : ∀ t, (w ++ r = [] → t.kind = .eof) → (∀ t' ∈ (w ++ r).head?, t = t') →
      Takes loop (next t) w r good) : Takes loop (peek >>= next) w r good := by
  intro c hrest hloop
  refine Ensures.bind (Q := fun t c' => t = c.peek ∧ c' = c) ⟨rfl, rfl⟩ ?_
  rintro t c' ⟨rfl, rfl⟩
  refine h _ ?_ ?_ c' hrest hloop
  · intro hempty
    rw [Cursor.peek, hrest, hempty]
  · intro t' ht'
    rw [Cursor.peek, hrest]
    cases hlist : w ++ r with
    | nil => rw [hlist] at ht'; cases ht'
    | cons a rest => rw [hlist] at ht'; exact Option.some.inj ht'

/-- The token at the cursor where there is one. -/
theorem takes_peek_cons {next : Token → Rule β} {t : Token}
    (h : Takes loop (next t) (t :: w) r good) : Takes loop (peek >>= next) (t :: w) r good := by
  refine takes_peek fun t' _ hsame => ?_
  obtain rfl := hsame t rfl
  exact h

/-- Nothing is decided by a token that what is to come does not begin with. -/
theorem takes_peek_avoids {next : Token → Rule β} {kind : Token → Bool}
    (hkind : Avoids kind (w ++ r)) (heof : ∀ t, t.kind = .eof → kind t = false)
    (h : ∀ t, kind t = false → Takes loop (next t) w r good) :
    Takes loop (peek >>= next) w r good := by
  refine takes_peek fun t hend hsame => h t ?_
  cases hlist : w ++ r with
  | nil => exact heof t (hend hlist)
  | cons a rest =>
    rw [hlist] at hsame hkind
    rw [hsame a rfl]
    exact hkind a rfl

theorem takesUp_advance {t : Token} : TakesUp loop advance [t] r := by
  intro c hrest _
  refine ⟨?_, rfl, rfl, trivial⟩
  show c.rest.tail = r
  rw [hrest]
  rfl

/-- Stepping over the first token. -/
theorem takes_advance {next : Unit → Rule β} {t : Token} (h : ∀ u, Takes loop (next u) w r good) :
    Takes loop (advance >>= next) (t :: w) r good :=
  Takes.use (w := [t]) takesUp_advance fun u _ => h u

theorem takes_atEnd : Takes loop atEnd [] r fun found => found = r.isEmpty := by
  intro c hrest _
  exact ⟨hrest, rfl, rfl, congrArg List.isEmpty hrest⟩

theorem takesUp_freshId : TakesUp loop freshId [] r :=
  fun _ hrest _ => ⟨hrest, rfl, rfl, trivial⟩

theorem takesUp_checkArity {cause : Cause} {count : Nat} (h : count < maxArity) :
    TakesUp loop (checkArity cause count) [] r := by
  unfold checkArity
  rw [if_neg (by omega)]
  exact takesUp_pure

theorem takes_loopDepth {next : Nat → Rule β}
    (h : ∀ depth, (depth ≠ 0 ↔ loop = true) → Takes loop (next depth) w r good) :
    Takes loop (loopDepth >>= next) w r good := by
  intro c hrest hloop
  refine Ensures.bind (Q := fun a c' => a = c.loopDepth ∧ c' = c) ⟨rfl, rfl⟩ ?_
  rintro depth c' ⟨rfl, rfl⟩
  exact h _ hloop c' hrest hloop

theorem isSymbol_of_kind {s : Symbol} {t : Token} (h : t.kind = .symbol s) :
    isSymbol s t = true := by
  simp [isSymbol, h]

theorem isWord_of_kind {k : Keyword} {t : Token} (h : t.kind = .keyword k) :
    isWord k t = true := by
  simp [isWord, h]

theorem isSymbol_eof {s : Symbol} (t : Token) (h : t.kind = .eof) : isSymbol s t = false := by
  simp [isSymbol, h]

theorem isWord_eof {k : Keyword} (t : Token) (h : t.kind = .eof) : isWord k t = false := by
  simp [isWord, h]

theorem takes_expect {landmark : Landmark} (h : Derives loop (.symbol landmark.symbol) w) :
    TakesUp loop (expect landmark) w r := by
  obtain ⟨t, rfl, ht⟩ := derives_symbol.mp h
  refine takes_peek_cons ?_
  rw [if_pos (isSymbol_of_kind ht)]
  exact takes_advance fun _ => takesUp_pure

theorem takes_expectName {role : NameRole} (h : Derives loop .name w) :
    TakesUp loop (expectName role) w r := by
  obtain ⟨t, n, rfl, ht⟩ := derives_name.mp h
  refine takes_peek_cons ?_
  simp only [ht]
  exact takes_advance fun _ => takesUp_pure

/-- Looking for a symbol that is not there. -/
theorem takes_atSymbol_avoids {symbol : Symbol} {next : Bool → Rule β}
    (h : Avoids (isSymbol symbol) (w ++ r)) (h' : Takes loop (next false) w r good) :
    Takes loop (atSymbol symbol >>= next) w r good := by
  unfold atSymbol
  rw [bind_assoc]
  refine takes_peek_avoids h isSymbol_eof fun t ht => ?_
  rw [pure_bind, ht]
  exact h'

/-- Looking for a symbol that is there. -/
theorem takes_atSymbol {symbol : Symbol} {next : Bool → Rule β}
    (h : ∃ t ∈ (w ++ r).head?, t.kind = .symbol symbol) (h' : Takes loop (next true) w r good) :
    Takes loop (atSymbol symbol >>= next) w r good := by
  obtain ⟨t, ht, hkind⟩ := h
  unfold atSymbol
  rw [bind_assoc]
  refine takes_peek fun t' _ hsame => ?_
  rw [pure_bind, hsame t ht, isSymbol_of_kind hkind]
  exact h'

theorem takes_accept {symbol : Symbol} {next : Bool → Rule β} {v : List Token}
    (h : Derives loop (.symbol symbol) v) (h' : Takes loop (next true) w r good) :
    Takes loop (accept symbol >>= next) (v ++ w) r good := by
  obtain ⟨t, rfl, ht⟩ := derives_symbol.mp h
  unfold accept
  rw [bind_assoc]
  refine takes_atSymbol ⟨t, rfl, ht⟩ ?_
  rw [if_pos rfl, bind_assoc]
  exact takes_advance fun _ => h'

theorem takes_accept_avoids {symbol : Symbol} {next : Bool → Rule β}
    (h : Avoids (isSymbol symbol) (w ++ r)) (h' : Takes loop (next false) w r good) :
    Takes loop (accept symbol >>= next) w r good := by
  unfold accept
  rw [bind_assoc]
  exact takes_atSymbol_avoids h h'

theorem takes_acceptWord {word : Keyword} {next : Bool → Rule β} {v : List Token}
    (h : Derives loop (.word word) v) (h' : Takes loop (next true) w r good) :
    Takes loop (acceptWord word >>= next) (v ++ w) r good := by
  obtain ⟨t, rfl, ht, _⟩ := derives_word.mp h
  unfold acceptWord
  rw [bind_assoc]
  refine takes_peek_cons ?_
  rw [if_pos (isWord_of_kind ht), bind_assoc]
  exact takes_advance fun _ => h'

theorem takes_acceptWord_avoids {word : Keyword} {next : Bool → Rule β}
    (h : Avoids (isWord word) (w ++ r)) (h' : Takes loop (next false) w r good) :
    Takes loop (acceptWord word >>= next) w r good := by
  unfold acceptWord
  rw [bind_assoc]
  refine takes_peek_avoids h isWord_eof fun t ht => ?_
  rw [ht]
  exact h'

theorem takes_withLoopDepth {rule : Rule α} {good : α → Prop} {change : Nat → Nat}
    {within : Bool} (h : Takes within rule w r good)
    (hchange : ∀ depth, (depth ≠ 0 ↔ loop = true) → (change depth ≠ 0 ↔ within = true)) :
    Takes loop (withLoopDepth change rule) w r good := by
  intro c hrest hloop
  have hinner := h { c with loopDepth := change c.loopDepth } hrest (hchange _ hloop)
  unfold Ensures withLoopDepth at *
  cases hrule : rule { c with loopDepth := change c.loopDepth } with
  | ok a c' =>
    rw [hrule] at hinner
    obtain ⟨hrest', _, hproblems, hgood⟩ := hinner
    exact ⟨hrest', rfl, hproblems, hgood⟩
  | error problem c' => rw [hrule] at hinner; exact hinner.elim

theorem takes_recover {rule : Rule α} {good : α → Prop} (h : Takes loop rule w r good) :
    Takes loop (recover rule) w r fun found => ∃ a, found = some a ∧ good a := by
  intro c hrest hloop
  have hinner := h c hrest hloop
  unfold Ensures recover at *
  cases hrule : rule c with
  | ok a c' =>
    rw [hrule] at hinner
    obtain ⟨hrest', hdepth, hproblems, ha⟩ := hinner
    exact ⟨hrest', hdepth, hproblems, a, rfl, ha⟩
  | error problem c' => rw [hrule] at hinner; exact hinner.elim

end

/-! ## Repetition -/

section

variable {loop : Bool} {p : Phrase} {w r : List Token} {size : Nat} {stops : List Token → Prop}

/-- A rule takes up what is derived from a phrase, of limited length and before what stops it. -/
def TakesAll (loop : Bool) (size : Nat) (stops : List Token → Prop) (p : Phrase) (rule : Rule α) :
    Prop :=
  ∀ w r, w.length < size → Derives loop p w → stops r → TakesUp loop rule w r

/-- Items between which a comma stops them. -/
theorem takes_commaSeparated {item : Nat → Rule α} {limit : Option Nat}
    (hitem : ∀ count, (∀ most ∈ limit, count ≤ most) → TakesAll loop size stops p (item count))
    (hcomma : ∀ t r, t.kind = .symbol .comma → stops (t :: r)) (hr : stops r)
    (havoids : Avoids (isSymbol .comma) r) {budget count : Nat} (hbudget : w.length < budget)
    (hsize : w.length < size) (hcount : ∀ most ∈ limit, count ≤ most)
    (hw : Derives loop (.listed (limit.map (· - count)) p) w) :
    TakesUp loop (commaSeparated item budget count) w r := by
  induction budget generalizing w count with
  | zero => omega
  | succ budget ih =>
    obtain ⟨u, v, rfl, hu, hv⟩ := derives_pair.mp hw
    rw [List.length_append] at hbudget hsize
    have hlength : u.length < size := by omega
    have hmany := hv
    rcases derives_many.mp hmany with rfl | ⟨x, v', rfl, room, hx, hv'⟩
    · refine Takes.use (hitem count hcount u r hlength hu hr) fun a _ => ?_
      exact takes_accept_avoids havoids takesUp_pure
    · obtain ⟨c, u', rfl, hc, hu'⟩ := derives_pair.mp hx
      obtain ⟨t, rfl, ht⟩ := derives_symbol.mp hc
      simp only [List.length_append, List.length_singleton] at hbudget hsize
      refine Takes.use (hitem count hcount u _ hlength hu (hcomma t _ ht)) fun a _ => ?_
      rw [List.append_assoc]
      refine takes_accept (.symbol ht) ?_
      have hlist : Derives loop (.listed (limit.map (· - (count + 1))) p) (u' ++ v') := by
        refine derives_pair.mpr ⟨u', v', rfl, hu', ?_⟩
        cases limit with
        | none => exact hv'
        | some most => simpa only [Option.map_some, Nat.sub_sub] using hv'
      -- An item stands behind this comma, so that the limit has not been reached.
      have hcount' : ∀ most ∈ limit, count + 1 ≤ most := by
        rintro most rfl
        have hroom : most - count ≠ 0 := fun h => room (congrArg some h)
        omega
      have hbudget' : (u' ++ v').length < budget := by
        rw [List.length_append]
        omega
      have hsize' : (u' ++ v').length < size := by
        rw [List.length_append]
        omega
      exact (ih hbudget' hsize' hcount' hlist).last fun _ _ => takesUp_pure

/-- Operands behind a first one, of which an operator stops each. -/
theorem takes_leftNested {operator? : Token → Option ω} {operator : Phrase}
    {operand : Rule Expr} {build : Expr → ω → Nat → Expr → Expr}
    (hoperand : TakesAll loop size stops p operand)
    (hoperator : ∀ u, Derives loop operator u →
      ∃ t op, u = [t] ∧ operator? t = some op ∧ ∀ r, stops (t :: r))
    (hr : stops r) (havoids : Avoids (fun t => (operator? t).isSome) r)
    (heof : ∀ t, t.kind = .eof → operator? t = none) {budget : Nat} {e : Expr}
    (hbudget : w.length < budget) (hsize : w.length < size)
    (hw : Derives loop (.many none (.seq [operator, p])) w) :
    Takes loop (leftNested operator? operand build budget e) w r fun whole =>
      w = [] → whole = e := by
  induction budget generalizing w e with
  | zero => omega
  | succ budget ih =>
    rcases derives_many.mp hw with rfl | ⟨x, v, rfl, _, hx, hv⟩
    · refine takes_peek_avoids havoids (fun t ht => by simp [heof t ht]) fun t ht => ?_
      rw [Option.isSome_eq_false_iff, Option.isNone_iff_eq_none] at ht
      rw [ht]
      exact takes_pure fun _ => rfl
    · obtain ⟨o, u, rfl, ho, hu⟩ := derives_pair.mp hx
      obtain ⟨t, op, rfl, hop, hstops⟩ := hoperator o ho
      simp only [List.length_append, List.length_singleton] at hbudget hsize
      rw [List.append_assoc, List.singleton_append]
      refine takes_peek_cons ?_
      rw [hop]
      refine takes_advance fun _ => ?_
      -- An operand ends before the next operator, or where all of it ends.
      have hnext : stops (v ++ r) := by
        rcases derives_many.mp hv with rfl | ⟨x', v', rfl, _, hx', _⟩
        · exact hr
        · obtain ⟨o', u', rfl, ho', _⟩ := derives_pair.mp hx'
          obtain ⟨t', _, rfl, _, hstops'⟩ := hoperator o' ho'
          exact hstops' _
      refine Takes.use (hoperand u _ (by omega) hu hnext) fun right _ => ?_
      refine (ih (by omega) (by omega) hv).mono fun _ _ hempty => ?_
      simp at hempty

/-- Items up to a brace, none of which is empty or begins with one. -/
theorem takes_untilBrace {item : Rule α} (hitem : TakesAll loop size stops p item)
    (hfilled : p.nullable = false) (hstart : .symbol .rightBrace ∉ p.starts)
    (hnext : ∀ u r, Derives loop p u → stops (u ++ r)) {t : Token}
    (ht : t.kind = .symbol .rightBrace) (hr : stops (t :: r)) {budget : Nat}
    (hbudget : w.length < budget) (hsize : w.length < size) (hw : Derives loop (.many none p) w) :
    TakesUp loop (untilBrace item budget) w (t :: r) := by
  induction budget generalizing w with
  | zero => omega
  | succ budget ih =>
    rcases derives_many.mp hw with rfl | ⟨u, v, rfl, _, hu, hv⟩
    · refine takes_atSymbol ⟨t, rfl, ht⟩ (takes_atEnd.skip fun _ _ => ?_)
      exact takesUp_pure
    -- An item takes a token at least, so that the budget lasts.
    · have hne : u ≠ [] := by
        intro hempty
        rw [nullable_of_derives hu hempty] at hfilled
        cases hfilled
      have hpositive := List.length_pos_iff.mpr hne
      rw [List.length_append] at hbudget hsize
      have hstops : stops (v ++ t :: r) := by
        rcases derives_many.mp hv with rfl | ⟨u', v', rfl, _, hu', _⟩
        · exact hr
        · rw [List.append_assoc]
          exact hnext u' _ hu'
      refine takes_atSymbol_avoids ?_ (takes_atEnd.skip fun atEnd hend => ?_)
      · rw [List.append_assoc]
        exact (avoids_symbol hu hstart).append hne
      · have hmore : atEnd = false := by
          rw [hend]
          simp
        rw [hmore]
        refine Takes.use (hitem u _ (by omega) hu hstops) fun a _ => ?_
        exact (ih (by omega) (by omega) hv).last fun _ _ => takesUp_pure

end

end Grammar

end LoxLang
