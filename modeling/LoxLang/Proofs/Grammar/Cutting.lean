import LoxLang.Proofs.Grammar.Places
import LoxLang.Proofs.Grammar.Progress

/-!
# Two texts beside each other

A text that ends with a `!` is read beside one that has an operator there and goes on (`Cut`). Up to
this place both are read in the same way (`Cut.InStep`). If an operand may begin there, the `!` is
taken for one and lacks its own; in the longer text the operator is then in the place of an operand
(`Cut.Heard`). If not, the shorter text lacks no operand to its end (`Cut.Ended`). What a rule has
to say about this adds up over its parts (`Cut.Reports`), and with it where in a text its own
problems are (`Explained`).
-/

namespace LoxLang

namespace Grammar

variable {α β : Type}

/-! ## What is reported -/

/-- What a reading reports is an operand missing at the end of the text. -/
def Lacks (problems : List Problem) : Prop :=
  ∃ p ∈ problems, p.cause = .missingExpression ∧ p.token.isEof = true

/-- The rule that reads the operands of a level's operators. -/
def Level.operand (inner : Rules) : Level → Rule Expr
  | equality => Grammar.comparison inner
  | comparison => Grammar.term inner
  | term => Grammar.factor inner
  | factor => unary inner

/-- What an operand of a level's operators is derived from. -/
def Level.operandNonterminal : Level → Nonterminal
  | equality => .comparison
  | comparison => .term
  | term => .factor
  | factor => .unary

/-- A well-formed operand of an operator begins some tokens, and what is behind it does not
continue it. -/
def OperandFollows (t : Token) (tokens : List Token) : Prop :=
  ∃ level : Level, (level.operator? t).isSome = true ∧ ∃ w r, tokens = w ++ r ∧
    Derives false (.of level.operandNonterminal) w ∧ Ends (level.strength - 1) r

/-- A problem with an operator that has no left operand is reported at a place of an operand, and
says so only if the rule for that place knows the operator. -/
def Explained (whole : List Token) (p : Problem) : Prop :=
  p.cause = .missingLeftOperand ∨ p.cause = .missingExpression ∧ NeedsLeft p.token →
    NeedsLeft p.token ∧ ∃ before after k, whole = before ++ p.token :: after ∧
      OperandLevel before k ∧ (p.cause = .missingLeftOperand ↔ strength p.token ≤ k)

/-- All problems that a rule leaves behind, the one that it fails with included. -/
def told : EStateM.Result Problem Cursor α → List Problem
  | .ok _ c => c.problems
  | .error p c => c.problems ++ [p]

/-- A rule drops no problems. -/
def Grows (rule : Rule α) : Prop :=
  ∀ c : Cursor, c.problems ⊆ told (rule c)

/-! ## Two texts -/

/-- A text that ends with a `!`, and what stands in its place in a longer one: an operator that
needs an operand to its left, and further tokens. -/
structure Cut where
  whole : List Token
  probe : Token
  next : Token
  rest : List Token
  marks : ∀ t ∈ whole, t.isEof = false
  bang : probe.kind = .symbol .bang
  needs : NeedsLeft next

/-- The longer text has the operator in the place of an operand, and this is reported: where the
rule for the place knows the operator, as its left operand missing if another one follows, and
otherwise as anything else that is no operand. -/
def Cut.Heard (cut : Cut) (problems : List Problem) : Prop :=
  ∃ k, AtOperand cut.whole [cut.probe] k ∧
    (strength cut.next ≤ k → OperandFollows cut.next cut.rest →
      ⟨cut.next, .missingLeftOperand⟩ ∈ problems) ∧
    (k < strength cut.next → ⟨cut.next, .missingExpression⟩ ∈ problems)

/-- The cursors of both texts at the same token. -/
structure Cut.Beside (cut : Cut) (c d : Cursor) : Prop where
  rest : ∃ w, c.rest = w ++ [cut.probe] ∧ d.rest = w ++ cut.next :: cut.rest
  loopDepth : d.loopDepth = c.loopDepth
  nextId : d.nextId = c.nextId

/-- A rule comes to the same in both texts. -/
inductive Cut.InStep (cut : Cut) : (R R' : EStateM.Result Problem Cursor α) → Prop
  | ok {a : α} {c d : Cursor} (beside : cut.Beside c d) : InStep cut (.ok a c) (.ok a d)
  | error {p q : Problem} {c d : Cursor} (beside : cut.Beside c d) :
      InStep cut (.error p c) (.error q d)

/-- Where a rule that lacks no operand may leave the shorter text, if the longer one is read in
another way meanwhile. -/
inductive Stop
  | never
  | atProbe
  | atEnd

def Cut.StopsAt (cut : Cut) : Stop → List Token → Prop
  | .never, _ => False
  | .atProbe, rest => rest = [cut.probe]
  | .atEnd, rest => rest = []

/-- A rule comes to the end of the shorter text. -/
inductive Cut.Ended (cut : Cut) (stop : Stop) : (R : EStateM.Result Problem Cursor α) → Prop
  | ok {a : α} {c : Cursor} (stops : cut.StopsAt stop c.rest) : Ended cut stop (.ok a c)
  | error {p : Problem} {c : Cursor} (few : c.rest.length ≤ 1) : Ended cut stop (.error p c)

/-- What a rule comes to in both texts: the shorter one does not lack an operand, or the longer one
has the operator in its place. -/
def Cut.Pairs (cut : Cut) (stop : Stop) (R R' : EStateM.Result Problem Cursor α) : Prop :=
  ¬Lacks (told R) ∧ (cut.InStep R R' ∨ cut.Ended stop R) ∨ cut.Heard (told R')

/-- Where another rule has left the shorter text, a rule lacks no operand. -/
def Cut.Mutes (cut : Cut) (start stop : Stop) (rule : Rule α) : Prop :=
  ∀ c : Cursor, cut.StopsAt start c.rest → ¬Lacks c.problems →
    ¬Lacks (told (rule c)) ∧ cut.Ended stop (rule c)

/-- Everything that is reported is explained. -/
def Cut.Accounted (cut : Cut) (problems : List Problem) : Prop :=
  ∀ p ∈ problems, Explained cut.whole p

/-- What a rule has to say where it starts at a cursor. It reads `taken` tokens at least if it finds
something, and `post` holds of what is left. -/
structure Cut.ReportsAt (cut : Cut) (c : Cursor) (taken : Nat) (post : List Token → Prop)
    (stop : Stop) (rule : Rule α) : Prop where
  reads : Ensures rule c
    (fun _ c' => c.Onward taken c' ∧ cut.Accounted c'.problems ∧ post c'.rest)
    fun p c' => c.Onward 0 c' ∧ cut.Accounted (c'.problems ++ [p])
  pairs : ∀ d, cut.Beside c d → ¬Lacks c.problems → cut.Pairs stop (rule c) (rule d)

/-- A cursor in the shorter text, with less than `room` left in the longer one. -/
structure Cut.Standing (cut : Cut) (room : Nat) (c : Cursor) : Prop where
  room : c.rest.length + cut.rest.length < room
  within : c.rest <:+ cut.whole
  accounted : cut.Accounted c.problems

/-- What a rule has to say where it starts in the text and `pre` holds of what is left. -/
structure Cut.Reports (cut : Cut) (room : Nat) (pre : List Token → Prop) (taken : Nat)
    (post : List Token → Prop) (stop : Stop) (rule : Rule α) : Prop where
  grows : Grows rule
  here : ∀ c, cut.Standing room c → pre c.rest → cut.ReportsAt c taken post stop rule

/-- The same of a rule that starts at a given token. -/
structure Cut.ReportsBefore (cut : Cut) (t : Token) (room : Nat) (pre : List Token → Prop)
    (taken : Nat) (post : List Token → Prop) (stop : Stop) (rule : Rule α) : Prop where
  grows : Grows rule
  here : ∀ c rest, c.rest = t :: rest → cut.Standing room c → pre c.rest →
    cut.ReportsAt c taken post stop rule

/-! ## One rule after the other -/

section

variable {c c' : Cursor} {rule : Rule α} {next : α → Rule β} {a : α} {p : Problem}

theorem Grows.bind (h : Grows rule) (h' : ∀ a, Grows (next a)) : Grows (rule >>= next) := by
  intro c
  have hfirst := h c
  cases hrun : rule c with
  | ok a c' =>
    rw [hrun] at hfirst
    rw [bind_of_ok hrun]
    exact List.Subset.trans hfirst (h' a c')
  | error p c' =>
    rw [hrun] at hfirst
    rw [bind_of_error hrun]
    exact hfirst

end

section

variable {cut : Cut} {room taken first : Nat} {pre mid post : List Token → Prop}
  {start stop stop' : Stop} {rule : Rule α} {next : α → Rule β} {problems problems' : List Problem}

theorem Cut.Heard.mono (h : cut.Heard problems) (hsub : problems ⊆ problems') :
    cut.Heard problems' := by
  obtain ⟨k, hlevel, hknown, hother⟩ := h
  exact ⟨k, hlevel, fun hk hfollows => hsub (hknown hk hfollows), fun hk => hsub (hother hk)⟩

theorem Cut.Standing.onward {c c' : Cursor} (h : cut.Standing room c) (honward : c.Onward taken c')
    (haccounted : cut.Accounted c'.problems) : cut.Standing (room - taken) c' where
  room := by
    have := h.room
    have := honward.taken
    omega
  within := honward.rest.trans h.within
  accounted := haccounted

/-- One rule after the other in both texts. -/
theorem Cut.Pairs.bind {c d : Cursor} (h : cut.Pairs start (rule c) (rule d))
    (hgrows : ∀ a, Grows (next a)) (hmutes : ∀ a, cut.Mutes start stop (next a))
    (hstep : ∀ a c' d', rule c = .ok a c' → cut.Beside c' d' → ¬Lacks c'.problems →
      cut.Pairs stop (next a c') (next a d')) :
    cut.Pairs stop ((rule >>= next) c) ((rule >>= next) d) := by
  unfold Cut.Pairs at h
  generalize hR : rule c = R at h
  generalize hR' : rule d = R' at h
  rcases h with ⟨hsilent, hsame | hended⟩ | hheard
  · cases hsame with
    | @ok a c' d' hbeside =>
      rw [bind_of_ok hR, bind_of_ok hR']
      exact hstep a c' d' hR hbeside hsilent
    | @error p q c' d' hbeside =>
      rw [bind_of_error hR, bind_of_error hR']
      exact .inl ⟨hsilent, .inl (.error hbeside)⟩
  · -- The shorter text has been left alone, and nothing is missing up to its end.
    cases hended with
    | @ok a c' hstops =>
      obtain ⟨hsilent', hended'⟩ := hmutes a c' hstops hsilent
      rw [bind_of_ok hR]
      exact .inl ⟨hsilent', .inr hended'⟩
    | @error p c' hfew =>
      rw [bind_of_error hR]
      exact .inl ⟨hsilent, .inr (.error hfew)⟩
  · refine .inr ?_
    cases R' with
    | ok a d' =>
      rw [bind_of_ok hR']
      exact hheard.mono (hgrows a d')
    | error q d' =>
      rw [bind_of_error hR']
      exact hheard

/-- One rule after the other. Where the first may leave the shorter text, the second must not lack
an operand. -/
theorem Cut.Reports.close (h : cut.Reports room pre first mid start rule)
    (h' : ∀ a, cut.Reports (room - first) mid (taken - first) post stop (next a))
    (hmutes : ∀ a, cut.Mutes start stop (next a)) :
    cut.Reports room pre taken post stop (rule >>= next) where
  grows := h.grows.bind fun a => (h' a).grows
  here c hstanding hpre := by
    obtain ⟨hreads, hpairs⟩ := h.here c hstanding hpre
    have hsecond : ∀ a c', rule c = .ok a c' →
        c.Onward first c' ∧ cut.ReportsAt c' (taken - first) post stop (next a) := by
      intro a c' hrun
      obtain ⟨honward, haccounted, hmid⟩ := hreads.of_ok hrun
      exact ⟨honward, (h' a).here c' (hstanding.onward honward haccounted) hmid⟩
    refine ⟨?_, fun d hbeside hsilent => ?_⟩
    · refine hreads.outcome.bind ?_
      rintro a c' ⟨-, hrun⟩
      obtain ⟨honward, hat⟩ := hsecond a c' hrun
      refine hat.reads.mono ?_ ?_
      · rintro b c'' ⟨honward', haccounted, hpost⟩
        exact ⟨honward.trans honward' (by omega), haccounted, hpost⟩
      · rintro p c'' ⟨honward', haccounted⟩
        exact ⟨honward.trans honward' (Nat.zero_le _), haccounted⟩
    · exact (hpairs d hbeside hsilent).bind (fun a => (h' a).grows) hmutes
        fun a c' d' hrun => (hsecond a c' hrun).2.pairs d'

/-- One rule after the other, the first of which never leaves the shorter text alone. -/
theorem Cut.Reports.use (h : cut.Reports room pre first mid .never rule)
    (h' : ∀ a, cut.Reports (room - first) mid (taken - first) post stop (next a)) :
    cut.Reports room pre taken post stop (rule >>= next) :=
  h.close h' fun _ _ hnever => hnever.elim

theorem Cut.Pairs.mono {R R' : EStateM.Result Problem Cursor α} (h : cut.Pairs stop R R')
    (hstop : ∀ rest, cut.StopsAt stop rest → cut.StopsAt stop' rest) : cut.Pairs stop' R R' := by
  rcases h with ⟨hsilent, hstep | hended⟩ | hheard
  · exact .inl ⟨hsilent, .inl hstep⟩
  · refine .inl ⟨hsilent, .inr ?_⟩
    cases hended with
    | ok hstops => exact .ok (hstop _ hstops)
    | error hfew => exact .error hfew
  · exact .inr hheard

theorem Cut.Reports.mono {room' taken' : Nat} {pre' post' : List Token → Prop}
    (h : cut.Reports room pre taken post stop rule) (hroom : room' ≤ room)
    (htaken : taken' ≤ taken) (hpre : ∀ rest, pre' rest → pre rest)
    (hpost : ∀ rest, post rest → post' rest)
    (hstop : ∀ rest, cut.StopsAt stop rest → cut.StopsAt stop' rest) :
    cut.Reports room' pre' taken' post' stop' rule where
  grows := h.grows
  here c hstanding hc := by
    have hstanding' : cut.Standing room c :=
      ⟨Nat.lt_of_lt_of_le hstanding.room hroom, hstanding.within, hstanding.accounted⟩
    obtain ⟨hreads, hpairs⟩ := h.here c hstanding' (hpre _ hc)
    refine ⟨hreads.mono ?_ fun _ _ => id, fun d hbeside hsilent =>
      (hpairs d hbeside hsilent).mono hstop⟩
    rintro a c' ⟨honward, haccounted, hpost'⟩
    exact ⟨honward.mono htaken, haccounted, hpost _ hpost'⟩

theorem Cut.Reports.less {room' taken' : Nat}
    (h : cut.Reports room pre taken post stop rule) (hroom : room' ≤ room)
    (htaken : taken' ≤ taken) : cut.Reports room' pre taken' post stop rule :=
  h.mono hroom htaken (fun _ => id) (fun _ => id) fun _ => id

/-- How many tokens are read may be forgotten. -/
theorem Cut.Reports.uncounted (h : cut.Reports room pre taken post stop rule) :
    cut.Reports room pre 0 post stop rule :=
  h.less (Nat.le_refl _) (Nat.zero_le _)

theorem Cut.Reports.loosely (h : cut.Reports room pre taken post .never rule) :
    cut.Reports room pre taken post stop rule :=
  h.mono (Nat.le_refl _) (Nat.le_refl _) (fun _ => id) (fun _ => id) fun _ hnever => hnever.elim

theorem Cut.Reports.leaves {post' : List Token → Prop}
    (h : cut.Reports room pre taken post stop rule) (hpost : ∀ rest, post rest → post' rest) :
    cut.Reports room pre taken post' stop rule :=
  h.mono (Nat.le_refl _) (Nat.le_refl _) (fun _ => id) hpost fun _ => id

theorem Cut.Reports.entered {pre' : List Token → Prop}
    (h : cut.Reports room pre taken post stop rule) (hpre : ∀ rest, pre' rest → pre rest) :
    cut.Reports room pre' taken post stop rule :=
  h.mono (Nat.le_refl _) (Nat.le_refl _) hpre (fun _ => id) fun _ => id

end

/-! ## Primitive rules -/

section

variable {cut : Cut} {room taken : Nat} {pre post : List Token → Prop} {start stop : Stop}

theorem Cut.StopsAt.few {rest : List Token} (h : cut.StopsAt stop rest) : rest.length ≤ 1 := by
  cases stop with
  | never => exact h.elim
  | atProbe =>
    obtain rfl : rest = [cut.probe] := h
    exact Nat.le_refl 1
  | atEnd =>
    obtain rfl : rest = [] := h
    exact Nat.zero_le 1

theorem grows_pure (a : α) : Grows (pure a : Rule α) :=
  fun _ => List.Subset.refl _

theorem mutes_pure (a : α) : cut.Mutes start start (pure a : Rule α) :=
  fun _ hstops hsilent => ⟨hsilent, .ok hstops⟩

theorem reports_pure {a : α} (h : ∀ rest, pre rest → post rest) :
    cut.Reports room pre 0 post stop (pure a) where
  grows := grows_pure a
  here _ hstanding hpre :=
    { reads := ⟨Cursor.onward_of_rest rfl, hstanding.accounted, h _ hpre⟩
      pairs := fun _ hbeside hsilent => .inl ⟨hsilent, .inl (.ok hbeside)⟩ }

/-- A problem of another kind. -/
def Harmless (cause : Cause) : Prop :=
  cause ≠ .missingExpression ∧ cause ≠ .missingLeftOperand

theorem Harmless.explained {p : Problem} (h : Harmless p.cause) {whole : List Token} :
    Explained whole p := by
  rintro (hleft | ⟨hmissing, -⟩)
  · exact absurd hleft h.2
  · exact absurd hmissing h.1

theorem Cut.Accounted.append {problems : List Problem} {p : Problem}
    (h : cut.Accounted problems) (hp : Explained cut.whole p) :
    cut.Accounted (problems ++ [p]) := by
  intro q hq
  rcases List.mem_append.mp hq with hmem | hmem
  · exact h q hmem
  · rw [List.mem_singleton.mp hmem]
    exact hp

theorem not_lacks_append {problems : List Problem} {p : Problem} (h : ¬Lacks problems)
    (hp : p.cause = .missingExpression → p.token.isEof = false) : ¬Lacks (problems ++ [p]) := by
  rintro ⟨q, hq, hcause, hmark⟩
  rcases List.mem_append.mp hq with hmem | hmem
  · exact h ⟨q, hmem, hcause, hmark⟩
  · rw [List.mem_singleton.mp hmem] at hcause hmark
    rw [hp hcause] at hmark
    cases hmark

theorem grows_throw (problem : Problem) : Grows (throw problem : Rule α) :=
  fun _ => List.subset_append_left _ _

theorem grows_failHere (cause : Cause) : Grows (failHere cause : Rule α) :=
  fun _ => List.subset_append_left _ _

theorem Cut.Mutes.bind {rule : Rule α} {next : α → Rule β} {stop' : Stop}
    (h : cut.Mutes start stop' rule) (h' : ∀ a, cut.Mutes stop' stop (next a)) :
    cut.Mutes start stop (rule >>= next) := by
  intro c hstops hsilent
  obtain ⟨hsilent', hends⟩ := h c hstops hsilent
  generalize hR : rule c = R at hsilent' hends
  cases hends with
  | ok hstops' =>
    rw [bind_of_ok hR]
    exact h' _ _ hstops' hsilent'
  | error hfew =>
    rw [bind_of_error hR]
    exact ⟨hsilent', .error hfew⟩

theorem mutes_throw {problem : Problem} (h : problem.cause ≠ .missingExpression) :
    cut.Mutes start stop (throw problem : Rule α) :=
  fun _ hstops hsilent =>
    ⟨not_lacks_append hsilent fun hcause => absurd hcause h, .error hstops.few⟩

theorem reports_throw {problem : Problem} (h : problem.cause ≠ .missingExpression)
    (hexplained : Explained cut.whole problem) :
    cut.Reports room pre taken post stop (throw problem : Rule α) where
  grows := grows_throw problem
  here _ hstanding _ :=
    { reads := ⟨Cursor.onward_of_rest rfl, hstanding.accounted.append hexplained⟩
      pairs := fun _ hbeside hsilent =>
        .inl ⟨not_lacks_append hsilent fun hcause => absurd hcause h, .inl (.error hbeside)⟩ }

theorem mutes_failHere {cause : Cause} (h : Harmless cause) :
    cut.Mutes start stop (failHere cause : Rule α) :=
  fun _ hstops hsilent =>
    ⟨not_lacks_append hsilent fun hcause => absurd hcause h.1, .error hstops.few⟩

theorem reports_failHere {cause : Cause} (h : Harmless cause) :
    cut.Reports room pre taken post stop (failHere cause : Rule α) where
  grows := grows_failHere cause
  here c hstanding _ :=
    { reads := ⟨Cursor.onward_of_rest rfl,
        hstanding.accounted.append (p := ⟨c.peek, cause⟩) h.explained⟩
      pairs := fun _ hbeside hsilent =>
        .inl ⟨not_lacks_append hsilent fun hcause => absurd hcause h.1, .inl (.error hbeside)⟩ }

theorem Cut.Reports.ite {condition : Prop} [Decidable condition] {rule other : Rule α}
    (h : condition → cut.Reports room pre taken post stop rule)
    (h' : ¬condition → cut.Reports room pre taken post stop other) :
    cut.Reports room pre taken post stop (if condition then rule else other) := by
  split
  · next hc => exact h hc
  · next hc => exact h' hc

theorem Cut.Reports.before {t : Token} {rule : Rule α}
    (h : cut.Reports room pre taken post stop rule) :
    cut.ReportsBefore t room pre taken post stop rule where
  grows := h.grows
  here c _ _ hstanding hpre := h.here c hstanding hpre

theorem Cut.ReportsBefore.ite {t : Token} {condition : Prop} [Decidable condition]
    {rule other : Rule α} (h : condition → cut.ReportsBefore t room pre taken post stop rule)
    (h' : ¬condition → cut.ReportsBefore t room pre taken post stop other) :
    cut.ReportsBefore t room pre taken post stop (if condition then rule else other) := by
  split
  · next hc => exact h hc
  · next hc => exact h' hc

theorem Cut.Reports.map {rule : Rule α} (h : cut.Reports room pre taken post stop rule)
    (f : α → β) : cut.Reports room pre taken post stop (f <$> rule) := by
  rw [map_eq_pure_bind]
  refine h.close (fun a => ?_) fun a => mutes_pure (f a)
  exact (reports_pure fun _ => id).less (Nat.le_refl _) (by omega)

theorem Cut.Mutes.map {rule : Rule α} (h : cut.Mutes start stop rule) (f : α → β) :
    cut.Mutes start stop (f <$> rule) := by
  rw [map_eq_pure_bind]
  exact h.bind fun a => mutes_pure (f a)

/-! ### Looking at a token -/

/-- A rule that does the same as another where both texts stand. -/
theorem Cut.ReportsAt.congr {c : Cursor} {rule rule' : Rule α}
    (h : cut.ReportsAt c taken post stop rule) (hc : rule' c = rule c)
    (hd : ∀ d, cut.Beside c d → rule' d = rule d) : cut.ReportsAt c taken post stop rule' where
  reads := by
    unfold Ensures
    rw [hc]
    exact h.reads
  pairs d hbeside hsilent := by
    rw [hc, hd d hbeside]
    exact h.pairs d hbeside hsilent

theorem peek_of_nil {c : Cursor} (h : c.rest = []) : c.peek.kind = .eof := by
  unfold Cursor.peek
  rw [h]

theorem peek_of_cons {c : Cursor} {t : Token} {rest : List Token} (h : c.rest = t :: rest) :
    c.peek = t := by
  unfold Cursor.peek
  rw [h]

theorem Cut.idle_probe (cut : Cut) : Idle cut.probe :=
  .inr ⟨.bang, .head _, cut.bang⟩

/-- The longer text has the same token at its cursor, unless the shorter one has only its `!`
left. -/
theorem Cut.Beside.peek {c d : Cursor} (h : cut.Beside c d) :
    c.rest = [cut.probe] ∧ d.peek = cut.next ∨ c.rest ≠ [cut.probe] ∧ d.peek = c.peek := by
  obtain ⟨w, hc, hd⟩ := h.rest
  cases w with
  | nil => exact .inl ⟨hc, peek_of_cons hd⟩
  | cons t w =>
    refine .inr ⟨by simp [hc], ?_⟩
    rw [peek_of_cons hd, peek_of_cons hc]

theorem Cut.Beside.peek_of_probe {c d : Cursor} (h : cut.Beside c d)
    (hrest : c.rest = [cut.probe]) : d.peek = cut.next := by
  rcases h.peek with ⟨-, hnext⟩ | ⟨hother, -⟩
  · exact hnext
  · exact absurd hrest hother

theorem Cut.Beside.peek_of_more {c d : Cursor} (h : cut.Beside c d)
    (hrest : c.rest ≠ [cut.probe]) : d.peek = c.peek := by
  rcases h.peek with ⟨hprobe, -⟩ | ⟨-, hsame⟩
  · exact absurd hprobe hrest
  · exact hsame

theorem Cut.Beside.tail_of_probe {c d : Cursor} (h : cut.Beside c d)
    (hrest : c.rest = [cut.probe]) : d.rest.tail = cut.rest := by
  obtain ⟨w, hc, hd⟩ := h.rest
  rw [hrest] at hc
  obtain rfl : w = [] := List.append_left_eq_self.mp hc.symm
  rw [hd]
  rfl

theorem Cut.Beside.rest_ne_nil {c d : Cursor} (h : cut.Beside c d) : c.rest ≠ [] ∧ d.rest ≠ [] := by
  obtain ⟨w, hc, hd⟩ := h.rest
  rw [hc, hd]
  constructor <;> simp

/-- What a text may be left at. -/
def Ending (t : Token) : Prop :=
  t.kind = .eof ∨ t.kind = .symbol .bang

theorem Ending.idle {t : Token} (h : Ending t) : Idle t :=
  h.imp_right fun hkind => ⟨.bang, .head _, hkind⟩

theorem Ending.isSymbol {t : Token} (h : Ending t) {symbol : Symbol} (hsymbol : symbol ≠ .bang) :
    isSymbol symbol t = false := by
  rcases h with hkind | hkind
  · simp [Grammar.isSymbol, hkind]
  · simpa [Grammar.isSymbol, hkind] using Ne.symm hsymbol

theorem Ending.isWord {t : Token} (h : Ending t) (word : Keyword) : isWord word t = false := by
  rcases h with hkind | hkind <;> simp [Grammar.isWord, hkind]

theorem Cut.StopsAt.ending {c : Cursor} (h : cut.StopsAt stop c.rest) : Ending c.peek := by
  cases stop with
  | never => exact h.elim
  | atProbe =>
    rw [peek_of_cons (show c.rest = cut.probe :: [] from h)]
    exact .inr cut.bang
  | atEnd => exact .inl (peek_of_nil h)

/-- The token at the cursor is looked at, where it is not what the shorter text may be left at. -/
theorem Cut.ReportsBefore.look {c : Cursor} {next : Token → Rule α} (hpeek : ¬Ending c.peek)
    (h : cut.ReportsBefore c.peek room pre taken post stop (next c.peek))
    (hstanding : cut.Standing room c) (hpre : pre c.rest) :
    cut.ReportsAt c taken post stop (Grammar.peek >>= next) := by
  cases hrest : c.rest with
  | nil => exact absurd (.inl (peek_of_nil hrest)) hpeek
  | cons s rest =>
    have hcons : c.rest = c.peek :: rest := by rw [peek_of_cons hrest, hrest]
    have hmore : c.rest ≠ [cut.probe] := by
      intro hprobe
      rw [peek_of_cons hprobe] at hpeek
      exact hpeek (.inr cut.bang)
    refine (h.here c rest hcons hstanding hpre).congr rfl fun d hbeside => ?_
    show next d.peek d = next c.peek d
    rw [hbeside.peek_of_more hmore]

/-- The token at the cursor may be looked at, if a rule goes on in one way from all that stands for
the end of a text. -/
theorem Cut.Reports.peek {next : Token → Rule α} (idle : Rule α)
    (hidle : ∀ s, Idle s → next s = idle) (h : cut.Reports room pre taken post stop idle)
    (h' : ∀ s, ¬Idle s → cut.ReportsBefore s room pre taken post stop (next s)) :
    cut.Reports room pre taken post stop (Grammar.peek >>= next) where
  grows c := by
    show c.problems ⊆ told (next c.peek c)
    by_cases hc : Idle c.peek
    · rw [hidle _ hc]
      exact h.grows c
    · exact (h' _ hc).grows c
  here c hstanding hpre := by
    have hrun (d : Cursor) : (Grammar.peek >>= next) d = next d.peek d := rfl
    by_cases hpeek : Idle c.peek
    · refine (h.here c hstanding hpre).congr ?_ fun d hbeside => ?_
      · rw [hrun, hidle _ hpeek]
      · rcases hbeside.peek with ⟨-, hnext⟩ | ⟨-, hsame⟩
        · rw [hrun, hnext, hidle _ (idle_of_needsLeft cut.needs)]
        · rw [hrun, hsame, hidle _ hpeek]
    · exact (h' _ hpeek).look (mt Ending.idle hpeek) hstanding hpre

theorem mutes_peek {next : Token → Rule α} (ended : Rule α)
    (hended : ∀ s, Ending s → next s = ended) (h : cut.Mutes start stop ended) :
    cut.Mutes start stop (Grammar.peek >>= next) := by
  intro c hstops hsilent
  show ¬Lacks (told (next c.peek c)) ∧ cut.Ended stop (next c.peek c)
  rw [hended _ hstops.ending]
  exact h c hstops hsilent

/-- The token at the cursor may be looked at by a rule that lacks nothing at the end of the shorter
text, whatever it does in the longer one. -/
theorem Cut.Reports.peekLoose {next : Token → Rule α} (ended : Rule α)
    (hended : ∀ s, Ending s → next s = ended) (h : cut.Reports room pre taken post stop ended)
    (hmutes : cut.Mutes .atProbe stop ended)
    (h' : ∀ s, ¬Ending s → cut.ReportsBefore s room pre taken post stop (next s)) :
    cut.Reports room pre taken post stop (Grammar.peek >>= next) where
  grows c := by
    show c.problems ⊆ told (next c.peek c)
    by_cases hc : Ending c.peek
    · rw [hended _ hc]
      exact h.grows c
    · exact (h' _ hc).grows c
  here c hstanding hpre := by
    have hrun (d : Cursor) : (Grammar.peek >>= next) d = next d.peek d := rfl
    by_cases hpeek : Ending c.peek
    · obtain ⟨hreads, hpairs⟩ := h.here c hstanding hpre
      refine ⟨?_, fun d hbeside hsilent => ?_⟩
      · unfold Ensures
        rw [hrun, hended _ hpeek]
        exact hreads
      -- Where the longer text has its operator the shorter one ends, and nothing is reported to be
      -- missing there.
      · rcases hbeside.peek with ⟨hprobe, -⟩ | ⟨-, hsame⟩
        · obtain ⟨hsilent', hends⟩ := hmutes c hprobe hsilent
          rw [hrun, hended _ hpeek]
          exact .inl ⟨hsilent', .inr hends⟩
        · rw [hrun, hrun, hsame, hended _ hpeek]
          exact hpairs d hbeside hsilent
    · exact (h' _ hpeek).look hpeek hstanding hpre

/-- Both texts stand behind a token, unless it is the one that ends the shorter text. -/
theorem Cut.Beside.tail {c d : Cursor} (h : cut.Beside c d) (hmore : c.rest ≠ [cut.probe]) :
    cut.Beside { c with rest := c.rest.tail } { d with rest := d.rest.tail } := by
  obtain ⟨w, hc, hd⟩ := h.rest
  cases w with
  | nil => exact absurd hc hmore
  | cons s w =>
    refine ⟨⟨w, ?_, ?_⟩, h.loopDepth, h.nextId⟩
    · show c.rest.tail = _
      rw [hc]
      rfl
    · show d.rest.tail = _
      rw [hd]
      rfl

/-- Behind the token at the cursor. -/
theorem Cut.ReportsAt.advance {c : Cursor} {t : Token} {rest : List Token}
    {mid : List Token → Prop} {next : Unit → Rule α} (hrest : c.rest = t :: rest)
    (hmore : c.rest ≠ [cut.probe]) (hmid : mid rest)
    (hstanding : cut.Standing room c)
    (h : cut.Reports (room - 1) mid (taken - 1) post stop (next ())) :
    cut.ReportsAt c taken post stop (Grammar.advance >>= next) := by
  have hstep : c.Onward 1 { c with rest := c.rest.tail } := by
    refine ⟨List.tail_suffix c.rest, ?_⟩
    show c.rest.tail.length + 1 ≤ c.rest.length
    rw [hrest]
    exact Nat.le_refl _
  have hpre : mid c.rest.tail := by
    rw [hrest]
    exact hmid
  obtain ⟨hreads, hpairs⟩ := h.here _ (hstanding.onward hstep hstanding.accounted) hpre
  refine ⟨hreads.mono ?_ ?_, fun d hbeside hsilent => ?_⟩
  · rintro a c' ⟨honward, haccounted, hpost⟩
    exact ⟨hstep.trans honward (by omega), haccounted, hpost⟩
  · rintro p c' ⟨honward, haccounted⟩
    exact ⟨hstep.trans honward (Nat.zero_le _), haccounted⟩
  · exact hpairs { d with rest := d.rest.tail } (hbeside.tail hmore) hsilent

theorem Cut.ReportsBefore.advance {t : Token} {mid : List Token → Prop} {next : Unit → Rule α}
    (ht : t.kind ≠ .symbol .bang)
    (hmid : ∀ rest, t :: rest <:+ cut.whole → pre (t :: rest) → mid rest)
    (h : cut.Reports (room - 1) mid (taken - 1) post stop (next ())) :
    cut.ReportsBefore t room pre taken post stop (Grammar.advance >>= next) where
  grows c := h.grows { c with rest := c.rest.tail }
  here c rest hrest hstanding hpre := by
    refine .advance hrest (fun hprobe => ?_)
      (hmid rest (hrest ▸ hstanding.within) (hrest ▸ hpre)) hstanding h
    rw [hrest] at hprobe
    obtain ⟨rfl, -⟩ := List.cons.inj hprobe
    exact ht cut.bang

theorem ne_bang_of_isSymbol {t : Token} {s : Symbol} (ht : isSymbol s t = true)
    (hs : s ∉ operators) : t.kind ≠ .symbol .bang := by
  rw [kind_of_isSymbol ht]
  intro hkind
  obtain rfl := Token.Kind.symbol.inj hkind
  exact hs (.head _)

/-- Behind a symbol that is no operator. -/
theorem Cut.ReportsBefore.advanceSymbol {t : Token} {s : Symbol} {next : Unit → Rule α}
    (ht : isSymbol s t = true) (hs : s ∉ operators)
    (h : cut.Reports (room - 1) (Fresh cut.whole) (taken - 1) post stop (next ())) :
    cut.ReportsBefore t room pre taken post stop (Grammar.advance >>= next) :=
  .advance (ne_bang_of_isSymbol ht hs)
    (fun _ hrest _ => fresh_behind hrest (opens_of_isSymbol ht hs)) h

/-- Behind a reserved word that is no operand. -/
theorem Cut.ReportsBefore.advanceWord {t : Token} {word : Keyword} {next : Unit → Rule α}
    (ht : t.kind = .keyword word) (hword : word ∉ valueWords)
    (h : cut.Reports (room - 1) (Fresh cut.whole) (taken - 1) post stop (next ())) :
    cut.ReportsBefore t room pre taken post stop (Grammar.advance >>= next) :=
  .advance (by simp [ht])
    (fun _ hrest _ => fresh_behind hrest (by simpa [opensOperand, ht] using hword)) h

/-- Behind what is an operand by itself. -/
theorem Cut.ReportsBefore.advanceValue {t : Token} {next : Unit → Rule α}
    (hbang : t.kind ≠ .symbol .bang) (ht : endsOperand t = true)
    (h : cut.Reports (room - 1) (BehindOperand cut.whole) (taken - 1) post stop (next ())) :
    cut.ReportsBefore t room pre taken post stop (Grammar.advance >>= next) :=
  .advance hbang (fun _ hrest _ => behindOperand_of_ends hrest ht) h

/-! ### Reading a token -/

theorem bang_joiners_subset : Symbol.bang :: joiners ⊆ operators := by decide

theorem reports_atSymbol {symbol : Symbol} (hs : symbol ∉ operators) :
    cut.Reports room pre 0 pre stop (atSymbol symbol) := by
  have hpure (found : Bool) : cut.Reports room pre 0 pre stop (pure found) :=
    reports_pure fun _ => id
  refine .peek _ (fun s hidle => ?_) (hpure false) fun s _ => (hpure _).before
  rw [hidle.isSymbol fun hmem => hs (bang_joiners_subset hmem)]

/-- A symbol that is no operator is stepped over, or another way is taken. -/
theorem Cut.Reports.accept {symbol : Symbol} {next : Bool → Rule β} (hs : symbol ∉ operators)
    (found : cut.Reports (room - 1) (Fresh cut.whole) (taken - 1) post stop (next true))
    (other : cut.Reports room pre taken post stop (next false)) :
    cut.Reports room pre taken post stop (Grammar.accept symbol >>= next) := by
  unfold Grammar.accept atSymbol
  simp only [bind_assoc, pure_bind]
  refine .peek (next false) (fun s hidle => ?_) other fun s _ => ?_
  · rw [hidle.isSymbol fun hmem => hs (bang_joiners_subset hmem), if_neg (by decide), pure_bind]
  · by_cases h : isSymbol symbol s = true
    · simp only [h, if_true, bind_assoc, pure_bind]
      exact .advanceSymbol h hs found
    · rw [if_neg h, pure_bind]
      exact other.before

/-- The same of any symbol that is no `!`, where nothing is lacking without it. -/
theorem Cut.Reports.acceptLoose {symbol : Symbol} {next : Bool → Rule β} (hs : symbol ≠ .bang)
    (found : cut.Reports (room - 1) (fun _ => True) (taken - 1) post stop (next true))
    (other : cut.Reports room pre taken post stop (next false))
    (hmutes : cut.Mutes .atProbe stop (next false)) :
    cut.Reports room pre taken post stop (Grammar.accept symbol >>= next) := by
  unfold Grammar.accept atSymbol
  simp only [bind_assoc, pure_bind]
  refine .peekLoose (next false) (fun s hend => ?_) other hmutes fun s hend => ?_
  · rw [hend.isSymbol hs, if_neg (by decide), pure_bind]
  · by_cases h : isSymbol symbol s = true
    · simp only [h, if_true, bind_assoc, pure_bind]
      exact .advance (fun hkind => hend (.inr hkind)) (fun _ _ _ => trivial) found
    · rw [if_neg h, pure_bind]
      exact other.before

theorem mutes_accept {symbol : Symbol} {next : Bool → Rule β} (hs : symbol ≠ .bang)
    (h : cut.Mutes start stop (next false)) :
    cut.Mutes start stop (Grammar.accept symbol >>= next) := by
  unfold Grammar.accept atSymbol
  simp only [bind_assoc, pure_bind]
  refine mutes_peek (next false) (fun s hend => ?_) h
  rw [hend.isSymbol hs, if_neg (by decide), pure_bind]

theorem Landmark.no_operator (landmark : Landmark) : landmark.symbol ∉ operators := by
  cases landmark <;> simp [Landmark.symbol, operators, joiners]

theorem harmless_missing (landmark : Landmark) : Harmless (.missing landmark) :=
  ⟨by simp, by simp⟩

theorem reports_landmark (landmark : Landmark)
    (hpost : ∀ t rest, isSymbol landmark.symbol t = true → t :: rest <:+ cut.whole → post rest) :
    cut.Reports room pre 1 post stop (expect landmark) := by
  have hs := Landmark.no_operator landmark
  refine .peek _ (fun s hidle => ?_) (reports_failHere (harmless_missing landmark)) fun s _ => ?_
  · rw [hidle.isSymbol fun hmem => hs (bang_joiners_subset hmem), if_neg (by decide)]
  · refine .ite (fun h => ?_) fun _ => (reports_failHere (harmless_missing landmark)).before
    exact .advance (ne_bang_of_isSymbol h hs) (fun rest hrest _ => hpost s rest h hrest)
      (reports_pure fun _ => id)

theorem reports_expect (landmark : Landmark) :
    cut.Reports room pre 1 (Fresh cut.whole) stop (expect landmark) :=
  reports_landmark landmark fun _ _ ht hrest =>
    fresh_behind hrest (opens_of_isSymbol ht (Landmark.no_operator landmark))

/-- Behind a closing parenthesis or brace. -/
def Cut.Closed (cut : Cut) (rest : List Token) : Prop :=
  Fresh cut.whole rest ∧ BehindOperand cut.whole rest

theorem reports_closing {landmark : Landmark}
    (h : landmark.symbol = .rightParen ∨ landmark.symbol = .rightBrace) :
    cut.Reports room pre 1 cut.Closed stop (expect landmark) := by
  refine reports_landmark landmark fun t rest ht hrest => ⟨?_, ?_⟩
  · exact fresh_behind hrest (opens_of_isSymbol ht (Landmark.no_operator landmark))
  · exact behindOperand_of_ends hrest (by simpa [endsOperand, kind_of_isSymbol ht] using h)

theorem mutes_expect (landmark : Landmark) {next : Nat → Rule β} :
    cut.Mutes start stop (expect landmark >>= next) := by
  have hexpect : cut.Mutes start .never (expect landmark) := by
    refine mutes_peek (failHere (.missing landmark)) (fun s hend => ?_)
      (mutes_failHere (harmless_missing landmark))
    have hbang : landmark.symbol ≠ .bang := fun hbang =>
      Landmark.no_operator landmark (by rw [hbang]; exact .head _)
    rw [hend.isSymbol hbang, if_neg (by decide)]
  exact hexpect.bind fun _ _ hnever => hnever.elim

theorem reports_expectName (role : NameRole) :
    cut.Reports room pre 1 (BehindOperand cut.whole) stop (expectName role) := by
  have hfail : cut.Reports room pre 1 (BehindOperand cut.whole) stop
      (failHere (.missingName role) : Rule Name) := reports_failHere ⟨by simp, by simp⟩
  refine .peek _ (fun s hidle => ?_) hfail fun s _ => ?_
  · rcases hidle with hkind | ⟨symbol, -, hkind⟩ <;> simp [hkind]
  · split
    · next name hkind =>
      exact .advanceValue (by simp [hkind]) (by simp [endsOperand, hkind])
        (reports_pure fun _ => id)
    · exact hfail.before

/-- A word is stepped over, or another way is taken. -/
theorem Cut.Reports.acceptWord {next : Bool → Rule β} {word : Keyword} (hword : word ∉ valueWords)
    (found : cut.Reports (room - 1) (Fresh cut.whole) (taken - 1) post stop (next true))
    (other : cut.Reports room pre taken post stop (next false)) :
    cut.Reports room pre taken post stop (Grammar.acceptWord word >>= next) := by
  unfold Grammar.acceptWord
  simp only [bind_assoc]
  refine .peek (next false) (fun s hidle => ?_) other fun s _ => ?_
  · rw [hidle.isWord, if_neg (by decide), pure_bind]
  · by_cases h : isWord word s = true
    · simp only [h, if_true, bind_assoc, pure_bind]
      exact .advanceWord (kind_of_isWord h) hword found
    · rw [if_neg h, pure_bind]
      exact other.before

theorem mutes_acceptWord {word : Keyword} {next : Bool → Rule β}
    (h : cut.Mutes start stop (next false)) :
    cut.Mutes start stop (Grammar.acceptWord word >>= next) := by
  unfold Grammar.acceptWord
  simp only [bind_assoc]
  refine mutes_peek (next false) (fun s hend => ?_) h
  rw [hend.isWord, if_neg (by decide), pure_bind]

theorem reports_loopDepth : cut.Reports room pre 0 pre stop loopDepth where
  grows _ := List.Subset.refl _
  here c hstanding hpre :=
    { reads := ⟨Cursor.onward_of_rest rfl, hstanding.accounted, hpre⟩
      pairs := fun d hbeside hsilent => by
        have hrun : loopDepth d = .ok c.loopDepth d := by rw [← hbeside.loopDepth]; rfl
        rw [hrun]
        exact .inl ⟨hsilent, .inl (.ok hbeside)⟩ }

theorem reports_freshId : cut.Reports room pre 0 pre stop freshId where
  grows _ := List.Subset.refl _
  here c hstanding hpre :=
    { reads := ⟨Cursor.onward_of_rest rfl, hstanding.accounted, hpre⟩
      pairs := fun d hbeside hsilent => by
        have hrun : freshId d = .ok c.nextId { d with nextId := c.nextId + 1 } := by
          rw [← hbeside.nextId]
          rfl
        rw [hrun]
        exact .inl ⟨hsilent, .inl (.ok ⟨hbeside.rest, hbeside.loopDepth, rfl⟩)⟩ }

theorem reports_note {problem : Problem} (h : Harmless problem.cause) :
    cut.Reports room pre 0 pre stop (note problem) where
  grows _ := List.subset_append_left _ _
  here _ hstanding hpre :=
    { reads := ⟨Cursor.onward_of_rest rfl, hstanding.accounted.append h.explained, hpre⟩
      pairs := fun _ hbeside hsilent =>
        .inl ⟨not_lacks_append hsilent fun hcause => absurd hcause h.1,
          .inl (.ok ⟨hbeside.rest, hbeside.loopDepth, hbeside.nextId⟩)⟩ }

/-- A problem noted at the token at the cursor, whichever that is. -/
theorem reports_checkArity {cause : Cause} (h : Harmless cause) (count : Nat) :
    cut.Reports room pre 0 pre stop (checkArity cause count) := by
  refine .ite (fun _ => ?_) fun _ => reports_pure fun _ => id
  have hnote (t : Token) : cut.Reports room pre 0 pre stop (note ⟨t, cause⟩) := reports_note h
  refine ⟨fun c => (hnote c.peek).grows c, fun c hstanding hpre =>
    ⟨?_, fun d hbeside hsilent => ?_⟩⟩
  · exact ((hnote c.peek).here c hstanding hpre).reads
  · exact .inl ⟨not_lacks_append hsilent fun hcause => absurd hcause h.1,
      .inl (.ok ⟨hbeside.rest, hbeside.loopDepth, hbeside.nextId⟩)⟩

theorem reports_reference (role : NameRole) :
    cut.Reports room pre 1 (BehindOperand cut.whole) stop (reference role) :=
  (reports_expectName role).use fun _ => reports_freshId.use fun _ => reports_pure fun _ => id

/-- A function is declared where its word and a name are left. -/
def NamesFunction (tokens : List Token) : Prop :=
  ∃ line name line' rest,
    tokens = ⟨.keyword .funWord, line⟩ :: ⟨.identifier name, line'⟩ :: rest

theorem atNamedFunction_cases (c : Cursor) :
    NamesFunction c.rest ∧ Grammar.atNamedFunction c = .ok true c ∨
      ¬NamesFunction c.rest ∧ Grammar.atNamedFunction c = .ok false c := by
  unfold Grammar.atNamedFunction
  split
  · next line name line' rest hrest => exact .inl ⟨⟨line, name, line', rest, hrest⟩, rfl⟩
  · next hother =>
    refine .inr ⟨?_, rfl⟩
    rintro ⟨line, name, line', rest, hrest⟩
    exact hother line name line' rest hrest

/-- A symbol is neither the word nor the name. -/
theorem NamesFunction.instead {w r : List Token} {t : Token} {symbol : Symbol}
    (h : NamesFunction (w ++ t :: r)) (ht : t.kind = .symbol symbol) (t' : Token)
    (r' : List Token) : NamesFunction (w ++ t' :: r') := by
  obtain ⟨line, name, line', rest, hrest⟩ := h
  match w, hrest with
  | [], hrest =>
    rw [(List.cons.inj hrest).1] at ht
    cases ht
  | [_], hrest =>
    rw [(List.cons.inj (List.cons.inj hrest).2).1] at ht
    cases ht
  | s :: s' :: w, hrest =>
    obtain ⟨rfl, htail⟩ := List.cons.inj hrest
    obtain ⟨rfl, -⟩ := List.cons.inj htail
    exact ⟨line, name, line', w ++ t' :: r', rfl⟩

theorem Cut.Beside.namesFunction {c d : Cursor} (h : cut.Beside c d) :
    NamesFunction d.rest ↔ NamesFunction c.rest := by
  obtain ⟨symbol, -, hkind⟩ := kind_of_needsLeft cut.needs
  obtain ⟨w, hc, hd⟩ := h.rest
  rw [hc, hd]
  exact ⟨fun hnames => hnames.instead hkind _ _, fun hnames => hnames.instead cut.bang _ _⟩

theorem Cut.Reports.atNamedFunction {next : Bool → Rule β}
    (found : ∀ t, t.kind = .keyword .funWord →
      cut.ReportsBefore t room pre taken post stop (next true))
    (other : cut.Reports room pre taken post stop (next false)) :
    cut.Reports room pre taken post stop (Grammar.atNamedFunction >>= next) where
  grows c := by
    rcases atNamedFunction_cases c with ⟨⟨line, -⟩, hrun⟩ | ⟨-, hrun⟩
    · rw [bind_of_ok hrun]
      exact (found ⟨.keyword .funWord, line⟩ rfl).grows c
    · rw [bind_of_ok hrun]
      exact other.grows c
  here c hstanding hpre := by
    rcases atNamedFunction_cases c with ⟨hnames, hrun⟩ | ⟨hother, hrun⟩
    · obtain ⟨line, name, line', rest, hrest⟩ := hnames
      refine ((found _ rfl).here c _ hrest hstanding hpre).congr (bind_of_ok hrun)
        fun d hbeside => ?_
      rcases atNamedFunction_cases d with ⟨-, hrun'⟩ | ⟨hother, -⟩
      · exact bind_of_ok hrun'
      · exact absurd (hbeside.namesFunction.mpr ⟨line, name, line', rest, hrest⟩) hother
    · refine (other.here c hstanding hpre).congr (bind_of_ok hrun) fun d hbeside => ?_
      rcases atNamedFunction_cases d with ⟨hnames, -⟩ | ⟨-, hrun'⟩
      · exact absurd (hbeside.namesFunction.mp hnames) hother
      · exact bind_of_ok hrun'

theorem Cut.Reports.withLoopDepth {rule : Rule α}
    (h : cut.Reports room pre taken post stop rule) (change : Nat → Nat) :
    cut.Reports room pre taken post stop (withLoopDepth change rule) where
  grows c := by
    have hgrows := h.grows { c with loopDepth := change c.loopDepth }
    unfold Grammar.withLoopDepth
    cases hrun : rule { c with loopDepth := change c.loopDepth } <;>
      · rw [hrun] at hgrows
        exact hgrows
  here c hstanding hpre := by
    obtain ⟨hreads, hpairs⟩ := h.here { c with loopDepth := change c.loopDepth }
      ⟨hstanding.room, hstanding.within, hstanding.accounted⟩ hpre
    refine ⟨?_, fun d hbeside hsilent => ?_⟩
    · unfold Ensures Grammar.withLoopDepth at *
      cases hrun : rule { c with loopDepth := change c.loopDepth } with
      | ok a c' =>
        rw [hrun] at hreads
        exact ⟨⟨hreads.1.rest, hreads.1.taken⟩, hreads.2⟩
      | error p c' =>
        rw [hrun] at hreads
        exact ⟨⟨hreads.1.rest, hreads.1.taken⟩, hreads.2⟩
    · have hpair := hpairs { d with loopDepth := change d.loopDepth }
        ⟨hbeside.rest, congrArg change hbeside.loopDepth, hbeside.nextId⟩ hsilent
      unfold Grammar.withLoopDepth
      generalize rule { c with loopDepth := change c.loopDepth } = R at hpair
      generalize rule { d with loopDepth := change d.loopDepth } = R' at hpair
      -- The depth is put back in both, which none of the ways in which they pair depends on.
      rcases hpair with ⟨hsilent', hstep | hended⟩ | hheard
      · cases hstep with
        | ok hbeside' =>
          exact .inl ⟨hsilent', .inl (.ok ⟨hbeside'.rest, hbeside.loopDepth, hbeside'.nextId⟩)⟩
        | error hbeside' =>
          exact .inl ⟨hsilent', .inl (.error ⟨hbeside'.rest, hbeside.loopDepth, hbeside'.nextId⟩)⟩
      · cases hended with
        | ok hstops => exact .inl ⟨hsilent', .inr (.ok hstops)⟩
        | error hfew => exact .inl ⟨hsilent', .inr (.error hfew)⟩
      · refine .inr ?_
        cases R' with
        | ok a d' => exact hheard
        | error q d' => exact hheard

end

/-! ## Recovery -/

/-- Where an operator is next, in one of the texts, the rule of a level reads on at a place of an
operand, and it knows an operator that needs an operand to its left unless the place does not. -/
def Cut.Faces (cut : Cut) (level : Nat) (rest : List Token) : Prop :=
  ∀ s, (rest.head? = some s ∨ rest = [cut.probe] ∧ s = cut.next) → IsOperator s →
    ∃ k, AtOperand cut.whole rest k ∧ level ≤ k ∧
      (NeedsLeft s → strength s ≤ level ∨ k < strength s)

/-- Where a declaration may begin. -/
def Cut.Resumes (cut : Cut) (rest : List Token) : Prop :=
  rest ≠ [] → cut.Faces 5 rest

section

variable {cut : Cut} {room taken : Nat} {pre : List Token → Prop} {rest : List Token}

theorem Cut.faces_of_fresh (h : Fresh cut.whole rest) : cut.Faces 5 rest :=
  fun _ _ _ => ⟨5, h.atOperand, Nat.le_refl 5, fun hneeds => .inl (strength_of_needsLeft hneeds).2⟩

/-- Behind what is dropped a declaration may begin. -/
theorem Cut.resumes_skipStatement (h : rest <:+ cut.whole) :
    cut.Resumes (skipStatement rest) := by
  intro hsome
  cases rest with
  | nil => exact absurd rfl hsome
  | cons t rest =>
    obtain ⟨dropped, hdropped, hskips⟩ := skips_skipStatement t rest
    rcases hskips.ends with hnil | hsemicolon | hword
    · exact absurd hnil hsome
    · refine Cut.faces_of_fresh ?_
      obtain ⟨before, hwhole⟩ := h
      refine ⟨before ++ dropped, by rw [List.append_assoc, hdropped, hwhole], fun s hs => ?_⟩
      obtain ⟨init, last, rfl⟩ := List.eq_nil_or_concat dropped |>.resolve_left hskips.nonempty
      rw [List.concat_eq_append, ← List.append_assoc, List.getLast?_concat] at hs
      rw [List.concat_eq_append, List.getLast?_concat] at hsemicolon
      obtain rfl := Option.some.inj hs
      exact opens_of_isSymbol hsemicolon (by decide)
    · -- A word is no operator.
      obtain ⟨first, later, hcons⟩ := List.exists_cons_of_ne_nil hsome
      rw [hcons] at hword ⊢
      have hstarts : startsStatement first = true := hword
      have hother {s : Token} (hs : startsStatement s = true) : ¬IsOperator s := by
        rintro ⟨symbol, -, hkind⟩
        simp [startsStatement, hkind] at hs
      rintro s (hs | ⟨hprobe, -⟩) hoperator
      · obtain rfl : first = s := Option.some.inj hs
        exact absurd hoperator (hother hstarts)
      · obtain ⟨rfl, -⟩ := List.cons.inj hprobe
        exact absurd ⟨.bang, by decide, cut.bang⟩ (hother hstarts)

theorem skipStatement_few {tokens : List Token} (h : tokens.length ≤ 1) :
    skipStatement tokens = [] := by
  match tokens, h with
  | [], _ => rfl
  | [t], _ =>
    rw [skipStatement]
    split <;> rfl

theorem skipStatement_cons_cons (a b : Token) (rest : List Token) :
    skipStatement (a :: b :: rest) =
      if (isSymbol .semicolon a || startsStatement b) = true then b :: rest
      else skipStatement (b :: rest) := rfl

/-- The same tokens are dropped in both texts, unless the shorter one is dropped to its end. -/
theorem skipStatement_instead (w : List Token) {t : Token} (ht : startsStatement t = false)
    (t' : Token) (r : List Token) :
    skipStatement (w ++ [t]) = [] ∨ ∃ w', skipStatement (w ++ [t]) = w' ++ [t] ∧
      skipStatement (w ++ t' :: r) = w' ++ t' :: r := by
  induction w with
  | nil => exact .inl (skipStatement_few (Nat.le_refl 1))
  | cons a w ih =>
    cases w with
    | nil =>
      show skipStatement [a, t] = [] ∨ ∃ w', skipStatement [a, t] = w' ++ [t] ∧
        skipStatement (a :: t' :: r) = w' ++ t' :: r
      by_cases hstop : isSymbol .semicolon a = true
      · exact .inr ⟨[], by simp [skipStatement, hstop], by simp [skipStatement, hstop]⟩
      · refine .inl ?_
        rw [skipStatement, if_neg (by simp [hstop, ht])]
        exact skipStatement_few (Nat.le_refl 1)
    | cons b w =>
      -- Whether to stop is decided by two tokens that both texts have.
      rw [List.cons_append, List.cons_append, List.cons_append, List.cons_append,
        skipStatement_cons_cons, skipStatement_cons_cons]
      split
      · exact .inr ⟨b :: w, rfl, rfl⟩
      · exact ih

theorem Cut.Reports.recover {rule : Rule α}
    (h : cut.Reports room pre taken (Fresh cut.whole) .never rule) :
    cut.Reports room pre 0 cut.Resumes .atEnd (recover rule) where
  grows c := by
    have hgrows := h.grows c
    unfold Grammar.recover
    cases hrun : rule c <;>
      · rw [hrun] at hgrows
        exact hgrows
  here c hstanding hpre := by
    obtain ⟨hreads, hpairs⟩ := h.here c hstanding hpre
    refine ⟨?_, fun d hbeside hsilent => ?_⟩
    · unfold Ensures Grammar.recover at *
      cases hrun : rule c with
      | ok a c' =>
        rw [hrun] at hreads
        obtain ⟨honward, haccounted, hfresh⟩ := hreads
        exact ⟨honward.mono (Nat.zero_le _), haccounted, fun _ => Cut.faces_of_fresh hfresh⟩
      | error p c' =>
        rw [hrun] at hreads
        obtain ⟨honward, haccounted⟩ := hreads
        obtain ⟨hskip, hless⟩ := skipStatement_onward c'.rest
        refine ⟨⟨hskip.trans honward.rest, ?_⟩, haccounted,
          Cut.resumes_skipStatement (honward.rest.trans hstanding.within)⟩
        have := honward.taken
        show (skipStatement c'.rest).length + 0 ≤ c.rest.length
        omega
    · have hpair := hpairs d hbeside hsilent
      unfold Cut.Pairs Grammar.recover at *
      generalize rule c = R at hpair
      generalize rule d = R' at hpair
      rcases hpair with ⟨hsilent', hstep | hended⟩ | hheard
      · cases hstep with
        | ok hbeside' => exact .inl ⟨hsilent', .inl (.ok hbeside')⟩
        | @error p q c' d' hbeside' =>
          refine .inl ⟨hsilent', ?_⟩
          obtain ⟨w, hc, hd⟩ := hbeside'.rest
          -- What is skipped is decided by tokens that both texts have, unless all of the shorter
          -- one goes.
          have hskip :=
            skipStatement_instead w cut.idle_probe.startsStatement cut.next cut.rest
          rw [← hc, ← hd] at hskip
          rcases hskip with hnil | hsame
          · exact .inr (.ok hnil)
          · exact .inl (.ok ⟨hsame, hbeside'.loopDepth, hbeside'.nextId⟩)
      · cases hended with
        | ok hnever => exact hnever.elim
        | @error p c' hfew => exact .inl ⟨hsilent', .inr (.ok (skipStatement_few hfew))⟩
      · refine .inr ?_
        cases R' with
        | ok a d' => exact hheard
        | error q d' => exact hheard

end

/-! ## Repetition -/

section

variable {cut : Cut} {room : Nat} {pre mid : List Token → Prop}

section

variable {ω : Type} {operator? : Token → Option ω} {operand : Rule Expr}
  {build : Expr → ω → Nat → Expr → Expr} (hend : ∀ s, Ending s → operator? s = none)

include hend

theorem mutes_leftNested (bound : Nat) (left : Expr) {start : Stop} :
    cut.Mutes start start (leftNested operator? operand build bound left) := by
  cases bound with
  | zero => exact mutes_pure left
  | succ bound =>
    unfold leftNested
    refine mutes_peek (pure left) (fun s hs => ?_) (mutes_pure left)
    rw [hend s hs]

/-- Operands are read behind operators, and operators behind operands. -/
theorem reports_leftNested {inv : List Token → Prop}
    (hbehind : ∀ s op rest, operator? s = some op → s :: rest <:+ cut.whole → inv (s :: rest) →
      mid rest)
    (hoperand : cut.Reports (room - 1) mid 1 inv .atProbe operand) (bound : Nat) (left : Expr) :
    cut.Reports room inv 0 inv .atProbe (leftNested operator? operand build bound left) := by
  have hpure (left : Expr) : cut.Reports room inv 0 inv .atProbe (pure left) :=
    reports_pure fun _ => id
  induction bound generalizing left with
  | zero => exact hpure left
  | succ bound ih =>
    unfold leftNested
    refine .peekLoose (pure left) (fun s hs => ?_) (hpure left) (mutes_pure left)
      fun s hs => ?_
    · rw [hend s hs]
    · cases hop : operator? s with
      | none => exact (hpure left).before
      | some op =>
        refine .advance (fun hkind => hs (.inr hkind))
          (fun rest hrest hinv => hbehind s op rest hop hrest hinv) ?_
        refine hoperand.uncounted.close
          (fun right => ?_) fun _ => mutes_leftNested hend _ _
        exact (ih _).less (by omega) (Nat.le_refl _)

end

/-- Items behind a first one are read behind commas. -/
theorem reports_commaSeparated {item : Nat → Rule α}
    (hfresh : ∀ rest, Fresh cut.whole rest → pre rest)
    (h : ∀ count, cut.Reports room pre 1 (fun _ => True) .atProbe (item count)) {bound : Nat}
    (hbound : room ≤ bound) (count : Nat) :
    cut.Reports room pre 1 (fun _ => True) .atProbe (commaSeparated item bound count) := by
  induction bound generalizing room count with
  | zero =>
    obtain rfl := Nat.le_zero.mp hbound
    exact ⟨grows_failHere _, fun c hstanding => absurd hstanding.room (Nat.not_lt_zero _)⟩
  | succ bound ih =>
    unfold commaSeparated
    have hone (first : α) {room : Nat} {pre : List Token → Prop} :
        cut.Reports room pre 0 (fun _ => True) .atProbe (pure [first]) :=
      reports_pure fun _ _ => trivial
    refine (h count).close (fun first => ?_) fun first => ?_
    · refine .accept (by decide) ?_ (hone first)
      have hrest : cut.Reports (room - 1) pre 1 (fun _ => True) .atProbe
          (commaSeparated item bound (count + 1)) := ih
        (fun count => (h count).less (Nat.sub_le _ _) (Nat.le_refl _)) (by omega) (count + 1)
      refine ((hrest.less (by omega) (Nat.zero_le 1)).entered hfresh).close
        (fun rest => ?_) fun rest => mutes_pure _
      exact reports_pure fun _ => id
    · exact mutes_accept (by decide) (mutes_pure [first])

/-- A block ends in both texts. -/
theorem Cut.Beside.atBlockEnd {c d : Cursor} (h : cut.Beside c d) :
    AtBlockEnd d ↔ AtBlockEnd c := by
  obtain ⟨hc, hd⟩ := h.rest_ne_nil
  unfold AtBlockEnd
  rcases h.peek with ⟨hprobe, hnext⟩ | ⟨-, hsame⟩
  · rw [hnext, peek_of_cons hprobe, (idle_of_needsLeft cut.needs).isSymbol (by decide),
      cut.idle_probe.isSymbol (by decide)]
    simp [hc, hd]
  · rw [hsame]
    simp [hc, hd]

theorem mutes_untilBrace (item : Rule α) (bound : Nat) :
    cut.Mutes .atEnd .atEnd (untilBrace item bound) := by
  cases bound with
  | zero => exact mutes_pure []
  | succ bound =>
    intro c hstops hsilent
    rw [untilBrace_succ, if_pos (.inr hstops)]
    exact ⟨hsilent, .ok hstops⟩

/-- Items up to a brace, each of which is read where there is something left. -/
theorem reports_untilBrace {item : Rule α}
    (h : cut.Reports room (fun rest => rest ≠ [] ∧ pre rest) 0 pre .atEnd item) (bound : Nat) :
    cut.Reports room pre 0 (fun _ => True) .atEnd (untilBrace item bound) := by
  induction bound with
  | zero => exact reports_pure fun _ _ => trivial
  | succ bound ih =>
    have hround : cut.Reports room (fun rest => rest ≠ [] ∧ pre rest) 0 (fun _ => True) .atEnd
        (item >>= fun first => (first :: ·) <$> untilBrace item bound) :=
      h.close (fun first => ih.map _) fun first => (mutes_untilBrace item bound).map _
    have hnone : cut.Reports room pre 0 (fun _ => True) .atEnd (pure [] : Rule (List α)) :=
      reports_pure fun _ _ => trivial
    refine ⟨fun c => ?_, fun c hstanding hpre => ?_⟩
    · rw [untilBrace_succ]
      split
      · exact List.Subset.refl _
      · exact hround.grows c
    · by_cases hends : AtBlockEnd c
      · refine (hnone.here c hstanding hpre).congr ?_ fun d hbeside => ?_
        · rw [untilBrace_succ, if_pos hends]
          rfl
        · rw [untilBrace_succ, if_pos (hbeside.atBlockEnd.mpr hends)]
          rfl
      · have hrest : c.rest ≠ [] := fun hnil => hends (.inr hnil)
        refine (hround.here c hstanding ⟨hrest, hpre⟩).congr ?_ fun d hbeside => ?_
        · rw [untilBrace_succ, if_neg hends]
        · rw [untilBrace_succ, if_neg (mt hbeside.atBlockEnd.mp hends)]

end

end Grammar

end LoxLang
