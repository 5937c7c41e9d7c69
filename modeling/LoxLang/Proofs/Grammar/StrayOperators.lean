import LoxLang.Proofs.Grammar.Operands

/-!
# Operators without a left operand

Where an operator that needs an operand to its left stands in the place of one, this is reported as
its left operand missing only if the rule that reads operands there knows the operator: behind a `*`
it knows no `+`, and behind a unary minus none at all. Everywhere else it is reported as any other
token that begins no expression (`stray_operators_by_level`).
-/

namespace LoxLang

open Grammar in
/-- The problems found in a text. -/
def Reading.problems {α : Type} (reading : Reading α) : List Problem :=
  match reading.result with
  | .ok _ => []
  | .error problems => problems

namespace Grammar

variable {α : Type} {cut : Cut} {room : Nat}

/-- What is reported of operators in the place of operands. -/
structure TellsOperands (problems : List Token → List Problem) : Prop where
  /-- What is reported of an operator that needs an operand to its left is right for the level by
  whose rule operands are read where it stands. -/
  explained : ∀ tokens, ∀ p ∈ problems tokens, Explained tokens p
  /-- Such an operator is reported wherever an operand may begin, which is where a `!` at the end of
  a text lacks its own operand. -/
  heard : ∀ u t r line, (∀ s ∈ u, s.isEof = false) → NeedsLeft t →
    Lacks (problems (u ++ [⟨.symbol .bang, line⟩])) → ∃ k, OperandLevel u k ∧
      (∀ j, OperandLevel u j → j = k ∨ Ambiguous u) ∧
      (strength t ≤ k → OperandFollows t r → ⟨t, .missingLeftOperand⟩ ∈ problems (u ++ t :: r)) ∧
      (k < strength t → ⟨t, .missingExpression⟩ ∈ problems (u ++ t :: r))

/-! ## Whole texts -/

theorem mutes_declarations (budget count : Nat) :
    cut.Mutes .atEnd .atEnd (declarations budget count) := by
  intro c hstops hsilent
  rw [declarations_of_nil hstops]
  exact ⟨hsilent, .ok hstops⟩

theorem reports_declarations {budget : Nat} (hroom : room ≤ budget) (count : Nat) :
    cut.Reports room cut.Resumes 0 (fun _ => True) .atEnd (declarations budget count) := by
  induction count with
  | zero => exact reports_pure fun _ _ => trivial
  | succ count ih =>
    have hfirst : cut.Reports room (fun rest => rest ≠ [] ∧ cut.Resumes rest) 0 cut.Resumes .atEnd
        (ruleAt budget .declaration) := reports_ruleAt hroom .declaration
    have hround := hfirst.close (fun first => ih.map (first.toList ++ ·))
      fun first => (mutes_declarations budget count).map (first.toList ++ ·)
    refine ⟨fun c => ?_, fun c hstanding hresumes => ?_⟩
    · by_cases hrest : c.rest = []
      · rw [declarations_of_nil hrest]
        exact List.Subset.refl _
      · rw [declarations_of_ne_nil hrest]
        exact hround.grows c
    · by_cases hrest : c.rest = []
      · refine ⟨?_, fun d hbeside _ => absurd hrest hbeside.rest_ne_nil.1⟩
        unfold Ensures
        rw [declarations_of_nil hrest]
        exact ⟨Cursor.onward_of_rest rfl, hstanding.accounted, trivial⟩
      · exact (hround.here c hstanding ⟨hrest, hresumes⟩).congr (declarations_of_ne_nil hrest)
          fun d hbeside => declarations_of_ne_nil hbeside.rest_ne_nil.2

theorem ending_of_nil {e : Expr} {c : Cursor} (h : c.rest = []) :
    (do
      if ← atEnd then return e
      else failHere .missingEnd : Rule Expr) c = .ok e c := by
  show (if c.rest.isEmpty = true then _ else _ : Rule Expr) c = _
  rw [if_pos (List.isEmpty_iff.mpr h)]
  rfl

theorem ending_of_ne_nil {e : Expr} {c : Cursor} (h : c.rest ≠ []) :
    (do
      if ← atEnd then return e
      else failHere .missingEnd : Rule Expr) c = (failHere .missingEnd : Rule Expr) c := by
  show (if c.rest.isEmpty = true then _ else _ : Rule Expr) c = _
  rw [if_neg (mt List.isEmpty_iff.mp h)]

/-- What is left behind an expression is reported. -/
theorem reports_ending (e : Expr) {pre : List Token → Prop} {stop : Stop} :
    cut.Reports room pre 0 (fun _ => True) stop (do
      if ← atEnd then return e
      else failHere .missingEnd) := by
  have hfail : cut.Reports room pre 0 (fun _ => True) stop (failHere .missingEnd : Rule Expr) :=
    reports_failHere ⟨by simp, by simp⟩
  refine ⟨fun c => ?_, fun c hstanding hpre => ?_⟩
  · by_cases hrest : c.rest = []
    · rw [ending_of_nil hrest]
      exact List.Subset.refl _
    · rw [ending_of_ne_nil hrest]
      exact hfail.grows c
  · by_cases hrest : c.rest = []
    · refine ⟨?_, fun d hbeside _ => absurd hrest hbeside.rest_ne_nil.1⟩
      unfold Ensures
      rw [ending_of_nil hrest]
      exact ⟨Cursor.onward_of_rest rfl, hstanding.accounted, trivial⟩
    · exact (hfail.here c hstanding hpre).congr (ending_of_ne_nil hrest) fun d hbeside =>
        ending_of_ne_nil hbeside.rest_ne_nil.2

theorem mutes_ending (e : Expr) {stop : Stop} :
    cut.Mutes .atProbe stop (do
      if ← atEnd then return e
      else failHere .missingEnd) := by
  intro c hstops hsilent
  have hrest : c.rest = [cut.probe] := hstops
  rw [ending_of_ne_nil (by simp [hrest])]
  exact mutes_failHere ⟨by simp, by simp⟩ c hstops hsilent

theorem reports_wholeExpression {budget : Nat} (hroom : room ≤ budget) :
    cut.Reports room (cut.Faces 5) 0 (fun _ => True) .atEnd (wholeExpression budget) := by
  have hexpression : cut.Reports room (cut.Faces 5) 1 (BehindOperand cut.whole) .atProbe
      (ruleAt budget .expression) := reports_ruleAt hroom .expression
  exact hexpression.uncounted.close (fun e => reports_ending e)
    fun e => mutes_ending e

/-! ## Any tokens -/

theorem Explained.extend {whole more : List Token} {p : Problem} (h : Explained whole p) :
    Explained (whole ++ more) p := by
  intro hp
  obtain ⟨hneeds, before, after, k, hwhole, hlevel, hknown⟩ := h hp
  exact ⟨hneeds, before, after ++ more, k, by simp [hwhole], hlevel, hknown⟩

theorem isEof_eq_false_iff {t : Token} : t.isEof = false ↔ t.kind ≠ .eof := by
  unfold Token.isEof
  split
  · next hkind => simp [hkind]
  · next hkind => simpa using hkind

theorem isEof_of_needsLeft {t : Token} (h : NeedsLeft t) : t.isEof = false := by
  obtain ⟨symbol, -, hkind⟩ := kind_of_needsLeft h
  exact isEof_eq_false_iff.mpr (by simp [hkind])

theorem beforeEnd_append {u r : List Token} (hu : ∀ s ∈ u, s.isEof = false) :
    beforeEnd (u ++ r) = u ++ beforeEnd r :=
  List.takeWhile_append_of_pos fun s hs => by simp [hu s hs]

theorem OperandFollows.beforeEnd {t : Token} {r : List Token} (h : OperandFollows t r) :
    OperandFollows t (beforeEnd r) := by
  obtain ⟨level, ht, w, rest, rfl, hw, hends⟩ := h
  refine ⟨level, ht, w, LoxLang.beforeEnd rest, ?_, hw, fun s hs => hends s ?_⟩
  · exact beforeEnd_append fun s hs => isEof_eq_false_iff.mpr (hw.ne_eof s hs)
  · cases rest with
    | nil => exact hs
    | cons s' rest =>
      rw [LoxLang.beforeEnd, List.takeWhile_cons] at hs
      split at hs
      · exact hs
      · cases hs

/-- A rule for whole texts that says what it reports, whatever budget it is given. -/
structure ReportsText (rule : Nat → Rule α) : Prop where
  budget : ∀ (c : Cursor) budget budget', c.rest.length < budget → c.rest.length < budget' →
    rule budget c = rule budget' c
  reports : ∀ (cut : Cut) budget,
    cut.Reports budget (cut.Faces 5) 0 (fun _ => True) .atEnd (rule budget)

theorem reportsText_program : ReportsText program where
  budget c budget budget' hbudget hbudget' := by
    obtain ⟨found, c', hrounds⟩ := exists_rounds (fun _ => id) c
    exact (hrounds.declarations hbudget hbudget).trans (hrounds.declarations hbudget' hbudget').symm
  reports _ budget :=
    (reports_declarations (Nat.le_refl _) budget).entered fun _ hfaces _ => hfaces

theorem reportsText_wholeExpression : ReportsText wholeExpression where
  budget c budget budget' hbudget hbudget' := by
    have hsame := (ruleAt_eq .expression c hbudget).trans (ruleAt_eq .expression c hbudget').symm
    unfold wholeExpression
    show EStateM.bind _ _ _ = EStateM.bind _ _ _
    unfold EStateM.bind
    rw [hsame]
  reports _ _ := reports_wholeExpression (Nat.le_refl _)

theorem problems_read {rule : Nat → Rule α} {tokens : List Token} {nextId : RefId} :
    (read rule tokens nextId).problems =
      told (rule (tokens.length + 1) (Cursor.ofTokens tokens nextId)) := by
  unfold read
  cases rule (tokens.length + 1) (Cursor.ofTokens tokens nextId) with
  | error p c => rfl
  | ok a c =>
    dsimp only [told]
    cases hproblems : c.problems with
    | nil => rfl
    | cons p problems => rfl

/-- With less budget than for a longer text. -/
theorem ReportsText.problems_read_more {rule : Nat → Rule α} (h : ReportsText rule)
    {tokens : List Token} {nextId : RefId} (budget : Nat)
    (hbudget : (Cursor.ofTokens tokens nextId).rest.length < budget) :
    (read rule tokens nextId).problems = told (rule budget (Cursor.ofTokens tokens nextId)) := by
  rw [problems_read, h.budget _ _ budget (length_ofTokens_lt tokens nextId) hbudget]

theorem not_lacks_nil : ¬Lacks [] := by
  rintro ⟨p, hp, -⟩
  cases hp

/-- At the start of a text. -/
theorem Cut.standing_start (cut : Cut) {tokens : List Token} {nextId : RefId} {budget : Nat}
    (hwhole : (Cursor.ofTokens tokens nextId).rest = cut.whole)
    (hbudget : cut.whole.length + cut.rest.length < budget) :
    cut.Standing budget (Cursor.ofTokens tokens nextId) where
  room := hwhole ▸ hbudget
  within := hwhole ▸ List.suffix_refl _
  accounted := fun _ hp => nomatch hp

/-- What is said of a rule for whole texts where it starts. -/
theorem ReportsText.start {rule : Nat → Rule α} (h : ReportsText rule) (cut : Cut)
    {tokens : List Token} (nextId : RefId) {budget : Nat}
    (hwhole : (Cursor.ofTokens tokens nextId).rest = cut.whole)
    (hbudget : cut.whole.length + cut.rest.length < budget) :
    cut.ReportsAt (Cursor.ofTokens tokens nextId) 0 (fun _ => True) .atEnd (rule budget) :=
  (h.reports cut budget).here _ (cut.standing_start hwhole hbudget)
    (hwhole ▸ Cut.faces_of_fresh (fresh_self _))

theorem Cut.ReportsAt.accounted {c : Cursor} {rule : Rule α} {taken : Nat}
    {post : List Token → Prop} {stop : Stop} (h : cut.ReportsAt c taken post stop rule) :
    cut.Accounted (told (rule c)) := by
  have hreads := h.reads
  unfold Ensures at hreads
  generalize rule c = R at hreads
  cases R with
  | ok a c => exact hreads.2.1
  | error p c => exact hreads.2

section

variable {rule : Nat → Rule α} (nextId : RefId)

theorem ReportsText.explained (h : ReportsText rule) {tokens : List Token} {p : Problem}
    (hp : p ∈ (read rule tokens nextId).problems) : Explained tokens p := by
  -- What stands in the place of the `!` does not matter.
  let cut : Cut :=
    { whole := beforeEnd tokens
      probe := ⟨.symbol .bang, 1⟩
      next := ⟨.symbol .star, 1⟩
      rest := []
      marks := fun s hs => by simpa using List.all_eq_true.mp List.all_takeWhile s hs
      bang := rfl
      needs := ⟨.factor, rfl⟩ }
  have hstart := h.start cut nextId rfl (length_ofTokens_lt tokens nextId)
  have hsplit : tokens = beforeEnd tokens ++ tokens.dropWhile fun t => !t.isEof :=
    List.takeWhile_append_dropWhile.symm
  rw [problems_read] at hp
  rw [hsplit]
  exact (hstart.accounted p hp).extend

theorem ReportsText.heard (h : ReportsText rule) {u r : List Token} {t : Token} {line : Nat}
    (hu : ∀ s ∈ u, s.isEof = false) (ht : NeedsLeft t)
    (hlacks : Lacks (read rule (u ++ [⟨.symbol .bang, line⟩]) nextId).problems) :
    ∃ k, OperandLevel u k ∧ (∀ j, OperandLevel u j → j = k ∨ Ambiguous u) ∧
      (strength t ≤ k → OperandFollows t r →
        ⟨t, .missingLeftOperand⟩ ∈ (read rule (u ++ t :: r) nextId).problems) ∧
      (k < strength t →
        ⟨t, .missingExpression⟩ ∈ (read rule (u ++ t :: r) nextId).problems) := by
  -- The text up to the operator, with a `!` in its place, is read beside the text itself.
  let probe : Token := ⟨.symbol .bang, line⟩
  let cut : Cut :=
    { whole := u ++ [probe]
      probe := probe
      next := t
      rest := beforeEnd r
      marks := by
        rw [List.forall_mem_append]
        exact ⟨hu, by simp [probe, Token.isEof]⟩
      bang := rfl
      needs := ht }
  have hshort : (Cursor.ofTokens (u ++ [probe]) nextId).rest = u ++ [probe] := beforeEnd_append hu
  have hlong : (Cursor.ofTokens (u ++ t :: r) nextId).rest = u ++ t :: beforeEnd r := by
    show beforeEnd (u ++ t :: r) = _
    rw [beforeEnd_append hu, beforeEnd, List.takeWhile_cons,
      if_pos (by simp [isEof_of_needsLeft ht])]
  have hbudget : (u ++ [probe]).length + (beforeEnd r).length < (u ++ t :: r).length + 1 := by
    have hlength := length_ofTokens_lt (u ++ t :: r) nextId
    rw [hlong, List.length_append, List.length_cons] at hlength
    rw [List.length_append, List.length_singleton]
    omega
  have hstart := h.start cut nextId hshort hbudget
  have hless : (Cursor.ofTokens (u ++ [probe]) nextId).rest.length < (u ++ t :: r).length + 1 := by
    rw [hshort]
    omega
  rw [h.problems_read_more _ hless] at hlacks
  rw [problems_read]
  rcases hstart.pairs (Cursor.ofTokens (u ++ t :: r) nextId) ⟨⟨u, hshort, hlong⟩, rfl, rfl⟩
    not_lacks_nil with ⟨hsilent, -⟩ | hheard
  · exact absurd hlacks hsilent
  · obtain ⟨k, ⟨before, hwhole, hlevel⟩, hknown, hother⟩ := hheard
    obtain rfl : u = before := List.append_cancel_right hwhole
    exact ⟨k, hlevel, fun j hj => hj.unique hlevel,
      fun hk hfollows => hknown hk hfollows.beforeEnd, hother⟩

theorem ReportsText.tells (h : ReportsText rule) :
    TellsOperands fun tokens => (read rule tokens nextId).problems :=
  ⟨fun _ _ hp => h.explained nextId hp, fun _ _ _ _ hu ht hlacks => h.heard nextId hu ht hlacks⟩

end

end Grammar

open Grammar

/-- An operator without a left operand is reported as such only where the operands are read by the
rule of its level or of a looser one. -/
theorem stray_operators_by_level (nextId : RefId) :
    (TellsOperands fun tokens => (readProgram tokens nextId).problems) ∧
      TellsOperands fun tokens => (readExpression tokens nextId).problems :=
  ⟨reportsText_program.tells nextId, reportsText_wholeExpression.tells nextId⟩

/-- Behind a `*` nothing is said of a left operand of `+`. -/
theorem missing_expression_at_plus :
    (readProgram (tokensOf (Utf8.encode "1 * + 2;")) 0).problems.map
      (fun p => (p.token.lexeme, p.cause)) = [("+", .missingExpression)] := by
  decide +kernel

end LoxLang
