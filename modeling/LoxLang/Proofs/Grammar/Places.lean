import LoxLang.Proofs.Grammar.Completeness
import LoxLang.Proofs.Lexical.Joining

/-!
# Places of operands

An operand is read by the rule of some level, and a rule knows the operators of its own level and
of those that bind tighter. Which level it is can be told from the tokens in front (`OperandLevel`):
behind an operator it is that of the operator's operands, anywhere else the one that knows them all.
A minus is one of two operators, which the token in front of it tells apart, unless it closes
something (`OperandLevel.unique`).
-/

namespace LoxLang

namespace Grammar

/-! ## Operators -/

/-- An operator that needs an operand to its left. -/
def NeedsLeft (t : Token) : Prop :=
  ∃ level : Level, (level.operator? t).any needsLeft = true

/-- The symbols of the operators that need an operand to their left. -/
def joiners : List Symbol :=
  [.equalEqual, .bangEqual, .greater, .greaterEqual, .less, .lessEqual, .plus, .slash, .star]

/-- The symbols of all operators between and before operands. -/
def operators : List Symbol :=
  .bang :: .minus :: joiners

/-- A token that is one of these. -/
def IsOperator (t : Token) : Prop :=
  ∃ symbol ∈ operators, t.kind = .symbol symbol

theorem kind_of_needsLeft {t : Token} (h : NeedsLeft t) :
    ∃ symbol ∈ joiners, t.kind = .symbol symbol := by
  obtain ⟨level, hop⟩ := h
  unfold Level.operator? at hop
  split at hop
  all_goals first
    | next hkind => exact ⟨_, by decide, hkind⟩
    | simp [needsLeft] at hop

theorem isOperator_of_needsLeft {t : Token} (h : NeedsLeft t) : IsOperator t := by
  obtain ⟨symbol, hsymbol, hkind⟩ := kind_of_needsLeft h
  exact ⟨symbol, .tail _ (.tail _ hsymbol), hkind⟩

theorem isOperator_of_unary {t : Token} (h : (unaryOp? t).isSome = true) : IsOperator t := by
  unfold unaryOp? at h
  split at h
  · next hkind => exact ⟨.bang, by decide, hkind⟩
  · next hkind => exact ⟨.minus, by decide, hkind⟩
  · cases h

theorem isOperator_of_level {level : Level} {t : Token}
    (h : (level.operator? t).isSome = true) : IsOperator t := by
  unfold Level.operator? at h
  split at h
  all_goals first
    | next hkind => exact ⟨_, by decide, hkind⟩
    | cases h

theorem isSome_of_any {level : Level} {t : Token}
    (h : (level.operator? t).any needsLeft = true) : (level.operator? t).isSome = true := by
  cases hop : level.operator? t with
  | none => simp [hop] at h
  | some op => rfl

theorem strength_of_isSome {level : Level} {t : Token}
    (h : (level.operator? t).isSome = true) : strength t = level.strength := by
  obtain ⟨op, hop⟩ := Option.isSome_iff_exists.mp h
  exact strength_of_operator hop

/-- An operator belongs to one level. -/
theorem needsLeft_at_strength {level : Level} {t : Token} (h : NeedsLeft t)
    (hstrength : strength t = level.strength) : (level.operator? t).any needsLeft = true := by
  obtain ⟨level', hop⟩ := h
  have hsame := strength_of_isSome (isSome_of_any hop)
  rw [hstrength] at hsame
  cases level <;> cases level' <;> first | exact hop | simp [Level.strength] at hsame

theorem Level.strength_pos (level : Level) : 2 ≤ level.strength ∧ level.strength ≤ 5 := by
  cases level <;> decide

theorem strength_of_needsLeft {t : Token} (h : NeedsLeft t) : 2 ≤ strength t ∧ strength t ≤ 5 := by
  obtain ⟨level, hop⟩ := h
  rw [strength_of_isSome (isSome_of_any hop)]
  exact level.strength_pos

/-- The end mark, an operator that needs an operand to its left, or a `!`: where nothing else is
asked for, rules go on from each of them in the same way. -/
def Idle (t : Token) : Prop :=
  t.kind = .eof ∨ ∃ symbol ∈ Symbol.bang :: joiners, t.kind = .symbol symbol

theorem idle_of_needsLeft {t : Token} (h : NeedsLeft t) : Idle t := by
  obtain ⟨symbol, hsymbol, hkind⟩ := kind_of_needsLeft h
  exact .inr ⟨symbol, .tail _ hsymbol, hkind⟩

section

variable {t : Token}

theorem Idle.isSymbol (h : Idle t) {symbol : Symbol} (hsymbol : symbol ∉ Symbol.bang :: joiners) :
    isSymbol symbol t = false := by
  rcases h with hkind | ⟨s, hs, hkind⟩
  · simp [Grammar.isSymbol, hkind]
  · simp only [Grammar.isSymbol, hkind, beq_eq_false_iff_ne]
    rintro rfl
    exact hsymbol hs

theorem Idle.isWord (h : Idle t) (word : Keyword) : isWord word t = false := by
  rcases h with hkind | ⟨s, hs, hkind⟩ <;> simp [Grammar.isWord, hkind]

theorem Idle.startsStatement (h : Idle t) : startsStatement t = false := by
  rcases h with hkind | ⟨s, hs, hkind⟩ <;> simp [Grammar.startsStatement, hkind]

theorem unaryOp_of_needsLeft (h : NeedsLeft t) : unaryOp? t = none := by
  obtain ⟨symbol, hsymbol, hkind⟩ := kind_of_needsLeft h
  unfold unaryOp?
  rw [hkind]
  cases symbol <;> first | rfl | exact absurd hsymbol (by decide)

end

/-! ## Places -/

/-- The reserved words that are operands. -/
def valueWords : List Keyword :=
  [.falseWord, .trueWord, .nilWord, .thisWord]

/-- What may end an operand. -/
def endsOperand (t : Token) : Bool :=
  match t.kind with
  | .identifier _ => true
  | .text _ _ => true
  | .number _ _ => true
  | .keyword word => word ∈ valueWords
  | .symbol symbol => symbol = .rightParen ∨ symbol = .rightBrace
  | .eof => false

/-- What is no operator and may stand before an operand. -/
def opensOperand (t : Token) : Bool :=
  match t.kind with
  | .keyword word => word ∉ valueWords
  | .symbol symbol => symbol ∉ operators
  | _ => false

/-- The level by whose rule an operand behind some tokens is read, if one begins there. -/
inductive OperandLevel : List Token → Nat → Prop
  | start : OperandLevel [] 5
  | fresh {before : List Token} {t : Token} (opens : opensOperand t = true) :
      OperandLevel (before ++ [t]) 5
  /-- A minus between operands has one in front. -/
  | right {before : List Token} {t : Token} {level : Level}
      (operator : (level.operator? t).isSome = true)
      (left : NeedsLeft t ∨ ∃ s ∈ before.getLast?, endsOperand s = true) :
      OperandLevel (before ++ [t]) (level.strength - 1)
  /-- A unary operator begins an operand itself. -/
  | unary {before : List Token} {t : Token} {k : Nat} (operator : (unaryOp? t).isSome = true)
      (place : OperandLevel before k) : OperandLevel (before ++ [t]) 1

theorem not_isOperator_of_opens {t : Token} (h : opensOperand t = true) : ¬IsOperator t := by
  rintro ⟨symbol, hmem, hkind⟩
  simp only [opensOperand, hkind, decide_eq_true_eq] at h
  exact h hmem

theorem not_isOperator_of_ends {t : Token} (h : endsOperand t = true) : ¬IsOperator t := by
  rintro ⟨symbol, hmem, hkind⟩
  simp only [endsOperand, hkind, decide_eq_true_eq] at h
  rcases h with rfl | rfl <;> exact absurd hmem (by decide)

/-- Both only what closes something. -/
theorem closes_of_opens_of_ends {t : Token} (hopens : opensOperand t = true)
    (hends : endsOperand t = true) :
    t.kind = .symbol .rightParen ∨ t.kind = .symbol .rightBrace := by
  unfold opensOperand at hopens
  unfold endsOperand at hends
  split at hopens
  · next word hkind => simp_all
  · next symbol hkind => simpa [hkind] using hends
  · cases hopens

theorem operandLevel_concat {before : List Token} {t : Token} {k : Nat}
    (h : OperandLevel (before ++ [t]) k) :
    opensOperand t = true ∧ k = 5 ∨
      (∃ level : Level, (level.operator? t).isSome = true ∧ k = level.strength - 1 ∧
        (NeedsLeft t ∨ ∃ s ∈ before.getLast?, endsOperand s = true)) ∨
      (unaryOp? t).isSome = true ∧ k = 1 ∧ ∃ j, OperandLevel before j := by
  generalize hu : before ++ [t] = u at h
  cases h with
  | start => simp at hu
  | fresh opens =>
    obtain ⟨-, rfl⟩ := List.append_inj' hu rfl |>.imp_right (List.cons.inj · |>.1)
    exact .inl ⟨opens, rfl⟩
  | right operator left =>
    obtain ⟨rfl, rfl⟩ := List.append_inj' hu rfl |>.imp_right (List.cons.inj · |>.1)
    exact .inr (.inl ⟨_, operator, rfl, left⟩)
  | unary operator place =>
    obtain ⟨rfl, rfl⟩ := List.append_inj' hu rfl |>.imp_right (List.cons.inj · |>.1)
    exact .inr (.inr ⟨operator, rfl, _, place⟩)

theorem operandLevel_nil {k : Nat} (h : OperandLevel [] k) : k = 5 := by
  generalize hu : ([] : List Token) = u at h
  cases h with
  | start => rfl
  | fresh => simp at hu
  | right => simp at hu
  | unary => simp at hu

/-- Only a minus is an operator before an operand and one between operands. -/
theorem kind_of_both {level : Level} {t : Token} (hunary : (unaryOp? t).isSome = true)
    (hop : (level.operator? t).isSome = true) : t.kind = .symbol .minus := by
  unfold unaryOp? at hunary
  split at hunary
  · next hkind => simp [Level.operator?, hkind] at hop
  · next hkind => exact hkind
  · cases hunary

/-- A minus behind which operands of two levels may be read. -/
def Ambiguous (u : List Token) : Prop :=
  ∃ before s t, u = before ++ [s, t] ∧ t.kind = .symbol .minus ∧
    (s.kind = .symbol .rightParen ∨ s.kind = .symbol .rightBrace)

theorem ambiguous_of_both {before : List Token} {t : Token} {level : Level} {j : Nat}
    (hunary : (unaryOp? t).isSome = true) (hplace : OperandLevel before j)
    (hop : (level.operator? t).isSome = true)
    (hleft : NeedsLeft t ∨ ∃ s ∈ before.getLast?, endsOperand s = true) :
    Ambiguous (before ++ [t]) := by
  rcases hleft with hneeds | ⟨s, hs, hends⟩
  · simp [unaryOp_of_needsLeft hneeds] at hunary
  rcases List.eq_nil_or_concat before with rfl | ⟨init, s', rfl⟩
  · cases hs
  rw [List.concat_eq_append] at hs hplace ⊢
  obtain rfl : s' = s := by simpa using hs
  refine ⟨init, s', t, by simp, kind_of_both hunary hop, ?_⟩
  -- What stands in front ends an operand and has one behind it.
  rcases operandLevel_concat hplace with ⟨hopens, -⟩ | ⟨level, hop, -⟩ | ⟨hop, -⟩
  · exact closes_of_opens_of_ends hopens hends
  · exact absurd (isOperator_of_level hop) (not_isOperator_of_ends hends)
  · exact absurd (isOperator_of_unary hop) (not_isOperator_of_ends hends)

/-- The tokens in front tell the level, unless the last of them is a minus behind a closing
parenthesis or brace. -/
theorem OperandLevel.unique {u : List Token} {k k' : Nat} (h : OperandLevel u k)
    (h' : OperandLevel u k') : k = k' ∨ Ambiguous u := by
  rcases List.eq_nil_or_concat u with rfl | ⟨before, t, rfl⟩
  · exact .inl ((operandLevel_nil h).trans (operandLevel_nil h').symm)
  rw [List.concat_eq_append] at h h' ⊢
  rcases operandLevel_concat h with ⟨hopens, rfl⟩ | ⟨level, hop, rfl, hleft⟩ | ⟨hun, rfl, j, hj⟩
  · have hother := not_isOperator_of_opens hopens
    rcases operandLevel_concat h' with ⟨-, rfl⟩ | ⟨level', hop', -⟩ | ⟨hun', -⟩
    · exact .inl rfl
    · exact absurd (isOperator_of_level hop') hother
    · exact absurd (isOperator_of_unary hun') hother
  · rcases operandLevel_concat h' with ⟨hopens', -⟩ | ⟨level', hop', rfl, -⟩ | ⟨hun', -, j, hj⟩
    · exact absurd (isOperator_of_level hop) (not_isOperator_of_opens hopens')
    · exact .inl (by rw [← strength_of_isSome hop, strength_of_isSome hop'])
    · exact .inr (ambiguous_of_both hun' hj hop hleft)
  · rcases operandLevel_concat h' with ⟨hopens', -⟩ | ⟨level', hop', -, hleft'⟩ | ⟨-, rfl, -⟩
    · exact absurd (isOperator_of_unary hun) (not_isOperator_of_opens hopens')
    · exact .inr (ambiguous_of_both hun hj hop' hleft')
    · exact .inl rfl

/-- What is left of a text stands at a place where an operand is read by the rule of a level. -/
def AtOperand (whole rest : List Token) (k : Nat) : Prop :=
  ∃ before, whole = before ++ rest ∧ OperandLevel before k

/-- What is left of a text stands behind something that may stand before an operand, or at the
start. -/
def Fresh (whole rest : List Token) : Prop :=
  ∃ before, whole = before ++ rest ∧ ∀ t ∈ before.getLast?, opensOperand t = true

/-- What is left of a text stands behind what may be the end of an operand. -/
def BehindOperand (whole rest : List Token) : Prop :=
  ∃ before t, whole = before ++ t :: rest ∧ endsOperand t = true

theorem Fresh.atOperand {whole rest : List Token} (h : Fresh whole rest) :
    AtOperand whole rest 5 := by
  obtain ⟨before, hwhole, hlast⟩ := h
  refine ⟨before, hwhole, ?_⟩
  rcases List.eq_nil_or_concat before with rfl | ⟨init, t, rfl⟩
  · exact .start
  · rw [List.concat_eq_append] at hlast ⊢
    exact .fresh (hlast t (by simp))

theorem fresh_self (whole : List Token) : Fresh whole whole :=
  ⟨[], rfl, fun _ ht => nomatch ht⟩

section

variable {whole rest : List Token} {t : Token}

theorem fresh_behind (h : t :: rest <:+ whole) (ht : opensOperand t = true) : Fresh whole rest := by
  obtain ⟨before, hwhole⟩ := h
  refine ⟨before ++ [t], by rw [← hwhole]; simp, fun q hq => ?_⟩
  rw [List.getLast?_concat] at hq
  obtain rfl := Option.some.inj hq
  exact ht

theorem behindOperand_of_ends (h : t :: rest <:+ whole) (ht : endsOperand t = true) :
    BehindOperand whole rest := by
  obtain ⟨before, hwhole⟩ := h
  exact ⟨before, t, hwhole.symm, ht⟩

theorem atOperand_right {level : Level} (h : t :: rest <:+ whole)
    (hop : (level.operator? t).isSome = true)
    (hleft : NeedsLeft t ∨ BehindOperand whole (t :: rest)) : AtOperand whole rest (level.strength - 1) := by
  rcases hleft with hneeds | ⟨before, s, hwhole, hs⟩
  · obtain ⟨before, hwhole⟩ := h
    exact ⟨before ++ [t], by rw [← hwhole]; simp, .right hop (.inl hneeds)⟩
  · exact ⟨(before ++ [s]) ++ [t], by rw [hwhole]; simp, .right hop (.inr ⟨s, by simp, hs⟩)⟩

theorem AtOperand.unary {k : Nat} (h : AtOperand whole (t :: rest) k)
    (hop : (unaryOp? t).isSome = true) : AtOperand whole rest 1 := by
  obtain ⟨before, hwhole, hlevel⟩ := h
  exact ⟨before ++ [t], by rw [hwhole]; simp, .unary hop hlevel⟩

theorem opens_of_isSymbol {s : Symbol} (h : isSymbol s t = true) (hs : s ∉ operators) :
    opensOperand t = true := by
  simp only [opensOperand, kind_of_isSymbol h, decide_eq_true_eq]
  exact hs

end

end Grammar

end LoxLang
