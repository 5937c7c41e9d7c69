import LoxLang.Proofs.Grammar.Joining

/-!
# Expressions that are printed

An expression that is read without a problem where it is the whole text is read in the same way
behind the word `print` and before a semicolon: no rule of expressions tells a semicolon from the
end of the text.
-/

namespace LoxLang

namespace Grammar

variable {inner : Rules} {c : Cursor}

/-- Behind the word `print` a declaration is a statement that prints. -/
theorem strictDeclaration_of_print (h : isWord .printWord c.peek = true) :
    strictDeclaration inner c = printStatement inner { c with rest := c.rest.tail } := by
  obtain ⟨rest, endLine, loopDepth, nextId, problems⟩ := c
  have hkind := kind_of_isWord h
  cases rest with
  | nil => cases hkind
  | cons token rest =>
    obtain ⟨kind, line⟩ := token
    obtain rfl : kind = .keyword .printWord := hkind
    rfl

/-- A printed expression is read as far as the semicolon behind it. -/
theorem printStatement_eq {c₁ : Cursor} {e : Expr} (hread : inner.read .expression c = .ok e c₁)
    (hmark : isSymbol .semicolon c₁.peek = true) :
    printStatement inner c = .ok (.print e) { c₁ with rest := c₁.rest.tail } := by
  have hsymbol : isSymbol Landmark.printEnd.symbol c₁.peek = true := hmark
  simp only [printStatement, bind, EStateM.bind, hread, expect, peek, hsymbol, if_true]
  rfl

/-- What a whole expression is read by. -/
theorem wholeExpression_eq_ok {budget : Nat} {c₁ : Cursor} {e : Expr}
    (h : wholeExpression budget c = .ok e c₁) :
    ruleAt budget .expression c = .ok e c₁ ∧ c₁.rest = [] := by
  cases hread : ruleAt budget .expression c with
  | error problem c₂ =>
    simp only [wholeExpression, bind, EStateM.bind, hread] at h
    cases h
  | ok e' c₂ =>
    simp only [wholeExpression, bind, EStateM.bind, hread, atEnd] at h
    cases hrest : c₂.rest with
    | nil =>
      simp only [hrest, List.isEmpty_nil, if_true] at h
      cases h
      exact ⟨rfl, hrest⟩
    | cons token rest =>
      simp only [hrest, List.isEmpty_cons, Bool.false_eq_true, if_false] at h
      cases h

/-- The tree of an expression has no other labels than those it is read with. -/
theorem relabel_eq_self {budget : Nat} {c₁ : Cursor} {e : Expr}
    (hread : ruleAt budget .expression c = .ok e c₁) (hproblems : c₁.problems = [])
    (hbudget : c.rest.length < budget) : e.relabel ⟨id, id⟩ = e := by
  let p : Retelling := ⟨⟨id, id⟩, 0, c₁.nextId, [], fun _ _ => rfl, nofun⟩
  have hagain : p.Repeats (c.rest.length + 1) 1 p.look c c₁ (e.relabel p.labels)
      (ruleAt budget .expression) :=
    (retells_ruleAt (p := p) hbudget hbudget .expression _ c rfl).of_ok hread hproblems
  have hmoves : p.Moves c c := by
    refine ⟨?_, rfl, rfl, hagain.problems⟩
    show c.rest = c.rest.map id ++ []
    rw [List.map_id, List.append_nil]
  obtain ⟨c', hrun, -⟩ := hagain.repeats (Nat.lt_succ_self _) (.inl rfl) (Nat.le_refl _) c hmoves
  rw [hread] at hrun
  injection hrun with htree
  exact htree.symm

/-- An expression with which a text ends is read before a semicolon as well. -/
theorem read_before_semicolon {budget budget' : Nat} {c₁ c' : Cursor} {e : Expr} {mark : Token}
    (hread : ruleAt budget .expression c = .ok e c₁) (hproblems : c₁.problems = [])
    (hends : c₁.rest = []) (hbudget : c.rest.length < budget) (hbudget' : c.rest.length < budget')
    (hmark : isSymbol .semicolon mark = true) (hrest : c'.rest = c.rest ++ [mark])
    (hsame : c'.loopDepth = c.loopDepth ∧ c'.nextId = c.nextId ∧ c'.problems = c.problems) :
    ∃ c₁', ruleAt budget' .expression c' = .ok e c₁' ∧ c₁'.rest = [mark] ∧
      c₁'.nextId = c₁.nextId ∧ c₁'.problems = [] := by
  have hstops : ∀ t ∈ [mark].head?, isWord .elseWord t = false := by
    intro t ht
    obtain rfl := Option.some.inj ht
    simp [isWord, kind_of_isSymbol hmark]
  -- The mark is what is put behind the text; no token and no reference is changed.
  let p : Retelling := ⟨⟨id, id⟩, 0, c₁.nextId, [mark], fun _ _ => rfl, hstops⟩
  have hbehind : p.Repeats (c.rest.length + 1) 1 p.look c c₁ (e.relabel p.labels)
      (ruleAt budget' .expression) :=
    (retells_ruleAt (p := p) hbudget hbudget' .expression _ c rfl).of_ok hread hproblems
  have hlook : p.look = 0 := if_pos hmark
  obtain ⟨hdepth, hnext, hnone⟩ := hsame
  have hmoves : p.Moves c c' := by
    refine ⟨?_, hdepth, hnext, hnone.trans hbehind.problems⟩
    show c'.rest = c.rest.map id ++ [mark]
    rw [List.map_id, hrest]
  have hlooked : p.more = [] ∨ p.look ≤ c₁.rest.length := .inr (by omega)
  obtain ⟨c₁', hrun, hmoves₁⟩ :=
    hbehind.repeats (Nat.lt_succ_self _) hlooked (Nat.le_refl _) c' hmoves
  have htree : e.relabel p.labels = e := relabel_eq_self hread hproblems hbudget
  rw [htree] at hrun
  refine ⟨c₁', hrun, ?_, hmoves₁.nextId, hmoves₁.problems⟩
  rw [hmoves₁.rest, hends]
  rfl

end Grammar

open Grammar

variable {tokens tokens' : List Token} {nextId next : RefId} {e : Expr}

/-- An expression that is read without a problem is read behind `print` as well. -/
theorem readProgram_print {word mark : Token} (h : readExpression tokens nextId = ⟨.ok e, next⟩)
    (hword : isWord .printWord word = true) (hmark : isSymbol .semicolon mark = true)
    (htokens : beforeEnd tokens' = word :: (beforeEnd tokens ++ [mark])) :
    readProgram tokens' nextId = ⟨.ok [.print e], next⟩ := by
  obtain ⟨c, hrule, hproblems, rfl⟩ := read_eq_ok_iff.mp h
  obtain ⟨hread, hends⟩ := wholeExpression_eq_ok hrule
  have hlength := length_beforeEnd_lt tokens
  have hlength' := length_beforeEnd_lt tokens'
  rw [htokens, List.length_cons, List.length_append, List.length_singleton] at hlength'
  let start := Cursor.ofTokens tokens' nextId
  have hstart : start.rest = word :: (beforeEnd tokens ++ [mark]) := htokens
  have hpeek : start.peek = word := by
    unfold Cursor.peek
    rw [hstart]
  obtain ⟨c₁, hrun, hrest, hnext, hnone⟩ :
      ∃ c₁, ruleAt tokens'.length .expression { start with rest := start.rest.tail } = .ok e c₁ ∧
        c₁.rest = [mark] ∧ c₁.nextId = c.nextId ∧ c₁.problems = [] := by
    have hbudget' : (beforeEnd tokens).length < tokens'.length := by omega
    refine read_before_semicolon hread hproblems hends hlength hbudget' hmark ?_ ⟨rfl, rfl, rfl⟩
    show start.rest.tail = beforeEnd tokens ++ [mark]
    rw [hstart, List.tail_cons]
  -- The expression is read behind the word, and what is left of the text is the mark.
  have hprinted : printStatement ⟨tokens'.length + 1, ruleAt tokens'.length⟩
      { start with rest := start.rest.tail } = .ok (.print e) { c₁ with rest := [] } := by
    have hmarked : isSymbol .semicolon c₁.peek = true := by
      unfold Cursor.peek
      rw [hrest, hmark]
    have hstatement : printStatement ⟨tokens'.length + 1, ruleAt tokens'.length⟩
        { start with rest := start.rest.tail } =
          .ok (.print e) { c₁ with rest := c₁.rest.tail } :=
      printStatement_eq hrun hmarked
    rwa [hrest, List.tail_cons] at hstatement
  have hfirst : ruleAt (tokens'.length + 1) .declaration start =
      .ok (some (.print e)) { c₁ with rest := [] } := by
    show recover (strictDeclaration _) start = _
    unfold recover
    rw [strictDeclaration_of_print (by rw [hpeek, hword]), hprinted]
  refine read_eq_ok_iff.mpr ⟨{ c₁ with rest := [] }, ?_, hnone, hnext⟩
  show declarations (tokens'.length + 1) (tokens'.length + 1) start = _
  rw [declarations_of_ne_nil (by rw [hstart]; exact List.cons_ne_nil _ _)]
  simp only [bind, EStateM.bind, hfirst, Functor.map, EStateM.map, declarations_of_nil]
  rfl

end LoxLang
