import LoxLang.Proofs.Grammar.Acceptance
import LoxLang.Proofs.Grammar.Retelling
import LoxLang.Proofs.Lexical.Joining

/-!
# Reading one program behind another

Where two programs are each read without a problem, the tokens of the one followed by those of the
other are read as the statements of the one followed by those of the other. Labels in the second
part may be others; references go on where those of the first part end.
-/

namespace LoxLang

namespace Grammar

/-- A program is read without a problem where its rule ends without one. -/
theorem read_eq_ok_iff {α : Type} {rule : Nat → Rule α} {tokens : List Token}
    {nextId next : RefId} {tree : α} :
    read rule tokens nextId = ⟨.ok tree, next⟩ ↔
      ∃ c, rule (tokens.length + 1) (Cursor.ofTokens tokens nextId) = .ok tree c ∧
        c.problems = [] ∧ c.nextId = next := by
  constructor
  · intro h
    obtain ⟨c, hrule, hproblems⟩ := result_eq_ok_iff.mp (congrArg Reading.result h)
    refine ⟨c, hrule, hproblems, ?_⟩
    have hnext := congrArg Reading.nextId h
    unfold read at hnext
    rw [hrule] at hnext
    dsimp only at hnext
    rwa [hproblems] at hnext
  · rintro ⟨c, hrule, hproblems, rfl⟩
    unfold read
    rw [hrule]
    dsimp only
    rw [hproblems]

section

variable {p : Retelling} {room budget budget' : Nat}

theorem relabelBody_append (ρ : Relabelling) (body body' : List Stmt) :
    relabelBody ρ (body ++ body') = relabelBody ρ body ++ relabelBody ρ body' := by
  simp only [relabelBody_eq_map, List.map_append]

theorem relabelBody_toList (ρ : Relabelling) (statement : Option Stmt) :
    relabelBody ρ statement.toList = (statement.map (Stmt.relabel ρ)).toList := by
  cases statement <;> simp [relabelBody]

/-- Declarations that end with the text are read again where the text ends as well. -/
theorem retells_declarations (hbudget : room ≤ budget) (hbudget' : room ≤ budget')
    {count count' : Nat} (hcount : room ≤ count) (hcount' : room ≤ count') :
    Retells p room 0 1 (relabelBody p.labels) (declarations budget count)
      (declarations budget' count') := by
  induction count generalizing room count' with
  | zero =>
    obtain rfl : room = 0 := Nat.le_zero.mp hcount
    have hnone : Retells p 0 0 1 (relabelBody p.labels) (pure []) (pure []) :=
      retells_pure (by simp only [relabelBody])
    exact hnone.of_zero
  | succ count ih =>
    refine Retells.bounded (fun count' => declarations budget' count') hcount'
      fun count' hcount' => ?_
    unfold declarations
    refine retells_atEnd.use fun ended => Retells.ite (fun _ => retells_pure ?_) fun _ => ?_
    · simp only [relabelBody]
    have hfirst : Retells p room 1 0 (Option.map (Stmt.relabel p.labels))
        (ruleAt budget .declaration) (ruleAt budget' .declaration) :=
      (retells_ruleAt hbudget hbudget' .declaration).mono (Nat.le_refl _) (by decide)
        (Nat.le_refl _)
    have hrest : Retells p (room - 1) 0 1 (relabelBody p.labels) (declarations budget count)
        (declarations budget' count') :=
      ih (by omega) (by omega) (by omega) (by omega)
    refine hfirst.use fun first => hrest.use fun rest => retells_pure ?_
    rw [relabelBody_append, relabelBody_toList]

theorem declarations_of_nil {count : Nat} {c : Cursor} (h : c.rest = []) :
    declarations budget count c = .ok [] c := by
  cases count with
  | zero => rfl
  | succ count =>
    simp only [declarations, bind, EStateM.bind, atEnd, h, List.isEmpty_nil, if_true]
    rfl

theorem declarations_of_ne_nil {count : Nat} {c : Cursor} (h : c.rest ≠ []) :
    declarations budget (count + 1) c =
      (ruleAt budget .declaration >>= fun first =>
        (first.toList ++ ·) <$> declarations budget count) c := by
  have hempty : c.rest.isEmpty = false := List.isEmpty_eq_false_iff.mpr h
  simp only [declarations, bind, EStateM.bind, atEnd, hempty, Bool.false_eq_true, if_false]
  rfl

/-- Declarations that end with the text are read first where more comes behind the text. What
comes behind is read next. -/
theorem declarations_continue (hbudget : room ≤ budget) (hbudget' : room ≤ budget')
    {count count' : Nat} (hcount : room ≤ count) {c c₁ c' : Cursor} {body : List Stmt}
    (hroom : c.rest.length < room) (hcount' : c.rest.length < count')
    (hread : declarations budget count c = .ok body c₁) (hproblems : c₁.problems = [])
    (hlimit : c₁.nextId ≤ p.limit) (hmoves : p.Moves c c') :
    ∃ count'' c'', count' ≤ count'' + c.rest.length ∧ c₁.rest = [] ∧ p.Moves c₁ c'' ∧
      declarations budget' count' c' =
        ((relabelBody p.labels body ++ ·) <$> declarations budget' count'') c'' := by
  induction count generalizing room c c' body count' with
  | zero => omega
  | succ count ih =>
    by_cases hnil : c.rest = []
    · rw [declarations_of_nil hnil] at hread
      injection hread with hbody hcursor
      subst hbody hcursor
      refine ⟨count', c', Nat.le_add_right _ _, hnil, hmoves, ?_⟩
      simp only [relabelBody, List.nil_append, id_map']
    rw [declarations_of_ne_nil hnil] at hread
    obtain ⟨count', rfl⟩ : ∃ n, count' = n + 1 := ⟨count' - 1, by omega⟩
    cases hfirst : ruleAt budget .declaration c with
    | error problem c₂ =>
      simp only [bind, EStateM.bind, hfirst] at hread
      cases hread
    | ok first c₂ =>
    cases hrest : declarations budget count c₂ with
    | error problem c₃ =>
      simp only [bind, EStateM.bind, hfirst, Functor.map, EStateM.map, hrest] at hread
      cases hread
    | ok rest c₃ =>
    simp only [bind, EStateM.bind, hfirst, Functor.map, EStateM.map, hrest,
      EStateM.Result.ok.injEq] at hread
    obtain ⟨rfl, rfl⟩ := hread
    -- Both parts are without a problem, as what comes after them is.
    obtain ⟨hproblems₂, hnext₂, -, -⟩ :=
      (retells_declarations (p := p) (Nat.zero_le budget) (Nat.zero_le budget')
        (Nat.zero_le count) (Nat.zero_le count') _ c₂ rfl).of_ok hrest hproblems
    obtain ⟨-, -, htaken, hrepeats⟩ :=
      (retells_ruleAt (p := p) hbudget hbudget' .declaration _ c rfl).of_ok hfirst hproblems₂
    have hlength : c₂.rest.length + 2 ≤ c.rest.length := htaken hroom
    obtain ⟨c₂', hfirst', hmoves₂⟩ :=
      hrepeats hroom (.inr (Nat.zero_le _)) (Nat.le_trans hnext₂ hlimit) c' hmoves
    obtain ⟨count'', c'', hcount'', hnil₁, hmoves₁, hjoined⟩ :=
      @ih (room - 1) (by omega) (by omega) count' (by omega) c₂ c₂' rest (by omega) (by omega)
        hrest hmoves₂
    refine ⟨count'', c'', by omega, hnil₁, hmoves₁, ?_⟩
    have hne : c'.rest ≠ [] := by
      rw [hmoves.rest]
      simp [hnil]
    rw [declarations_of_ne_nil hne]
    simp only [bind, EStateM.bind, hfirst', Category.relabel, Functor.map, EStateM.map, hjoined]
    cases declarations budget' count'' c'' <;>
      simp only [relabelBody_append, relabelBody_toList, List.append_assoc]

end

end Grammar

open Grammar

theorem length_beforeEnd_lt (tokens : List Token) :
    (beforeEnd tokens).length < tokens.length + 1 :=
  Nat.lt_succ_of_le (List.takeWhile_sublist _).length_le

/-- A program that is read without a problem is read in the same way with other labels. -/
theorem readProgram_relabel {tokens tokens' : List Token} {nextId next : RefId}
    {body : List Stmt} {ρ : Relabelling} (h : readProgram tokens nextId = ⟨.ok body, next⟩)
    (shift : RefId) (hids : ∀ id < next, ρ.id id = id + shift)
    (htokens : beforeEnd tokens' = (beforeEnd tokens).map (Token.relabel ρ)) :
    readProgram tokens' (nextId + shift) = ⟨.ok (relabelBody ρ body), next + shift⟩ := by
  obtain ⟨c, hrule, hproblems, rfl⟩ := read_eq_ok_iff.mp h
  let p : Retelling := ⟨ρ, shift, c.nextId, [], hids, fun t ht => nomatch ht⟩
  have hlength := length_beforeEnd_lt tokens
  have hlength' := length_beforeEnd_lt tokens'
  rw [htokens, List.length_map] at hlength'
  have hretells : Retells p ((beforeEnd tokens).length + 1) 0 1 (relabelBody ρ)
      (program (tokens.length + 1)) (program (tokens'.length + 1)) :=
    retells_declarations hlength hlength' hlength hlength'
  obtain ⟨-, -, -, hrepeats⟩ := (hretells _ _ rfl).of_ok hrule hproblems
  have hmoves : p.Moves (Cursor.ofTokens tokens nextId)
      (Cursor.ofTokens tokens' (nextId + shift)) :=
    ⟨by rw [List.append_nil]; exact htokens, rfl, rfl, rfl⟩
  obtain ⟨c', hrule', hmoves'⟩ :=
    hrepeats (Nat.lt_succ_self _) (.inl rfl) (Nat.le_refl _) _ hmoves
  exact read_eq_ok_iff.mpr ⟨c', hrule', hmoves'.problems, hmoves'.nextId⟩

/-- The tree of a program has no other labels than its tokens and its references. -/
theorem relabelBody_eq_self {tokens : List Token} {nextId next : RefId} {body : List Stmt}
    {ρ : Relabelling} (h : readProgram tokens nextId = ⟨.ok body, next⟩)
    (hids : ∀ id < next, ρ.id id = id) (hlines : ∀ t ∈ tokens, ρ.line t.line = t.line) :
    relabelBody ρ body = body := by
  have htokens : beforeEnd tokens = (beforeEnd tokens).map (Token.relabel ρ) := by
    have hsame : (beforeEnd tokens).map (Token.relabel ρ) = (beforeEnd tokens).map id := by
      refine List.map_congr_left fun t ht => ?_
      have hline := hlines t ((List.takeWhile_sublist _).subset ht)
      simp only [Token.relabel, hline, id]
    rw [hsame, List.map_id]
  have hagain := readProgram_relabel h 0 hids htokens
  simp only [Nat.add_zero] at hagain
  rw [h] at hagain
  exact (Except.ok.inj (congrArg Reading.result hagain)).symm

/-- Two programs that are each read without a problem are read one behind the other. -/
theorem readProgram_joined {first second both : List Token} {nextId next next' : RefId}
    {body body' : List Stmt} {ρ : Relabelling}
    (h : readProgram first nextId = ⟨.ok body, next⟩)
    (h' : readProgram second 0 = ⟨.ok body', next'⟩)
    (hids : ∀ id < next', ρ.id id = id + next)
    (hboth : beforeEnd both = beforeEnd first ++ (beforeEnd second).map (Token.relabel ρ)) :
    readProgram both nextId = ⟨.ok (body ++ relabelBody ρ body'), next' + next⟩ := by
  obtain ⟨c, hrule, hproblems, rfl⟩ := read_eq_ok_iff.mp h
  obtain ⟨c₁, hrule₁, hproblems₁, rfl⟩ := read_eq_ok_iff.mp h'
  have hlength := length_beforeEnd_lt first
  have hlength₁ := length_beforeEnd_lt second
  have hlength' := length_beforeEnd_lt both
  rw [hboth, List.length_append, List.length_map] at hlength'
  -- The second program does not begin with an `else`, which the first one might take.
  have hstops : Avoids (isWord .elseWord) ((beforeEnd second).map (Token.relabel ρ)) := by
    have hderives := derives_of_readProgram (congrArg Reading.result h')
    intro t ht
    rw [List.head?_map] at ht
    obtain ⟨t', ht', rfl⟩ := Option.map_eq_some_iff.mp ht
    exact avoids_word hderives (by decide) t' ht'
  let p : Retelling := ⟨⟨id, id⟩, 0, c.nextId, (beforeEnd second).map (Token.relabel ρ),
    fun _ _ => rfl, hstops⟩
  have hmoves : p.Moves (Cursor.ofTokens first nextId) (Cursor.ofTokens both nextId) := by
    refine ⟨?_, rfl, rfl, rfl⟩
    show beforeEnd both = (beforeEnd first).map id ++ _
    rw [List.map_id, hboth]
  have hstart : (Cursor.ofTokens first nextId).rest.length = (beforeEnd first).length := rfl
  have hbudget : (beforeEnd first).length + 1 ≤ both.length + 1 := by omega
  have hcount : (Cursor.ofTokens first nextId).rest.length < both.length + 1 := by omega
  obtain ⟨count, c', hcount, hnil, hmoves', hjoined⟩ :=
    declarations_continue (p := p) hlength hbudget hlength (Nat.lt_succ_self _) hcount
      hrule hproblems (Nat.le_refl _) hmoves
  have hbody : relabelBody p.labels body = body :=
    relabelBody_eq_self h (fun _ _ => rfl) fun _ _ => rfl
  have hdepth : c.loopDepth = 0 := by
    have htakes := takes_declarations hlength hlength
      (derives_of.mp (derives_of_readProgram (congrArg Reading.result h)))
    exact ((htakes _ (List.append_nil _).symm (ofTokens_inLoop first nextId)).of_ok hrule).2.1
  -- Where the first program ends, the second one is read at another place.
  let p' : Retelling := ⟨ρ, c.nextId, c₁.nextId, [], hids, fun t ht => nomatch ht⟩
  have hretells : Retells p' ((beforeEnd second).length + 1) 0 1 (relabelBody ρ)
      (program (second.length + 1)) (declarations (both.length + 1) count) :=
    retells_declarations hlength₁ (by omega) hlength₁
      (by omega)
  obtain ⟨-, -, -, hrepeats⟩ := (hretells _ _ rfl).of_ok hrule₁ hproblems₁
  have hmoves₁ : p'.Moves (Cursor.ofTokens second 0) c' := by
    refine ⟨?_, ?_, ?_, hmoves'.problems⟩
    · rw [hmoves'.rest, hnil, List.append_nil]
      rfl
    · rw [hmoves'.loopDepth, hdepth]
      rfl
    · rw [hmoves'.nextId, Nat.add_zero]
      exact (Nat.zero_add _).symm
  obtain ⟨c₁', hrun, hmoves₁'⟩ :=
    hrepeats (Nat.lt_succ_self _) (.inl rfl) (Nat.le_refl _) c' hmoves₁
  refine read_eq_ok_iff.mpr ⟨c₁', ?_, hmoves₁'.problems, hmoves₁'.nextId⟩
  show declarations (both.length + 1) (both.length + 1) _ = _
  rw [hjoined, hbody]
  simp only [Functor.map, EStateM.map, hrun]

end LoxLang
