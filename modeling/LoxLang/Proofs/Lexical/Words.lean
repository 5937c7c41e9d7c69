import LoxLang.Lexical.Item
import LoxLang.Proofs.Grammar.Formation
import LoxLang.Proofs.Lexical.Tiling

/-!
# Words and names

A name begins with a letter or an underscore, and a word with the letters of a reserved word is
never a name: no token of a source names `this` or `super`, so that the trees of a source are
formed.
-/

namespace LoxLang

namespace Tile

/-- The text of bytes begins with the character of the first of them. -/
theorem head?_decode {b : UInt8} (hb : b < 0x80) (rest : List UInt8) :
    (Utf8.decode (b :: rest)).toList.head? = some (Char.ofUInt8 b) := by
  unfold Utf8.decode Utf8.units
  simp [Utf8.unitsFrom, Utf8.step, Utf8.start_ascii hb]

/-- A word begins with a letter or an underscore. -/
theorem head?_word {b : UInt8} (h : startsWord b = true) (rest : List UInt8) :
    (Utf8.decode (b :: rest)).toList.head? ≠ some '<' := by
  rw [head?_decode (ascii_of_startsWord h)]
  intro heq
  rw [char_ofUInt8_eq (Option.some.inj heq)] at h
  exact absurd h (by decide)

/-- A tile that is no name with the letters of a reserved word, nor one that cannot begin so. -/
def Content.Plain (content : Content) : Prop :=
  ∀ name, content = .token (.identifier name) →
    Keyword.ofSpelling? name = none ∧ name.toList.head? ≠ some '<'

theorem plain_wordKind {b : UInt8} (h : startsWord b = true) (rest : List UInt8) :
    (Content.token (wordKind (b :: rest))).Plain := by
  intro name hname
  unfold wordKind at hname
  cases hword : Keyword.ofSpelling? (Utf8.decode (b :: rest)) with
  | some keyword => simp [hword] at hname
  | none =>
    simp only [hword, Content.token.injEq, Token.Kind.identifier.injEq] at hname
    rw [← hname]
    exact ⟨hword, head?_word h rest⟩

theorem plain_classifySymbol (symbol : Symbol) (rest : List UInt8) :
    (classifySymbol symbol rest).content.Plain := by
  unfold classifySymbol
  split
  · split <;> intro name h <;> cases h
  · intro name h
    cases h

theorem plain_classifySlash (rest : List UInt8) : (classifySlash rest).content.Plain := by
  unfold classifySlash
  split
  · intro name h
    cases h
  · split
    · intro name h
      cases h
    · split
      · split <;> intro name h <;> cases h
      · intro name h
        cases h

theorem plain_classifyText (quote : Quote) (rest : List UInt8) :
    (classifyText quote rest).content.Plain := by
  unfold classifyText
  simp only
  split <;> intro name h <;> cases h

/-- Names come from words only, and a reserved word is recognised there. -/
theorem plain_classify (b : UInt8) (rest : List UInt8) : (classify b rest).content.Plain := by
  unfold classify
  split
  · intro name h
    cases h
  · split
    · intro name h
      cases h
    · split
      · next hword => exact plain_wordKind hword _
      · split
        · exact plain_classifyText _ rest
        · split
          · exact plain_classifySlash rest
          · exact plain_classifySymbol _ rest
          · intro name h
            cases h

theorem plain_tilesAfter (covered : Nat) (source : List UInt8) :
    ∀ tile ∈ tilesAfter covered source, tile.content.Plain := by
  induction source generalizing covered with
  | nil => simp [tilesAfter]
  | cons b rest ih =>
    cases covered with
    | succ covered => exact ih covered
    | zero =>
      intro tile htile
      rcases List.mem_cons.mp htile with rfl | htile
      · exact plain_classify b rest
      · exact ih _ tile htile

end Tile

/-- Tokens with the letters of a reserved word are that word, and names begin as words do. -/
theorem ofTiles_names {tiles : List Tile} (h : ∀ tile ∈ tiles, tile.content.Plain) (line : Nat) :
    ∀ t ∈ (Item.ofTiles line tiles).filterMap Item.token?, ∀ name,
      t.kind = .identifier name →
        Keyword.ofSpelling? name = none ∧ name.toList.head? ≠ some '<' := by
  induction tiles generalizing line with
  | nil =>
    intro t ht name hname
    simp only [Item.ofTiles, List.filterMap_cons, Item.token?, List.filterMap_nil,
      List.mem_singleton] at ht
    subst ht
    cases hname
  | cons tile rest ih =>
    have hrest := ih (fun t ht => h t (List.mem_cons_of_mem tile ht)) (line + tile.newlines)
    unfold Item.ofTiles
    simp only
    split
    · next kind hcontent =>
      intro t ht name hname
      rcases List.mem_cons.mp ht with rfl | ht
      · refine h tile List.mem_cons_self name ?_
        rw [hcontent]
        exact congrArg Tile.Content.token hname
      · exact hrest t ht name hname
    · exact hrest
    · exact hrest

theorem tokensOf_names (source : List UInt8) :
    ∀ t ∈ tokensOf source, ∀ name, t.kind = .identifier name →
      Keyword.ofSpelling? name = none ∧ name.toList.head? ≠ some '<' :=
  ofTiles_names (Tile.plain_tilesAfter 0 source) 1

theorem plainToken_tokensOf (source : List UInt8) :
    ∀ t ∈ tokensOf source, Grammar.PlainToken t := by
  intro t ht name hname
  obtain ⟨hword, hfirst⟩ := tokensOf_names source t ht name hname
  refine ⟨?_, ?_, ?_⟩
  · rintro rfl
    simp [thisName, Keyword.ofSpelling?] at hword
  · rintro rfl
    simp [superName, Keyword.ofSpelling?] at hword
  · rintro rfl
    simp [placeholderName] at hfirst

end LoxLang
