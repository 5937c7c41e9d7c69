import LoxLang.Grammar.Program
import LoxLang.Proofs.Ensures
import LoxLang.Proofs.Scoping.Site

/-!
# What rules read

A rule reads on from where it stands and takes references that are still free. `Reads` says
both, with a relation between what was read and any bounds of the references taken meanwhile; it
is told what holds if there is a loop around. For the trees of the grammar the relation is
`Good`: they are formed as texts form them, and the references of their occurrences are pairwise
distinct and lie within the bounds.
-/

namespace LoxLang

namespace Grammar

/-! ## References taken -/

/-- Pairwise distinct references within bounds. -/
structure Spans (low high : Nat) (ids : List Nat) : Prop where
  le : low ≤ high
  nodup : ids.Nodup
  inside : ∀ id ∈ ids, low ≤ id ∧ id < high

theorem Spans.nil {low high : Nat} (h : low ≤ high) : Spans low high [] :=
  ⟨h, List.nodup_nil, by simp⟩

theorem Spans.single (low : Nat) : Spans low (low + 1) [low] :=
  ⟨Nat.le_succ low, by simp, by simp⟩

theorem Spans.widen {low low' high high' : Nat} {ids : List Nat} (h : Spans low high ids)
    (hlow : low' ≤ low) (hhigh : high ≤ high') : Spans low' high' ids where
  le := by have := h.le; omega
  nodup := h.nodup
  inside id hid := by have := h.inside id hid; omega

/-- What is taken first lies below what is taken later. -/
theorem Spans.append {low middle low' high : Nat} {ids ids' : List Nat}
    (h : Spans low middle ids) (h' : Spans low' high ids') (hle : middle ≤ low') :
    Spans low high (ids ++ ids') where
  le := by have := h.le; have := h'.le; omega
  nodup := by
    refine List.nodup_append.mpr ⟨h.nodup, h'.nodup, ?_⟩
    intro id hid id' hid'
    have := h.inside id hid
    have := h'.inside id' hid'
    omega
  inside id hid := by
    have := h.le
    have := h'.le
    rcases List.mem_append.mp hid with hid | hid
    · have := h.inside id hid
      omega
    · have := h'.inside id hid
      omega

theorem Spans.perm {low high : Nat} {ids ids' : List Nat} (h : Spans low high ids)
    (hperm : ids.Perm ids') : Spans low high ids' where
  le := h.le
  nodup := hperm.nodup_iff.mp h.nodup
  inside id hid := h.inside id (hperm.mem_iff.mpr hid)

/-! ## Rules that read -/

/-- A token that is no name, or a name that can stand in a program. -/
def PlainToken (t : Token) : Prop :=
  ∀ name, t.kind = .identifier name → (Name.mk name t.line).Plain

/-- A cursor before plain tokens. -/
def Plain (c : Cursor) : Prop :=
  ∀ t ∈ c.rest, PlainToken t

/-- A cursor later in the same text, with as many loops around. -/
structure Later (c c' : Cursor) : Prop where
  rest : c'.rest <:+ c.rest
  nextId : c.nextId ≤ c'.nextId
  loops : c'.loopDepth = c.loopDepth

theorem Later.refl (c : Cursor) : Later c c :=
  ⟨List.suffix_rfl, Nat.le_refl _, rfl⟩

theorem Later.trans {a b c : Cursor} (h : Later a b) (h' : Later b c) : Later a c :=
  ⟨h'.rest.trans h.rest, Nat.le_trans h.nextId h'.nextId, h'.loops.trans h.loops⟩

theorem Plain.later {c c' : Cursor} (h : Plain c) (later : Later c c') : Plain c' :=
  fun t ht => h t (later.rest.subset ht)

variable {α β : Type} {loop : Prop}

/-- What holds if there is a loop around the cursor. -/
def Looped (loop : Prop) (c : Cursor) : Prop :=
  c.loopDepth ≠ 0 → loop

theorem Looped.later {c c' : Cursor} (h : Looped loop c) (later : Later c c') : Looped loop c' := by
  unfold Looped
  rwa [later.loops]

/-- A rule reads on, and what it reads is in relation `good` to all bounds of the references it
takes. -/
def Reads (loop : Prop) (rule : Rule α) (good : Nat → Nat → α → Prop) : Prop :=
  ∀ (c : Cursor) (low : Nat), Plain c → Looped loop c → low ≤ c.nextId →
    Ensures rule c (fun a c' => Later c c' ∧ ∀ high, c'.nextId ≤ high → good low high a)
      fun _ c' => Later c c'

variable {rule : Rule α} {next : α → Rule β} {first good : Nat → Nat → α → Prop}
  {goodNext : Nat → Nat → β → Prop}

theorem Reads.mono {good' : Nat → Nat → α → Prop} (h : Reads loop rule good)
    (imp : ∀ low high a, good low high a → good' low high a) : Reads loop rule good' := by
  intro c low hc hloop hlow
  exact (h c low hc hloop hlow).mono
    (fun a c' ⟨later, hgood⟩ => ⟨later, fun high hhigh => imp _ _ a (hgood high hhigh)⟩)
    fun _ _ later => later

/-- Bounds of what was taken are bounds in their order. -/
theorem Reads.ordered (h : Reads loop rule good) :
    Reads loop rule fun low high a => low ≤ high ∧ good low high a := by
  intro c low hc hloop hlow
  refine (h c low hc hloop hlow).mono ?_ fun _ _ later => later
  intro a c' ⟨later, hgood⟩
  refine ⟨later, fun high hhigh => ⟨?_, hgood high hhigh⟩⟩
  exact Nat.le_trans hlow (Nat.le_trans later.nextId hhigh)

/-- What was read first may be used for what is read next, which takes references above. -/
theorem Reads.use (h : Reads loop rule first)
    (h' : ∀ a low middle, first low middle a →
      Reads loop (next a) fun low' high b => middle ≤ low' → goodNext low high b) :
    Reads loop (rule >>= next) goodNext := by
  intro c low hc hloop hlow
  refine Ensures.bind (h c low hc hloop hlow) ?_
  intro a c' ⟨later, hfirst⟩
  have hnext := h' a low c'.nextId (hfirst c'.nextId (Nat.le_refl _)) c' c'.nextId
    (hc.later later) (hloop.later later) (Nat.le_refl _)
  refine hnext.mono ?_ fun _ c'' later' => later.trans later'
  intro b c'' ⟨later', hgood⟩
  exact ⟨later.trans later', fun high hhigh => hgood high hhigh (Nat.le_refl _)⟩

/-- What was read first need not be used. -/
theorem Reads.skip (h : Reads loop rule first) (h' : ∀ a, Reads loop (next a) goodNext) :
    Reads loop (rule >>= next) goodNext := by
  intro c low hc hloop hlow
  refine Ensures.bind (h c low hc hloop hlow) ?_
  intro a c' ⟨later, _⟩
  refine (h' a c' low (hc.later later) (hloop.later later)
    (Nat.le_trans hlow later.nextId)).mono ?_ fun _ c'' later' => later.trans later'
  intro b c'' ⟨later', hgood⟩
  exact ⟨later.trans later', hgood⟩

theorem reads_pure {a : α} (h : ∀ low high, low ≤ high → good low high a) :
    Reads loop (pure a) good :=
  fun c _ _ _ hlow => ⟨.refl c, fun _ hhigh => h _ _ (Nat.le_trans hlow hhigh)⟩

theorem reads_throw {problem : Problem} : Reads loop (throw problem) good :=
  fun c _ _ _ _ => Later.refl c

theorem reads_failHere {cause : Cause} : Reads loop (failHere cause) good :=
  fun c _ _ _ _ => Later.refl c

theorem reads_ite {condition : Prop} [Decidable condition] {rule' : Rule α}
    (h : Reads loop rule good) (h' : Reads loop rule' good) :
    Reads loop (if condition then rule else rule') good := by
  split
  · exact h
  · exact h'

/-! ## Primitive rules -/

/-- Nothing is said of what was read. -/
def Anything (_ _ : Nat) (_ : α) : Prop := True

theorem reads_peek : Reads loop peek fun _ _ t => PlainToken t := by
  intro c low hc _ _
  refine ⟨.refl c, fun _ _ => ?_⟩
  unfold Cursor.peek
  split
  · next token rest h => exact hc token (by simp [h])
  · intro name h
    cases h

theorem reads_advance : Reads loop advance Anything :=
  fun c _ _ _ _ => ⟨⟨List.tail_suffix c.rest, Nat.le_refl _, rfl⟩, fun _ _ => trivial⟩

theorem reads_atEnd : Reads loop atEnd Anything :=
  fun c _ _ _ _ => ⟨.refl c, fun _ _ => trivial⟩

theorem reads_loopDepth : Reads loop loopDepth fun _ _ depth => depth ≠ 0 → loop :=
  fun c _ _ hloop _ => ⟨.refl c, fun _ _ => hloop⟩

theorem reads_freshId : Reads loop freshId fun low high id => Spans low high [id] := by
  intro c low _ _ hlow
  refine ⟨⟨List.suffix_rfl, Nat.le_succ _, rfl⟩, fun high hhigh => ?_⟩
  exact (Spans.single c.nextId).widen hlow hhigh

theorem reads_note (problem : Problem) : Reads loop (note problem) Anything :=
  fun _ _ _ _ _ => ⟨⟨List.suffix_rfl, Nat.le_refl _, rfl⟩, fun _ _ => trivial⟩

theorem reads_atSymbol (symbol : Symbol) : Reads loop (atSymbol symbol) Anything :=
  reads_peek.skip fun _ => reads_pure fun _ _ _ => trivial

theorem reads_accept (symbol : Symbol) : Reads loop (accept symbol) Anything :=
  (reads_atSymbol symbol).skip fun _ =>
    reads_ite (reads_advance.skip fun _ => reads_pure fun _ _ _ => trivial)
      (reads_pure fun _ _ _ => trivial)

theorem reads_acceptWord (word : Keyword) : Reads loop (acceptWord word) Anything :=
  reads_peek.skip fun _ =>
    reads_ite (reads_advance.skip fun _ => reads_pure fun _ _ _ => trivial)
      (reads_pure fun _ _ _ => trivial)

theorem reads_expect (landmark : Landmark) : Reads loop (expect landmark) Anything :=
  reads_peek.skip fun _ =>
    reads_ite (reads_advance.skip fun _ => reads_pure fun _ _ _ => trivial) reads_failHere

theorem reads_expectName (role : NameRole) :
    Reads loop (expectName role) fun _ _ name => name.Plain := by
  refine reads_peek.use fun token _ _ hplain => ?_
  split
  · next name hkind =>
    exact reads_advance.skip fun _ => reads_pure fun _ _ _ _ => hplain name hkind
  · exact reads_failHere

/-- Reading with another number of loops around. -/
theorem reads_withLoopDepth {change : Nat → Nat} {within : Prop} (h : Reads within rule good)
    (hchange : ∀ depth, change depth ≠ 0 → within) :
    Reads loop (withLoopDepth change rule) good := by
  intro c low hc _ hlow
  have hinner := h { c with loopDepth := change c.loopDepth } low hc (hchange c.loopDepth) hlow
  unfold Ensures withLoopDepth at *
  cases hrule : rule { c with loopDepth := change c.loopDepth } with
  | ok a c' =>
    rw [hrule] at hinner
    exact ⟨⟨hinner.1.rest, hinner.1.nextId, rfl⟩, hinner.2⟩
  | error problem c' =>
    rw [hrule] at hinner
    exact ⟨hinner.rest, hinner.nextId, rfl⟩

theorem skipStatement_suffix (tokens : List Token) : skipStatement tokens <:+ tokens := by
  induction tokens with
  | nil => exact List.suffix_rfl
  | cons token rest ih =>
    unfold skipStatement
    split
    · exact List.suffix_cons token rest
    · exact ih.trans (List.suffix_cons token rest)

theorem reads_recover (h : Reads loop rule good) :
    Reads loop (recover rule) fun low high found => low ≤ high ∧ ∀ a ∈ found, good low high a := by
  intro c low hc hloop hlow
  have hinner := h c low hc hloop hlow
  unfold Ensures recover at *
  cases hrule : rule c with
  | ok a c' =>
    rw [hrule] at hinner
    refine ⟨hinner.1, fun high hhigh => ⟨?_, ?_⟩⟩
    · exact Nat.le_trans hlow (Nat.le_trans hinner.1.nextId hhigh)
    intro b hb
    cases hb
    exact hinner.2 high hhigh
  | error problem c' =>
    rw [hrule] at hinner
    have hskipped := (skipStatement_suffix c'.rest).trans hinner.rest
    refine ⟨⟨hskipped, hinner.nextId, hinner.loops⟩, fun high hhigh => ?_⟩
    refine ⟨Nat.le_trans hlow (Nat.le_trans hinner.nextId hhigh), ?_⟩
    intro b hb
    cases hb

/-! ## Repetition -/

/-- Something read that is in order, with the references that occur in it. -/
def Good (ok : α → Prop) (ids : α → List Nat) (low high : Nat) (a : α) : Prop :=
  ok a ∧ Spans low high (ids a)

/-- Several things read that are in order. -/
abbrev GoodList (ok : α → Prop) (ids : α → List Nat) : Nat → Nat → List α → Prop :=
  Good (fun as => ∀ a ∈ as, ok a) (fun as => as.flatMap ids)

section

variable {ok : α → Prop} {ids : α → List Nat}

theorem GoodList.nil {low high : Nat} (h : low ≤ high) : GoodList ok ids low high [] :=
  ⟨by simp, Spans.nil h⟩

theorem Good.cons {low middle low' high : Nat} {a : α} {as : List α}
    (h : Good ok ids low middle a) (h' : GoodList ok ids low' high as) (hle : middle ≤ low') :
    GoodList ok ids low high (a :: as) := by
  refine ⟨?_, h.2.append h'.2 hle⟩
  intro b hb
  rcases List.mem_cons.mp hb with rfl | hb
  · exact h.1
  · exact h'.1 b hb

theorem Good.single {low high : Nat} {a : α} (h : Good ok ids low high a) :
    GoodList ok ids low high [a] :=
  h.cons (GoodList.nil (Nat.le_refl high)) (Nat.le_refl high)

theorem Good.widen {low high high' : Nat} {a : α} (h : Good ok ids low high a)
    (hhigh : high ≤ high') : Good ok ids low high' a :=
  ⟨h.1, h.2.widen (Nat.le_refl low) hhigh⟩

/-- What is read after something else of no interest. -/
theorem Good.after {low middle low' high : Nat} {a : α} (h : Good ok ids low' high a)
    (hle : low ≤ middle) (hmiddle : middle ≤ low') : Good ok ids low high a :=
  ⟨h.1, h.2.widen (Nat.le_trans hle hmiddle) (Nat.le_refl high)⟩

theorem reads_commaSeparated {item : Nat → Rule α}
    (h : ∀ count, Reads loop (item count) (Good ok ids)) (budget count : Nat) :
    Reads loop (commaSeparated item budget count) (GoodList ok ids) := by
  induction budget generalizing count with
  | zero => exact reads_failHere
  | succ budget ih =>
    refine (h count).use fun a low middle ha => (reads_accept .comma).skip fun more => ?_
    refine reads_ite ?_ ?_
    · refine (ih (count + 1)).use fun as low' high has => reads_pure fun _ _ hle hhigh hmiddle => ?_
      exact ha.cons (has.widen (Nat.le_trans hhigh hle)) hmiddle
    · refine reads_pure fun _ _ hle hmiddle => ?_
      exact ha.single.widen (Nat.le_trans hmiddle hle)

theorem reads_untilBrace {item : Rule α} (h : Reads loop item (Good ok ids)) (budget : Nat) :
    Reads loop (untilBrace item budget) (GoodList ok ids) := by
  induction budget with
  | zero => exact reads_pure fun _ _ hle => GoodList.nil hle
  | succ budget ih =>
    refine (reads_atSymbol _).skip fun _ => reads_atEnd.skip fun _ => ?_
    refine reads_ite (reads_pure fun _ _ hle => GoodList.nil hle) ?_
    refine h.use fun a low middle ha => ih.use fun as low' high has => ?_
    refine reads_pure fun _ _ hle hhigh hmiddle => ?_
    exact ha.cons (has.widen (Nat.le_trans hhigh hle)) hmiddle

end

end Grammar

end LoxLang
