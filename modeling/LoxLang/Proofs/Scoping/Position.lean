import LoxLang.Proofs.Tree.Formed
import LoxLang.Scoping.Binding

/-!
# Positions

The scopes of a program as its text shows them. A position in the text lies in a list of
scopes, innermost first, each with the names that are declared in it before the position
(`Layer`). Nothing here looks at frames or at the table of bindings: what these have to agree
with is `Position.lookup?`, the rule that the innermost scope counts that has begun to declare a
name before the position.
-/

namespace LoxLang

/-! ## Scopes of the text -/

/-- A part of a program with a scope of its own: a block, a function with its parameters, the
methods of a class or trait with `this`, and those of a subclass with `super`. -/
inductive Region
  | block (body : List Stmt)
  | function (function : Function)
  | receiver
  | superclass

/-- The names that statements declare in the scope they stand in, in order. -/
def declaredNames (body : List Stmt) : List String :=
  (body.filterMap Stmt.declared?).map Name.text

/-- All names of a scope in the order of their declaration. -/
def Region.names : Region → List String
  | block body => declaredNames body
  | function f => f.params.map Name.text ++ declaredNames f.body
  | receiver => [thisName]
  | superclass => [superName]

/-- A scope that has one variable from its start on, which no part of a program declares. -/
def Region.Implicit : Region → Prop
  | receiver => True
  | superclass => True
  | _ => False

/-- An implicit variable is `this` or `super`. -/
theorem Region.Implicit.names {region : Region} (h : region.Implicit) :
    region.names = [thisName] ∨ region.names = [superName] := by
  cases region with
  | receiver => exact .inl rfl
  | superclass => exact .inr rfl
  | _ => exact h.elim

/-- A scope has implicit variables only, or others only. -/
theorem Region.not_implicit {region : Region} {name : String} (mem : name ∈ region.names)
    (explicit : name ≠ thisName ∧ name ≠ superName) : ¬region.Implicit := by
  intro h
  rcases h.names with hnames | hnames
  · rw [hnames, List.mem_singleton] at mem
    exact explicit.1 mem
  · rw [hnames, List.mem_singleton] at mem
    exact explicit.2 mem

/-- A scope as seen from a position in it: the names whose declarations end before the position,
and the name whose declaration the position is a part of, being in its initializer or its
head. -/
structure Layer where
  region : Region
  declared : List String
  pending : Option String

/-- The names that a scope has begun to declare. -/
def Layer.begun (layer : Layer) : List String :=
  layer.declared ++ layer.pending.toList

/-- The scopes around a position, innermost first. -/
abbrev Position := List Layer

namespace Position

/-- The position at the start of a scope that has declared the given names. -/
def enter (region : Region) (declared : List String) (position : Position) : Position :=
  ⟨region, declared, none⟩ :: position

/-- The position within the declaration of a name. -/
def within (name : String) : Position → Position
  | [] => []
  | layer :: outer => { layer with pending := some name } :: outer

/-- The position behind the declaration of a name. -/
def declare (name : String) : Position → Position
  | [] => []
  | layer :: outer => { layer with declared := layer.declared ++ [name], pending := none } :: outer

/-- The position behind a statement. -/
def after (statement : Stmt) (position : Position) : Position :=
  match statement.declared? with
  | some name => position.declare name.text
  | none => position

/-- The position behind statements. -/
def endOf (position : Position) (body : List Stmt) : Position :=
  body.foldl (fun position statement => position.after statement) position

/-- The position of the methods of a class, and of those of a trait. -/
def methods (name : Name) (derived : Bool) (position : Position) : Position :=
  let position := position.declare name.text
  (if derived then position.enter .superclass [superName] else position).enter .receiver [thisName]

/-- No declaration is under way in the innermost scope. -/
def Settled (position : Position) : Prop :=
  ∀ layer ∈ position.head?, layer.pending = none

/-- Outside all scopes no statement moves the position. -/
theorem after_outside (s : Stmt) : Position.after s [] = [] := by
  unfold Position.after
  split <;> rfl

theorem settled_enter (region : Region) (declared : List String) (position : Position) :
    (position.enter region declared).Settled := by
  simp [Settled, enter]

theorem settled_declare (name : String) (position : Position) :
    (position.declare name).Settled := by
  cases position with
  | nil => simp [Settled, declare]
  | cons layer outer => simp [Settled, declare]

theorem Settled.after {position : Position} (h : position.Settled) (s : Stmt) :
    (position.after s).Settled := by
  unfold Position.after
  split
  · exact settled_declare _ _
  · exact h

/-- Statements stand in the same scopes from the first to the last. -/
theorem exists_endOf_cons (body : List Stmt) (layer : Layer) (outer : Position) :
    ∃ layer', endOf (layer :: outer) body = layer' :: outer := by
  induction body generalizing layer with
  | nil => exact ⟨layer, rfl⟩
  | cons statement rest ih =>
    unfold endOf at ih ⊢
    rw [List.foldl_cons]
    unfold after
    split
    · exact ih _
    · exact ih _

theorem after_eq_self {s : Stmt} (h : s.declared? = none) (position : Position) :
    position.after s = position := by
  simp [after, h]

/-- What a name denotes at a position by the rule of lexical scoping: how many scopes out, and
the how-manieth name of that scope. -/
def lookup? (name : String) : Position → Option Binding
  | [] => none
  | layer :: outer =>
    match layer.begun.findIdx? (· == name) with
    | some slot => some ⟨0, slot⟩
    | none => (lookup? name outer).map fun b => { b with depth := b.depth + 1 }

theorem lookup?_cons_of_not_mem {name : String} {layer : Layer} (missing : name ∉ layer.begun)
    (outer : Position) :
    lookup? name (layer :: outer) =
      (lookup? name outer).map fun b => { b with depth := b.depth + 1 } := by
  have hnone : layer.begun.findIdx? (· == name) = none := by
    rw [List.findIdx?_eq_none_iff]
    intro other hother
    have hne : other ≠ name := fun heq => missing (heq ▸ hother)
    simpa using hne
  rw [lookup?, hnone]

/-- A name is bound in the innermost scope that has begun to declare it. -/
theorem lookup?_eq_some {name : String} {position : Position} {b : Binding}
    (h : position.lookup? name = some b) :
    (∃ layer, position[b.depth]? = some layer ∧ layer.begun[b.slot]? = some name) ∧
      ∀ k < b.depth, ∀ layer, position[k]? = some layer → name ∉ layer.begun := by
  induction position generalizing b with
  | nil => simp [lookup?] at h
  | cons layer outer ih =>
    unfold lookup? at h
    cases hslot : layer.begun.findIdx? (· == name) with
    | some slot =>
      simp only [hslot, Option.some.injEq] at h
      subst h
      obtain ⟨hlt, hname, -⟩ := List.findIdx?_eq_some_iff_getElem.mp hslot
      refine ⟨⟨layer, rfl, ?_⟩, fun k hk => absurd hk (Nat.not_lt_zero k)⟩
      rw [List.getElem?_eq_getElem hlt]
      simpa using hname
    | none =>
      simp only [hslot, Option.map_eq_some_iff] at h
      obtain ⟨b', hb', rfl⟩ := h
      obtain ⟨found, nearest⟩ := ih hb'
      refine ⟨found, ?_⟩
      intro k hk l hl
      cases k with
      | zero =>
        simp only [List.getElem?_cons_zero, Option.some.injEq] at hl
        subst hl
        intro hmem
        simpa using List.findIdx?_eq_none_iff.mp hslot name hmem
      | succ k => exact nearest k (Nat.lt_of_succ_lt_succ hk) l hl

/-- A name without a binding is declared in no scope around. -/
theorem lookup?_eq_none {name : String} {position : Position} (h : position.lookup? name = none) :
    ∀ layer ∈ position, name ∉ layer.begun := by
  induction position with
  | nil => simp
  | cons layer outer ih =>
    unfold lookup? at h
    cases hslot : layer.begun.findIdx? (· == name) with
    | some slot => simp [hslot] at h
    | none =>
      simp only [hslot, Option.map_eq_none_iff] at h
      intro l hl
      rcases List.mem_cons.mp hl with rfl | hl
      · intro hmem
        simpa using List.findIdx?_eq_none_iff.mp hslot name hmem
      · exact ih h l hl

/-! ## Formed positions -/

/-- The scopes that a program can be in. Those of blocks and functions have names that a program
may declare, and have begun to declare the first ones of them. Those around methods come as the
text has them: `super`, if at all, just outside `this`. -/
inductive Formed : Position → Prop
  | outside : Formed []
  | scope {layer : Layer} {outer : Position} (ordinary : layer.region ≠ .receiver)
      (names : ∀ name ∈ layer.begun, name ≠ thisName ∧ name ≠ superName)
      (first : layer.begun <+: layer.region.names) (formed : Formed outer) :
      Formed (layer :: outer)
  | receiver {outer : Position} (formed : Formed outer) : Formed (outer.enter .receiver [thisName])
  | derived {outer : Position} (formed : Formed outer) :
      Formed ((outer.enter .superclass [superName]).enter .receiver [thisName])

/-- A scope in which something is declared is a block or a function. -/
theorem Formed.of_room {layer : Layer} {outer : Position} (h : Formed (layer :: outer))
    {name : String} (room : layer.declared ++ [name] <+: layer.region.names) :
    layer.region ≠ .receiver ∧ (∀ n ∈ layer.begun, n ≠ thisName ∧ n ≠ superName) ∧
      Formed outer := by
  have hlength := room.length_le
  cases h with
  | scope ordinary names first formed => exact ⟨ordinary, names, formed⟩
  | receiver formed => simp [Region.names] at hlength
  | derived formed => simp [Region.names] at hlength

theorem Formed.within {p : Position} (h : p.Formed) {name : Name} (plain : name.Plain)
    (room : ∀ layer ∈ p.head?, layer.declared ++ [name.text] <+: layer.region.names) :
    (p.within name.text).Formed := by
  cases p with
  | nil => exact h
  | cons layer outer =>
    obtain ⟨ordinary, names, formed⟩ := h.of_room (room layer rfl)
    refine .scope ordinary ?_ (room layer rfl) formed
    intro n hn
    rcases List.mem_append.mp hn with hn | hn
    · exact names n (List.mem_append_left _ hn)
    · simp only [Option.toList_some, List.mem_singleton] at hn
      subst hn
      exact plain.explicit

theorem Formed.declare {p : Position} (h : p.Formed) {name : Name} (plain : name.Plain)
    (room : ∀ layer ∈ p.head?, layer.declared ++ [name.text] <+: layer.region.names) :
    (p.declare name.text).Formed := by
  cases p with
  | nil => exact h
  | cons layer outer =>
    obtain ⟨ordinary, names, formed⟩ := h.of_room (room layer rfl)
    refine .scope ordinary ?_ (by simpa [Layer.begun] using room layer rfl) formed
    intro n hn
    simp only [Layer.begun, Option.toList_none, List.append_nil, List.mem_append,
      List.mem_singleton] at hn
    rcases hn with hn | rfl
    · exact names n (List.mem_append_left _ hn)
    · exact plain.explicit

theorem Formed.enter_block {p : Position} (h : p.Formed) (body : List Stmt) :
    (p.enter (.block body) []).Formed :=
  .scope (by simp) (by simp [Layer.begun]) (by simp [Layer.begun]) h

theorem Formed.enter_function {p : Position} (h : p.Formed) {f : Function} (formed : f.Formed) :
    (p.enter (.function f) (f.params.map Name.text)).Formed := by
  refine .scope (by simp) ?_ (by simp [Layer.begun, Region.names]) h
  intro n hn
  simp only [Layer.begun, Option.toList_none, List.append_nil, List.mem_map] at hn
  obtain ⟨param, hparam, rfl⟩ := hn
  exact (formed.params param hparam).explicit

theorem Formed.methods {p : Position} (h : p.Formed) {name : Name} (plain : name.Plain)
    (room : ∀ layer ∈ p.head?, layer.declared ++ [name.text] <+: layer.region.names)
    (derived : Bool) : (p.methods name derived).Formed := by
  have hdeclared := h.declare plain room
  unfold Position.methods
  cases derived with
  | false => exact .receiver hdeclared
  | true => exact .derived hdeclared

/-- The names that a scope has begun to declare are the first ones of it. -/
theorem Formed.begun {p : Position} (h : p.Formed) :
    ∀ layer ∈ p, layer.begun <+: layer.region.names := by
  induction h with
  | outside => simp
  | scope _ _ first _ ih =>
    rintro layer (_ | ⟨_, hlayer⟩)
    · exact first
    · exact ih layer hlayer
  | receiver _ ih =>
    rintro layer (_ | ⟨_, hlayer⟩)
    · exact List.prefix_rfl
    · exact ih layer hlayer
  | derived _ ih =>
    rintro layer (_ | ⟨_, _ | ⟨_, hlayer⟩⟩)
    · exact List.prefix_rfl
    · exact List.prefix_rfl
    · exact ih layer hlayer

/-- What `super` denotes lies just outside what `this` denotes. -/
theorem Formed.lookup_super {p : Position} (h : p.Formed) {b : Binding}
    (hb : p.lookup? superName = some b) :
    ∃ depth, b = ⟨depth + 1, 0⟩ ∧
      (∃ layer, p[depth]? = some layer ∧ layer.region = .receiver ∧ layer.declared = [thisName]) ∧
      ∃ layer, p[depth + 1]? = some layer ∧ layer.region = .superclass ∧
        layer.declared = [superName] := by
  induction h generalizing b with
  | outside => simp [lookup?] at hb
  | @scope layer outer ordinary names _ formed ih =>
    have hmissing : superName ∉ layer.begun := fun hmem => (names superName hmem).2 rfl
    rw [lookup?_cons_of_not_mem hmissing, Option.map_eq_some_iff] at hb
    obtain ⟨b', hb', rfl⟩ := hb
    obtain ⟨depth, rfl, hreceiver, hsuperclass⟩ := ih hb'
    exact ⟨depth + 1, rfl, hreceiver, hsuperclass⟩
  | @receiver outer formed ih =>
    have hmissing : superName ∉ Layer.begun ⟨.receiver, [thisName], none⟩ := by decide
    rw [enter, lookup?_cons_of_not_mem hmissing, Option.map_eq_some_iff] at hb
    obtain ⟨b', hb', rfl⟩ := hb
    obtain ⟨depth, rfl, hreceiver, hsuperclass⟩ := ih hb'
    exact ⟨depth + 1, rfl, hreceiver, hsuperclass⟩
  | @derived outer formed ih =>
    have hfound : lookup? superName ((outer.enter .superclass [superName]).enter .receiver
        [thisName]) = some ⟨1, 0⟩ := by
      unfold enter lookup? lookup?
      rfl
    rw [hfound, Option.some.injEq] at hb
    exact ⟨0, hb.symm, ⟨_, rfl, rfl, rfl⟩, ⟨_, rfl, rfl, rfl⟩⟩

end Position

end LoxLang
