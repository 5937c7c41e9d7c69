import LoxLang.Proofs.Grammar.Clauses
import LoxLang.Proofs.Machine.Frames
import LoxLang.Proofs.Scoping.Knowledge
import LoxLang.Proofs.Scoping.Lexical
import LoxLang.Proofs.Scoping.Weakening
import LoxLang.Proofs.Scoping.Widening

/-!
# The scopes of a `for` loop

The first clause of a `for` loop has a scope of its own, which is around its condition, its increment
and its body (`ForLoop.scope`). The statement that the loop is read as has one more scope in each
round if there is an increment. Nothing is declared in it, and all that is found from within a
round lies in the scopes of the round or one scope further out than it would without
(`Formed.resolved`), so that both ways lead to the same frame (`Frames.outward?_past`).
-/

namespace LoxLang

namespace ForLoop

/-! ## Scopes -/

/-- The scopes around the first clause. -/
def entry (f : ForLoop) (p : Position) : Position :=
  match f.initial with
  | none => p
  | some s => p.enter (.block [s, .whileDo f.test f.round]) []

/-- The scopes around the condition, the increment and the body. -/
def scope (f : ForLoop) (p : Position) : Position :=
  match f.initial with
  | none => p
  | some s => (f.entry p).after s

/-- The scopes around the body and the increment in the statement of a round. -/
def roundScope (f : ForLoop) (p : Position) : Position :=
  match f.increment with
  | none => p
  | some e => p.enter (.block [f.body, .expression e]) []

/-- A binding from within a number of scopes of a round, with the scope of the round around them. -/
def through (f : ForLoop) (scopes : Nat) (b : Binding) : Binding :=
  if f.increment.isSome then b.past scopes else b

/-- The sites of the body and of the increment, without a scope of the round. -/
def inner (f : ForLoop) (p : Position) : List Site :=
  f.body.sites p ++ f.increment.toList.flatMap (·.sites p)

/-- In a table, the parts of a loop that stands at a position have the bindings that the scopes of
the loop say. -/
structure Resolved (f : ForLoop) (table : Bindings) (p : Position) : Prop where
  initial : ∀ s ∈ f.initial, ∀ x ∈ s.sites (f.entry p), ∀ ref,
    x.moment.reference? = some ref → table[ref.id]? = x.position.lookup? ref.name.text
  condition : ∀ e ∈ f.condition, ∀ x ∈ e.sites (f.scope p), ∀ ref,
    x.moment.reference? = some ref → table[ref.id]? = x.position.lookup? ref.name.text
  inner : ∀ x ∈ f.inner (f.scope p), ∀ ref, x.moment.reference? = some ref →
    table[ref.id]? = (x.position.lookup? ref.name.text).map
      (f.through (x.position.length - (f.scope p).length))

/-! ## Sites of the parts -/

variable {f : ForLoop} {p : Position}

theorem sites_initial {s : Stmt} (h : f.initial = some s) :
    s.sites (f.entry p) ⊆ f.tree.sites p := by
  intro x hx
  unfold tree Grammar.forLoop
  unfold entry at hx
  rw [h] at hx ⊢
  exact List.mem_cons_of_mem _ (List.mem_append_left _ hx)

theorem sites_loop : (Stmt.whileDo f.test f.round).sites (f.scope p) ⊆ f.tree.sites p := by
  intro x hx
  unfold tree Grammar.forLoop
  unfold scope entry at hx
  cases h : f.initial with
  | none =>
    rw [h] at hx
    exact hx
  | some s =>
    rw [h] at hx
    exact List.mem_cons_of_mem _ (List.mem_append_right _ (List.mem_append_left _ hx))

theorem sites_condition {e : Expr} (h : f.condition = some e) :
    e.sites (f.scope p) ⊆ f.tree.sites p := by
  intro x hx
  refine sites_loop (List.mem_cons_of_mem _ (List.mem_append_left _ ?_))
  unfold test
  rw [h]
  exact hx

/-- The body and the increment in the statement of a round. -/
theorem sites_round (formed : f.Formed) : f.inner (f.roundScope p) ⊆ f.round.sites p := by
  intro x hx
  unfold inner roundScope at hx
  unfold round Grammar.loopRound
  cases h : f.increment with
  | none =>
    rw [h] at hx
    rcases List.mem_append.mp hx with hx | hx
    · exact hx
    · cases hx
  | some e =>
    rw [h] at hx
    -- The body declares nothing, so that the increment stands in the same scopes.
    have hafter := Position.after_eq_self formed.quiet (p.enter (.block [f.body, .expression e]) [])
    refine List.mem_cons_of_mem _ ?_
    rcases List.mem_append.mp hx with hx | hx
    · exact List.mem_append_left _ hx
    · refine List.mem_append_right _ ?_
      rw [hafter]
      simp only [Option.toList_some, List.flatMap_cons, List.flatMap_nil, List.append_nil] at hx
      exact List.mem_append_left _ (List.mem_cons_of_mem _ hx)

/-- Body and increment look alike from within, whatever is around the loop. -/
theorem inner_eq (formed : f.Formed) (p : Position) :
    f.inner p = (f.inner []).map (·.around p) := by
  unfold inner
  have hbody := f.body.sites_append [] p fun _ => ⟨formed.body, formed.quiet⟩
  rw [List.nil_append] at hbody
  rw [List.map_append, hbody]
  cases f.increment with
  | none => rfl
  | some e =>
    have hincrement := e.sites_append [] p
    rw [List.nil_append] at hincrement
    simp only [Option.toList_some, List.flatMap_cons, List.flatMap_nil, List.append_nil,
      hincrement]

/-- The scope of a round is passed by what is found beyond it. -/
theorem lookup?_roundScope (name : String) (within : Position) :
    (within ++ f.roundScope p).lookup? name =
      ((within ++ p).lookup? name).map (f.through within.length) := by
  unfold roundScope through
  cases f.increment with
  | none => exact Option.map_id'.symm
  | some e => exact Position.lookup?_insert name within p rfl

end ForLoop

/-! ## The table of a program -/

/-- The parts of a loop in a program without misuses have the bindings that its scopes say. -/
theorem ForLoop.Formed.resolved {f : ForLoop} (formed : f.Formed) {p : Position}
    {program : List Stmt} {table : Bindings} (formedBody : FormedBody program)
    (nodup : (idsOf (occurrencesInBody program)).Nodup)
    (accepted : Scoping.resolve program = .ok table)
    (site : ⟨p, .executing f.tree⟩ ∈ sitesInBody [] program) : f.Resolved table p := by
  obtain ⟨-, lexical⟩ := Scoping.bindings_of_resolve formedBody nodup accepted
  have htree := closed_sitesInBody program [] p f.tree site
  refine ⟨fun s hs x hx => ?_, fun e he x hx => ?_, fun x hx ref href => ?_⟩
  · exact lexical x (htree (ForLoop.sites_initial hs hx))
  · exact lexical x (htree (ForLoop.sites_condition he hx))
  · rw [ForLoop.inner_eq formed] at hx
    obtain ⟨y, hy, rfl⟩ := List.mem_map.mp hx
    -- The same moment is one of the program, with the scope of the round around it.
    have hround : y.around (f.roundScope (f.scope p)) ∈ sitesInBody [] program := by
      refine htree (ForLoop.sites_loop ?_)
      refine List.mem_cons_of_mem _ (List.mem_append_right _ (ForLoop.sites_round formed ?_))
      rw [ForLoop.inner_eq formed]
      exact List.mem_map_of_mem hy
    have hlength : (y.around (f.scope p)).position.length - (f.scope p).length =
        y.position.length := by
      show (y.position ++ f.scope p).length - (f.scope p).length = y.position.length
      rw [List.length_append]
      omega
    rw [lexical _ hround ref href, hlength]
    exact ForLoop.lookup?_roundScope ref.name.text y.position

/-- The variable that the first clause declares is found from wherever in a round it is not hidden:
in slot 0 of the scope of the loop. -/
theorem ForLoop.Resolved.loop_variable {f : ForLoop} {p : Position} {table : Bindings}
    (resolved : f.Resolved table p) {name : Name} {value : Option Expr}
    (declares : f.initial = some (.varDecl name value)) (within : Position) {moment : Moment}
    (hx : ⟨within ++ f.scope p, moment⟩ ∈ f.inner (f.scope p))
    {ref : Reference} (href : moment.reference? = some ref) (same : ref.name.text = name.text)
    (visible : ∀ layer ∈ within, name.text ∉ layer.begun) :
    table[ref.id]? = some (f.through within.length ⟨within.length, 0⟩) := by
  have hscope : ∃ region, f.scope p = ⟨region, [name.text], none⟩ :: p := by
    unfold scope entry
    rw [declares]
    exact ⟨_, rfl⟩
  obtain ⟨region, hscope⟩ := hscope
  have hlocal : Position.lookup? name.text within = none :=
    Position.lookup?_eq_none_iff.mpr visible
  have hfound : Position.lookup? name.text (f.scope p) = some ⟨0, 0⟩ := by
    rw [hscope]
    simp [Position.lookup?, Layer.begun]
  -- Between the occurrence and the scope of the loop there are just the layers within.
  have hlength : (within ++ f.scope p).length - (f.scope p).length = within.length := by
    rw [List.length_append]
    omega
  have hlookup : Position.lookup? name.text (within ++ f.scope p) = some ⟨within.length, 0⟩ := by
    rw [Position.lookup?_append, hlocal, hfound]
    simp
  have htable := resolved.inner _ hx ref href
  rw [same, hlookup, hlength] at htable
  exact htable

/-! ## What is found in a loop -/

namespace Scoping

/-- Resolve a clause that may be left out. -/
def resolveClause (context : Context) : Option Expr → Analysis → Analysis
  | none, a => a
  | some e, a => resolveExpr context e a

/-- The same has been found, but for bindings. -/
structure SameFindings (a a' : Analysis) : Prop where
  scopes : a'.scopes = a.scopes
  globalTraits : a'.globalTraits = a.globalTraits
  problems : a'.problems = a.problems

theorem SameFindings.leave {a a' : Analysis} (h : SameFindings a a') :
    SameFindings a.leave a'.leave := by
  unfold Analysis.leave
  rw [h.scopes]
  split
  · exact h
  · exact ⟨rfl, h.globalTraits, by rw [h.problems]⟩

/-- Nothing is found in the empty scope itself. -/
theorem Widened.leave_empty {a a' : Analysis} (h : Widened 0 a a') : SameFindings a a'.leave := by
  obtain ⟨scopes, traits, problems⟩ := h
  unfold Analysis.leave
  generalize hs : a.scopes = s, hs' : a'.scopes = s' at scopes
  cases scopes with
  | here settled => exact ⟨hs.symm, traits, by simp [problems, Scope.neverRead, Scope.empty]⟩

theorem Widened.idle {a a' : Analysis} (h : Widened 0 a a') : Idle a.scopes := by
  obtain ⟨scopes, -, -⟩ := h
  generalize a.scopes = s, a'.scopes = s' at scopes
  cases scopes with
  | here settled => exact settled

theorem Idle.widened_enter {a : Analysis} (settled : Idle a.scopes) : Widened 0 a a.enter :=
  ⟨.here settled, rfl, rfl⟩

/-- An expression leaves no variable undefined. -/
theorem Idle.resolveExpr {a : Analysis} (settled : Idle a.scopes) (context : Context) (e : Expr) :
    Idle (Scoping.resolveExpr context e a).scopes :=
  (widened_resolveExpr e context 0 a a.enter settled.widened_enter).idle

/-- The only variable of a scope is defined. -/
theorem idle_define {a : Analysis} {name : Name} {outer : List (List String)}
    (names : a.names = [name.text] :: outer) : Idle (a.define name).scopes := by
  unfold Analysis.define Analysis.changeInnermost
  cases hscopes : a.scopes with
  | nil =>
    rw [hscopes]
    intro scope hscope
    cases hscope
  | cons scope rest =>
    intro _ hmem v hv
    cases hmem
    obtain ⟨u, hu, rfl⟩ := List.mem_map.mp hv
    have hnames : scope.names = [name.text] := by
      unfold Analysis.names at names
      rw [hscopes] at names
      exact (List.cons.inj names).1
    have hname : u.name.text = name.text := by
      have hmem : u.name.text ∈ scope.names := List.mem_map_of_mem hu
      rw [hnames] at hmem
      exact List.mem_singleton.mp hmem
    rw [if_pos hname]
    cases u.progress <;> simp [Progress.define]

end Scoping

namespace ForLoop

open Scoping

variable {f : ForLoop}

/-- What resolution does with the condition, the body and the increment by themselves. -/
def resolveRounds (f : ForLoop) (context : Context) (a : Analysis) : Analysis :=
  resolveClause context f.increment
    (resolveStmt context f.body (resolveClause context f.condition a))

/-- What resolution does with the parts of a loop by themselves, the first clause having a scope of
its own. -/
def resolve (f : ForLoop) (context : Context) (a : Analysis) : Analysis :=
  match f.initial with
  | none => f.resolveRounds context a
  | some s => (f.resolveRounds context (resolveStmt context s a.enter)).leave

theorem sameFindings_rounds (formed : f.Formed) (context : Context) {a : Analysis}
    (settled : Idle a.scopes) :
    SameFindings (f.resolveRounds context a)
      (resolveStmt context (.whileDo f.test f.round) a) := by
  have htest : resolveExpr context f.test a = resolveClause context f.condition a := by
    unfold test
    cases f.condition <;> rfl
  have hcondition : Idle (resolveExpr context f.test a).scopes := settled.resolveExpr context f.test
  show SameFindings _ (resolveStmt context f.round (resolveExpr context f.test a))
  unfold resolveRounds round Grammar.loopRound
  rw [← htest]
  cases f.increment with
  | none => exact ⟨rfl, rfl, rfl⟩
  | some e =>
    -- The scope of the round stays empty: neither the body nor the increment declares anything
    -- there.
    have hbody := widened_resolveStmt f.body context 0 _ _ (fun _ => ⟨formed.body, formed.quiet⟩)
      hcondition.widened_enter
    exact (widened_resolveExpr e context 0 _ _ hbody).leave_empty

/-- Behind the first clause its variable is defined. -/
theorem Formed.idle_initial (formed : f.Formed) {s : Stmt} (h : f.initial = some s)
    (context : Context) (a : Analysis) : Idle (resolveStmt context s a.enter).scopes := by
  have hempty : Idle a.enter.scopes := by
    intro scope hscope v hv
    cases hscope
    cases hv
  rcases formed.initial s h with ⟨name, value, rfl⟩ | ⟨e, rfl⟩
  · have hdeclared : (a.enter.declare name).names = [name.text] :: a.names := rfl
    cases value with
    | none => exact idle_define hdeclared
    | some e =>
      -- Whatever the initializer does, it leaves the names of the scope, and there is but one.
      have hnames := (undisturbed_resolveExpr e context (a.enter.declare name)).names
      exact idle_define (hnames.trans hdeclared)
  · exact hempty.resolveExpr context e

/-- Resolution finds the same in the statement that a loop is read as. -/
theorem sameFindings_tree (formed : f.Formed) (context : Context) {a : Analysis}
    (settled : Idle a.scopes) :
    SameFindings (f.resolve context a) (resolveStmt context f.tree a) := by
  unfold resolve tree Grammar.forLoop
  cases h : f.initial with
  | none => exact sameFindings_rounds formed context settled
  | some s => exact (sameFindings_rounds formed context (formed.idle_initial h context a)).leave

end ForLoop

/-! ## The frames of the scopes -/

namespace Frames

variable {fs : Frames} {frame round scope : FrameId} {n : Nat}

theorem outward?_add (h : fs.outward? frame n = some round) (steps : Nat) :
    fs.outward? frame (n + steps) = fs.outward? round steps := by
  rw [outward?_add_eq_bind, h]
  rfl

/-- What a binding leads to with a frame between is what it leads to without it. -/
theorem outward?_past (hround : fs.outward? frame n = some round)
    (houter : fs.outer? round = some scope) (b : Binding) :
    fs.outward? frame (b.past n).depth =
      if b.depth < n then fs.outward? frame b.depth else fs.outward? scope (b.depth - n) := by
  unfold Binding.past
  by_cases hlt : b.depth < n
  · rw [if_pos hlt, if_pos hlt]
  · rw [if_neg hlt, if_neg hlt]
    show fs.outward? frame (b.depth + 1) = _
    have hdepth : b.depth + 1 = n + (b.depth - n + 1) := by omega
    rw [hdepth, outward?_add hround]
    simp only [outward?, houter]

end Frames

end LoxLang
