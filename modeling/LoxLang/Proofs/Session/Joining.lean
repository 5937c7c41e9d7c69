import LoxLang.Proofs.Evaluation.Recoding
import LoxLang.Proofs.Grammar.Formation
import LoxLang.Proofs.Grammar.Joining
import LoxLang.Proofs.Lexical.Words
import LoxLang.Proofs.Scoping.Joining
import LoxLang.Proofs.Session.Gating

/-!
# One source instead of two

Two sources that a session runs one after the other do the same as one source made of the two, each
on lines of its own (`session_concatenates`). The one source can be refused only where a trait of
the first and one of the second declare a method twice; and of its lines those of the second source
are further down, which shows only in the line of a failure.
-/

namespace LoxLang

/-! ## Accepted sources -/

/-- A source without static errors: its tree, up to which reference the tree goes, and the bindings
of the tree. -/
structure Admitted (source : List UInt8) (nextId : RefId) (tree : List Stmt) (next : RefId)
    (table : Bindings) : Prop where
  faults : faultsOf source = []
  read : readProgram (tokensOf source) nextId = ⟨.ok tree, next⟩
  resolved : Scoping.resolve tree = .ok table

section

variable {source : List UInt8} {nextId next : RefId} {tree : List Stmt} {table : Bindings}

theorem lexicalDiagnostics_eq_nil :
    Session.lexicalDiagnostics source = [] ↔ faultsOf source = [] :=
  List.map_eq_nil_iff

theorem exists_admitted (h : (Job.program source).errors nextId = []) :
    ∃ tree next table, Admitted source nextId tree next table := by
  obtain ⟨tree, table, hfaults, hread, hresolved⟩ :=
    Session.exists_of_staticErrors (Grammar.read_ne_nil Grammar.program _ nextId) h
  refine ⟨tree, (readProgram (tokensOf source) nextId).nextId, table,
    lexicalDiagnostics_eq_nil.mp hfaults, ?_, hresolved⟩
  rw [← hread]
  rfl

theorem Admitted.good (h : Admitted source nextId tree next table) :
    Grammar.GoodBody False nextId next tree := by
  have hgood := (readProgram_good (plainToken_tokensOf source) nextId).2 tree
    (congrArg Reading.result h.read)
  rwa [h.read] at hgood

theorem Admitted.below (h : Admitted source nextId tree next table) : table.Below next := by
  intro id hid
  obtain ⟨formed, spans⟩ := h.good
  refine (Scoping.bindings_of_resolve formed.1 spans.nodup h.resolved).1 id fun hmem => ?_
  exact Nat.not_lt.mpr hid (spans.inside id hmem).2

/-- An accepted source is run. -/
theorem Admitted.ran {s : Session} (h : Admitted source s.nextId tree next table) (budget : Nat) :
    Ran (interpret budget tree) (s.machine.binding table) id (s.run budget source) ∧
      (s.run budget source).session.nextId = next := by
  have hrun : s.run budget source = Session.perform _ table (interpret budget tree) :=
    Session.proceed_eq_perform _ (interpret budget) (lexicalDiagnostics_eq_nil.mpr h.faults)
      (congrArg Reading.result h.read) h.resolved
  rw [hrun]
  unfold Ran Session.perform Machine.binding
  dsimp only
  cases interpret budget tree { s.machine with bindings := s.machine.bindings.merge table } <;>
    exact ⟨⟨rfl, rfl⟩, congrArg Reading.nextId h.read⟩

end

/-! ## Runs with more bindings -/

/-- A machine in whose code a relabelling changes nothing. -/
def Machine.Keeps (ρ : Relabelling) (m : Machine) : Prop :=
  m.recode ρ.plain m.bindings = m

section

variable {ρ : Relabelling} {m m' : Machine} {tree : List Stmt} {budget : Nat}

theorem Machine.keeps_start (ρ : Relabelling) (host : Host) (sink : Sink) :
    (Machine.start host sink).Keeps ρ := by
  have hglobals : Machine.initialGlobals.map (Value.recode ρ.plain) = Machine.initialGlobals := rfl
  simp [Keeps, start, Machine.recode, hglobals, Frames.recode, Frames.empty, Arrays.recode]

theorem Machine.Keeps.binding (h : m.Keeps ρ) (table : Bindings) :
    ({ m with bindings := table } : Machine).Keeps ρ := by
  have hsame := congrArg (fun kept : Machine => ({ kept with bindings := table } : Machine)) h
  exact hsame

theorem Machine.Keeps.recode (h : m.Keeps ρ) (table : Bindings) :
    m.recode ρ.plain table = { m with bindings := table } :=
  h.binding table

/-- A program in which a relabelling changes nothing leaves such a machine. -/
theorem keeps_interpret (h : m.Keeps ρ) (binds : ρ.Binds m.bindings m.bindings)
    (same : relabelBody ρ tree = tree) (run : interpret budget tree m = .ok () m') :
    m'.Keeps ρ ∧ m'.bindings = m.bindings := by
  obtain ⟨hbindings, hrun⟩ := (relabels_interpret binds budget tree m rfl).of_ok run
  have hkept : m.recode ρ.plain m.bindings = m := h
  rw [same, hkept, run] at hrun
  injection hrun with _ hmachine
  exact ⟨(congrArg (m'.recode ρ.plain) hbindings).trans hmachine.symm, hbindings⟩

/-- With more bindings, but none for what occurs in it, such a program does the same. -/
theorem interpret_rebound (h : m.Keeps ρ) (binds : ρ.Binds m.bindings m.bindings)
    {table : Bindings} (more : ρ.Binds m.bindings table) (same : relabelBody ρ tree = tree)
    (run : interpret budget tree m = .ok () m') :
    interpret budget tree { m with bindings := table } = .ok () { m' with bindings := table } := by
  obtain ⟨-, hrun⟩ := (relabels_interpret more budget tree m rfl).of_ok run
  rwa [same, h.recode, (keeps_interpret h binds same run).1.recode] at hrun

theorem interpret_append (budget : Nat) (tree tree' : List Stmt) :
    interpret budget (tree ++ tree') = interpret budget tree >>= fun _ => interpret budget tree' := by
  induction tree with
  | nil => rfl
  | cons statement rest ih =>
    simp only [List.cons_append, interpret, ih, bind_assoc]

end

/-! ## Two sources and the one made of them -/

/-- The labels that the second of two sources has on its own, of those that it has behind a first
one of as many lines. Those of the first one are as they were. -/
def Relabelling.apart (lines : Nat) : Relabelling :=
  ⟨fun line => if line ≤ lines then line else line - lines, fun id => id⟩

/-- The labels of a second source behind a first one of as many lines and references. -/
def Relabelling.behind (lines : Nat) (references : RefId) : Relabelling :=
  ⟨(· + lines), (· + references)⟩

theorem Relabelling.apart_behind {lines line : Nat} (h : 1 ≤ line) :
    (Relabelling.apart lines).line (line + lines) = line := by
  unfold Relabelling.apart
  dsimp only
  rw [if_neg (by omega), Nat.add_sub_cancel]

theorem Relabelling.apart_self {lines line : Nat} (h : line ≤ lines) :
    (Relabelling.apart lines).line line = line :=
  if_pos h

/-- A problem on another line, if it is one of a run. -/
def Diagnostic.relabel (ρ : Relabelling) : Diagnostic → Diagnostic
  | .stopped stop => .stopped (stop.relabel ρ)
  | diagnostic => diagnostic

/-- A source with as many empty lines in front of it. -/
def movedDown (lines : Nat) (source : List UInt8) : List UInt8 :=
  List.replicate lines (byte '\n') ++ source

section

variable {first second : List UInt8} {tree tree' : List Stmt} {next next' : RefId}
  {table table' : Bindings}

theorem Admitted.read_behind (h : Admitted second 0 tree' next' table') {tokens : List Token}
    (lines : Nat) (references : RefId) (htokens : beforeEnd tokens =
      (beforeEnd (tokensOf second)).map (Token.relabel (.behind lines references))) :
    readProgram tokens references =
      ⟨.ok (relabelBody (.behind lines references) tree'), next' + references⟩ := by
  have hread := readProgram_relabel h.read references (fun _ _ => rfl) htokens
  rwa [Nat.zero_add] at hread

/-- A source that is accepted is accepted on other lines and with later references. -/
theorem Admitted.moved (h : Admitted second 0 tree' next' table') (lines : Nat) (shift : RefId) :
    ∃ added, Admitted (movedDown lines second) shift (relabelBody (.behind lines shift) tree')
        (next' + shift) added ∧
      (∀ id < shift, added[id]? = none) ∧ ∀ id, added[id + shift]? = table'[id]? := by
  obtain ⟨hfaults, htokens⟩ := tokensOf_down lines second
  rw [h.faults] at hfaults
  obtain ⟨added, hadded, hbefore, hafter⟩ :=
    @Scoping.resolve_relabel _ _ (.behind lines shift) shift (fun _ => rfl) h.resolved
  exact ⟨added, ⟨hfaults, h.read_behind lines shift htokens, hadded⟩, hbefore, hafter⟩

/-- Each token of the second source has a line of that source. -/
theorem relabelBody_apart (h : Admitted second 0 tree' next' table') (lines : Nat)
    (references : RefId) :
    relabelBody (.apart lines) (relabelBody (.behind lines references) tree') =
      relabelBody (.behind 0 references) tree' := by
  let tokens := (tokensOf second).map (Token.relabel (.behind lines references))
  have hdown : beforeEnd tokens =
      (beforeEnd (tokensOf second)).map (Token.relabel (.behind lines references)) :=
    List.takeWhile_map
  have hback : beforeEnd (tokensOf second) =
      (beforeEnd tokens).map (Token.relabel (.apart lines)) := by
    rw [hdown, List.map_map]
    refine (List.map_id _).symm.trans (List.map_congr_left fun t ht => ?_)
    have hline := (line_of_mem_tokensOf t ((List.takeWhile_sublist _).subset ht)).1
    exact congrArg (Token.mk t.kind) (Relabelling.apart_behind hline).symm
  have hread := readProgram_relabel (h.read_behind lines references hdown) 0
    (fun _ _ => rfl) hback
  rw [Nat.add_zero, h.read_behind 0 references (List.map_id _).symm] at hread
  exact (Except.ok.inj (congrArg Reading.result hread)).symm

/-- Two accepted sources are scanned and read as one. -/
theorem Admitted.read_joined (h : Admitted first 0 tree next table)
    (h' : Admitted second 0 tree' next' table') :
    let both := first ++ byte '\n' :: second
    faultsOf both = [] ∧
      readProgram (tokensOf both) 0 =
        ⟨.ok (tree ++ relabelBody (.behind (1 + first.count (byte '\n')) next) tree'),
          next' + next⟩ := by
  intro both
  refine ⟨?_, readProgram_joined h.read h'.read (fun _ _ => rfl) (tokensOf_joined h.faults)⟩
  rw [faultsOf_joined h.faults, h'.faults]
  rfl

/-- Together they have the bindings that each has on its own, or they are refused for the
composition of traits. -/
theorem Admitted.resolve_joined (h : Admitted first 0 tree next table)
    (h' : Admitted second 0 tree' next' table') (lines : Nat) :
    match Scoping.resolve (tree ++ relabelBody (.behind lines next) tree') with
    | .ok joined =>
      (∀ id < next, joined[id]? = table[id]?) ∧ ∀ id, joined[id + next]? = table'[id]?
    | .error problems => ∀ p ∈ problems, p.cause.isConflict = true := by
  obtain ⟨formed, spans⟩ := h.good
  exact Scoping.resolve_joined formed.1 spans.nodup (fun _ => rfl) h.resolved h.below h'.resolved

/-- They can be refused together only for the composition of traits. -/
theorem Admitted.joined_errors (h : Admitted first 0 tree next table)
    (h' : Admitted second 0 tree' next' table') :
    ∀ d ∈ (Job.program (first ++ byte '\n' :: second)).errors 0,
      ∃ problem, d = .scoping problem ∧ problem.cause.isConflict = true := by
  obtain ⟨hfaults, hread⟩ := h.read_joined h'
  have hresolved := h.resolve_joined h' (1 + first.count (byte '\n'))
  rw [Job.errors, staticErrors_of_tree (congrArg Reading.result hread)
    (lexicalDiagnostics_eq_nil.mpr hfaults)]
  dsimp only [id]
  revert hresolved
  generalize Scoping.resolve (tree ++ relabelBody _ tree') = outcome
  cases outcome with
  | ok _ => simp
  | error problems =>
    intro hresolved d hd
    obtain ⟨problem, hproblem, rfl⟩ := List.mem_map.mp hd
    exact ⟨problem, rfl, hresolved problem hproblem⟩

/-- If they are not refused, they are run one after the other on the bindings of both. -/
theorem Admitted.joined (h : Admitted first 0 tree next table)
    (h' : Admitted second 0 tree' next' table')
    (accepted : (Job.program (first ++ byte '\n' :: second)).errors 0 = []) :
    ∃ joined, Admitted (first ++ byte '\n' :: second) 0
        (tree ++ relabelBody (.behind (1 + first.count (byte '\n')) next) tree') (next' + next)
        joined ∧
      (∀ id < next, joined[id]? = table[id]?) ∧ ∀ id, joined[id + next]? = table'[id]? := by
  obtain ⟨hfaults, hread⟩ := h.read_joined h'
  obtain ⟨body, high, joined, hjoined⟩ := exists_admitted accepted
  have hsame := hread.symm.trans hjoined.read
  simp only [Reading.mk.injEq, Except.ok.injEq] at hsame
  obtain ⟨rfl, rfl⟩ := hsame
  have hresolved := h.resolve_joined h' (1 + first.count (byte '\n'))
  rw [hjoined.resolved] at hresolved
  exact ⟨joined, hjoined, hresolved⟩

end

/-! ## Running two sources and the one made of them -/

section

variable {first second : List UInt8} {tree tree' : List Stmt} {next next' : RefId}
  {table table' : Bindings} {ρ : Relabelling}

theorem getElem?_merge_none (added : Bindings) (id : RefId) :
    (Bindings.none.merge added)[id]? = added[id]? := by
  rw [Bindings.getElem?_merge, Scoping.getElem?_none, Option.or_none]

/-- The references below a bound, and one above it for all others. -/
def Relabelling.cut (bound other : RefId) : Relabelling :=
  ⟨fun line => line, fun id => if id < bound then id else other⟩

theorem binds_cut {joined : Bindings} {other : RefId} (below : table.Below next)
    (before : ∀ id < next, joined[id]? = table[id]?) (free : joined[other]? = none) :
    (Relabelling.cut next other).Binds (Bindings.none.merge table)
      (Bindings.none.merge joined) := by
  intro id
  rw [getElem?_merge_none, getElem?_merge_none]
  by_cases hid : id < next
  · have hsame : (Relabelling.cut next other).id id = id := if_pos hid
    rw [hsame]
    exact before id hid
  · have hother : (Relabelling.cut next other).id id = other := if_neg hid
    rw [hother, free, below id (Nat.not_lt.mp hid)]

/-- The first source does the same if the references of the second one are bound already. -/
theorem Admitted.runs_first {joined : Bindings} {other : RefId} {budget : Nat} {m : Machine}
    (host : Host) (sink : Sink) (h : Admitted first 0 tree next table)
    (before : ∀ id < next, joined[id]? = table[id]?) (hother : next ≤ other)
    (free : joined[other]? = none)
    (run : interpret budget tree ((Machine.start host sink).binding table) = .ok () m) :
    interpret budget tree ((Machine.start host sink).binding joined) =
      .ok () { m with bindings := Bindings.none.merge joined } := by
  have hself : relabelBody (.cut next other) tree = tree :=
    relabelBody_eq_self h.read (fun _ hid => if_pos hid) fun _ _ => rfl
  exact interpret_rebound ((Machine.keeps_start _ host sink).binding _)
    (binds_cut h.below (fun _ _ => rfl) (h.below other hother)) (binds_cut h.below before free)
    hself run

/-- Together the bindings of both sources are those that a session has after the one and for the
other. -/
theorem binds_both {joined added : Bindings} (ids : ∀ id, ρ.id id = id) (below : table.Below next)
    (before : ∀ id < next, joined[id]? = table[id]?)
    (behind : ∀ id, joined[id + next]? = table'[id]?) (none_before : ∀ id < next, added[id]? = none)
    (added_behind : ∀ id, added[id + next]? = table'[id]?) :
    ρ.Binds (Bindings.none.merge joined) ((Bindings.none.merge table).merge added) := by
  intro id
  rw [ids, getElem?_merge_none, Bindings.getElem?_merge, getElem?_merge_none]
  by_cases hid : id < next
  · rw [none_before id hid, before id hid]
    rfl
  · obtain ⟨later, rfl⟩ : ∃ later, id = later + next :=
      ⟨id - next, (Nat.sub_add_cancel (Nat.not_lt.mp hid)).symm⟩
    rw [added_behind, behind, below _ (Nat.le_add_left next later), Option.or_none]

/-- A run that leaves a result has ended normally. -/
theorem ran_ok {β : Type} {run : Run Unit} {m : Machine} {f : Unit → β} {o : Outcome β}
    (h : Ran run m f o) {b : β} (hok : o.result = .ok b) : run m = .ok () o.session.machine := by
  unfold Ran at h
  split at h
  · next m' hrun => rw [hrun, h.2]
  · rw [h.1] at hok
    cases hok

/-- A program with other labels comes to the same but for these. -/
theorem ran_relabelled {old new : Bindings} {budget : Nat} {program : List Stmt} {m : Machine}
    {o o' : Outcome Unit} (binds : ρ.Binds old new) (hm : m.bindings = old)
    (h : Ran (interpret budget program) m id o)
    (h' : Ran (interpret budget (relabelBody ρ program)) (m.recode ρ.plain new) id o') :
    o.session.machine.sink = o'.session.machine.sink ∧
      o'.result = o.result.mapError (List.map (Diagnostic.relabel ρ)) := by
  have hsame := relabels_interpret binds budget program m hm
  unfold Ensures at hsame
  unfold Ran at h h'
  cases hend : interpret budget program m with
  | ok a m' =>
    rw [hend] at hsame h
    rw [hsame.2] at h'
    rw [h.1, h.2, h'.1, h'.2]
    exact ⟨rfl, rfl⟩
  | error stop m' =>
    rw [hend] at hsame h
    rw [hsame.2] at h'
    rw [h.1, h.2, h'.1, h'.2]
    exact ⟨rfl, rfl⟩

/-- The second source does on lines that `ρ` gives to it what it does behind the first one, if the
lines of the first one stay the same. -/
theorem Admitted.runs_apart {joined : Bindings} {lines lines' budget : Nat} {both : List UInt8}
    (host : Host) (sink : Sink) (h : Admitted first 0 tree next table)
    (h' : Admitted second 0 tree' next' table')
    (hjoined : Admitted both 0 (tree ++ relabelBody (.behind lines next) tree') (next' + next)
      joined)
    (before : ∀ id < next, joined[id]? = table[id]?)
    (behind : ∀ id, joined[id + next]? = table'[id]?)
    (succeeds : ((Session.start host sink).run budget first).result = .ok ())
    (ids : ∀ id, ρ.id id = id) (kept : ∀ t ∈ tokensOf first, ρ.line t.line = t.line)
    (changed : relabelBody ρ (relabelBody (.behind lines next) tree') =
      relabelBody (.behind lines' next) tree') :
    let apart := ((Session.start host sink).run budget first).session.run budget
      (movedDown lines' second)
    let together := (Session.start host sink).run budget both
    together.session.machine.sink = apart.session.machine.sink ∧
      apart.result = together.result.mapError (List.map (Diagnostic.relabel ρ)) := by
  intro apart together
  let started := (Machine.start host sink).binding table
  let m := ((Session.start host sink).run budget first).session.machine
  -- The first source leaves the same machine, whether the second one is bound already or not.
  obtain ⟨hran, hnext⟩ := @Admitted.ran _ _ _ _ (Session.start host sink) h budget
  have hrun : interpret budget tree started = .ok () m := ran_ok hran succeeds
  have hstarted : started.Keeps ρ := (Machine.keeps_start ρ host sink).binding _
  have hself : relabelBody ρ tree = tree := relabelBody_eq_self h.read (fun id _ => ids id) kept
  have hbinds : ρ.Binds started.bindings started.bindings := fun id => by rw [ids]
  obtain ⟨hkeeps, hbindings⟩ := keeps_interpret hstarted hbinds hself hrun
  have hfree : joined[next' + next]? = none :=
    (behind next').trans (h'.below next' (Nat.le_refl next'))
  have hfirst := h.runs_first host sink before (Nat.le_add_left next next') hfree hrun
  obtain ⟨hboth, -⟩ := @Admitted.ran _ _ _ _ (Session.start host sink) hjoined budget
  have htogether : Ran (interpret budget (relabelBody (.behind lines next) tree'))
      { m with bindings := Bindings.none.merge joined } id together := by
    have hsequence : interpret budget (tree ++ relabelBody (.behind lines next) tree')
        ((Session.start host sink).machine.binding joined) =
          interpret budget (relabelBody (.behind lines next) tree')
            { m with bindings := Bindings.none.merge joined } := by
      rw [interpret_append]
      simp only [bind, EStateM.bind]
      rw [show (Session.start host sink).machine = Machine.start host sink from rfl, hfirst]
    unfold Ran at hboth ⊢
    rwa [hsequence] at hboth
  -- The second source is run from there, with its references bound alike.
  obtain ⟨added, hadded, hbefore, hbehind⟩ := h'.moved lines' next
  have hmoved : Admitted (movedDown lines' second)
      ((Session.start host sink).run budget first).session.nextId
      (relabelBody (.behind lines' next) tree') (next' + next) added := by
    rw [hnext]
    exact hadded
  obtain ⟨hapart, -⟩ := hmoved.ran budget
  have hrecode : ({ m with bindings := Bindings.none.merge joined } : Machine).recode ρ.plain
      (m.bindings.merge added) = m.binding added := hkeeps.recode _
  rw [← changed, ← hrecode] at hapart
  refine ran_relabelled ?_ rfl htogether hapart
  rw [hbindings]
  exact binds_both ids h.below before behind hbefore hbehind

end

/-- The same labels change nothing in a result. -/
theorem mapError_relabel_id {α : Type} (result : Except (List Diagnostic) α) :
    result.mapError (List.map (Diagnostic.relabel ⟨fun line => line, fun id => id⟩)) = result := by
  have hid : Diagnostic.relabel ⟨fun line => line, fun id => id⟩ = id := by
    funext d
    cases d with
    | stopped stop => cases stop <;> rfl
    | _ => rfl
  cases result with
  | ok a => rfl
  | error diagnostics =>
    rw [hid]
    exact congrArg Except.error (List.map_id diagnostics)

/-- A session is the concatenation of its sources. Let a first source run to its end in a new
session, let a second one be accepted on its own, and make one source of both with a newline
between them. It can be refused only for the composition of traits. If it is accepted, it prints in
a new session what the second source prints behind the first one, and ends in the same way. A
failure at one of its first lines, which are those of the first source, is one at that line for the
two sources as well; a failure further down is one of the second source, as many lines further up.
So the one source ends exactly as the second one does with as many empty lines in front of it. -/
theorem session_concatenates (host : Host) (sink : Sink) (budget : Nat) (first second : List UInt8)
    (succeeds : ((Session.start host sink).run budget first).result = .ok ())
    (accepted : (Job.program second).errors 0 = []) :
    let both := first ++ byte '\n' :: second
    let lines := 1 + first.count (byte '\n')
    let behind := ((Session.start host sink).run budget first).session
    (∀ d ∈ (Job.program both).errors 0,
        ∃ problem, d = .scoping problem ∧ problem.cause.isConflict = true) ∧
      ((Job.program both).errors 0 = [] →
        let together := (Session.start host sink).run budget both
        let apart := behind.run budget second
        together.session.machine.sink = apart.session.machine.sink ∧
          apart.result = together.result.mapError (List.map (Diagnostic.relabel (.apart lines))) ∧
          together.result = (behind.run budget (movedDown lines second)).result) := by
  intro both lines behind
  have hclean : (Job.program first).errors 0 = [] := by
    rcases Session.take_gated budget (Session.start host sink) (.source first) with h | h
    · have hresult : ((Session.start host sink).run budget first).result.map _ = .error _ := h.2.1
      rw [succeeds] at hresult
      cases hresult
    · exact h.1
  obtain ⟨tree, next, table, hfirst⟩ := exists_admitted hclean
  obtain ⟨tree', next', table', hsecond⟩ := exists_admitted accepted
  refine ⟨hfirst.joined_errors hsecond, fun hboth => ?_⟩
  intro together apart
  obtain ⟨joined, hjoined, before, hbehind⟩ := hfirst.joined hsecond hboth
  have hmoved := (hsecond.moved lines next).choose_spec.1
  have hlines : ∀ t ∈ tokensOf first, (Relabelling.apart lines).line t.line = t.line :=
    fun t ht => Relabelling.apart_self (line_of_mem_tokensOf t ht).2
  obtain ⟨hsink, hresult⟩ := hfirst.runs_apart host sink hsecond hjoined before hbehind succeeds
    (fun _ => rfl) hlines (relabelBody_apart hsecond lines next)
  -- With the second source moved down no line needs relabelling, so the same lemma gives an
  -- equality.
  refine ⟨hsink, hresult, ?_⟩
  have hsame : relabelBody ⟨fun line => line, fun id => id⟩
      (relabelBody (.behind lines next) tree') = relabelBody (.behind lines next) tree' :=
    relabelBody_eq_self hmoved.read (fun _ _ => rfl) fun _ _ => rfl
  obtain ⟨-, hexact⟩ := hfirst.runs_apart host sink hsecond hjoined before hbehind succeeds
    (fun _ => rfl) (fun _ _ => rfl) hsame
  rw [mapError_relabel_id] at hexact
  exact hexact.symm

/-- The line of a failure, if a run ends with one. -/
def failureLine? (result : Except (List Diagnostic) Unit) : Option Nat :=
  match result with
  | .error [.stopped (.failed line _)] => some line
  | _ => none

theorem eq_ok_of_isOk {ε : Type} {result : Except ε Unit} (h : result.isOk = true) :
    result = .ok () := by
  cases result with
  | ok => rfl
  | error e => cases h

/-- A failure in the second source, which is on its first line alone and on the second together. -/
theorem session_concatenates_failing :
    let s := Session.start .plain (.working "")
    let first := Utf8.encode "fun f(x) \x7b return -x; \x7d print f(1);"
    let second := Utf8.encode "print -f; f(2);"
    let together := s.run 10 (first ++ byte '\n' :: second)
    failureLine? together.result = some 2 ∧
      failureLine? ((s.run 10 first).session.run 10 second).result = some 1 ∧
      ((s.run 10 first).session.run 10 second).result =
        together.result.mapError (List.map (Diagnostic.relabel (.apart 1))) := by
  intro s first second together
  have hresult := (session_concatenates .plain (.working "") 10 first second
    (eq_ok_of_isOk (by decide +kernel)) (by decide +kernel)).2 (by decide +kernel)
  exact ⟨by decide +kernel, by decide +kernel, hresult.2.1⟩

/-- Not every failure behind a first source is further down where the two are one source: one in a
function of the first source stays on its line. -/
theorem not_every_failure_down :
    ¬∀ (host : Host) (sink : Sink) (budget : Nat) (first second : List UInt8),
      ((Session.start host sink).run budget first).result = .ok () →
      (Job.program second).errors 0 = [] →
      (Job.program (first ++ byte '\n' :: second)).errors 0 = [] →
        ((Session.start host sink).run budget (first ++ byte '\n' :: second)).result =
          (((Session.start host sink).run budget first).session.run budget second).result.mapError
            (List.map (Diagnostic.relabel (.down (1 + first.count (byte '\n'))))) := by
  intro h
  let first := Utf8.encode "fun f() \x7b return -\"a\"; \x7d"
  let second := Utf8.encode "f();"
  have hresult := h .plain (.working "") 10 first second (eq_ok_of_isOk (by decide +kernel))
    (by decide +kernel) (by decide +kernel)
  exact absurd (congrArg failureLine? hresult) (by decide +kernel)

end LoxLang
