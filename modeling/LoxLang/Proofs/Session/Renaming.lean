import LoxLang.Proofs.Evaluation.Recoding
import LoxLang.Proofs.Scoping.Blurring
import LoxLang.Proofs.Scoping.Recording
import LoxLang.Proofs.Scoping.Renaming
import LoxLang.Proofs.Scoping.Tables
import LoxLang.Proofs.Session.Gating

/-!
# Local names do not matter

A program does the same with another name for one of its parameters or local variables: it is
accepted with the same table, and a run of it prints the same and ends in the same way
(`local_names_do_not_matter`). Both programs are blurred to one, with which each of them has its run
in common.
-/

namespace LoxLang

/-! ## Runs of blurred trees -/

theorem fits_blurring (table : Bindings) : (blurring table).Fits table table where
  binds := fun _ => rfl
  keeps := by
    intro id text hnone
    have hmissing : id ∉ table := by
      rw [Std.TreeMap.mem_iff_isSome_getElem?, hnone]
      simp
    exact if_neg hmissing

/-- The cause of a failure, without the name of what is not a trait. -/
def FailureCause.unnamed : FailureCause → FailureCause
  | .notATrait _ => .notATrait ""
  | cause => cause

/-- A stop that does not say the name of what is not a trait. -/
def Stop.unnamed : Stop → Stop
  | .failed line cause => .failed line cause.unnamed
  | stop => stop

/-- Two runs end alike: both with a result, or both in the same way and on the same line, but for
the name of what is not a trait. They have printed the same. -/
def EndAlike : EStateM.Result Stop Machine Unit → EStateM.Result Stop Machine Unit → Prop
  | .ok _ m, .ok _ m' => m'.sink = m.sink
  | .error stop m, .error stop' m' => m'.sink = m.sink ∧ stop'.unnamed = stop.unnamed
  | _, _ => False

theorem Recoding.Stops.unnamed_eq {table : Bindings} {stop stop' : Stop}
    (h : (blurring table).Stops stop stop') : stop'.unnamed = stop.unnamed := by
  cases h with
  | same => cases stop <;> rfl
  | notATrait => rfl

/-- Programs that are blurred to the same tree end alike. -/
theorem endAlike_of_blurred {program program' : List Stmt} {m : Machine}
    (h : recodeBody (blurring m.bindings) false program' =
      recodeBody (blurring m.bindings) false program) (budget : Nat) :
    EndAlike (interpret budget program m) (interpret budget program' m) := by
  have hrun : Recodes (blurring m.bindings) m.bindings m.bindings false id
      (interpret budget program) (interpret budget (recodeBody _ false program)) :=
    recodes_interpret (fits_blurring m.bindings) budget program
  have hrun' : Recodes (blurring m.bindings) m.bindings m.bindings false id
      (interpret budget program') (interpret budget (recodeBody _ false program')) :=
    recodes_interpret (fits_blurring m.bindings) budget program'
  rw [h] at hrun'
  -- Each of the runs has the run of the blurred tree as its other side.
  have hends := hrun m rfl nofun
  have hends' := hrun' m rfl nofun
  unfold Ensures at hends hends'
  cases hresult : interpret budget program m with
  | ok a m₁ =>
    rw [hresult] at hends
    obtain ⟨-, hblurred⟩ := hends
    cases hresult' : interpret budget program' m with
    | ok a' m₂ =>
      rw [hresult'] at hends'
      obtain ⟨-, hblurred'⟩ := hends'
      have hsame := hblurred.symm.trans hblurred'
      injection hsame with _ hmachine
      exact (congrArg Machine.sink hmachine).symm
    | error stop' m₂ =>
      rw [hresult'] at hends'
      obtain ⟨-, _, -, hblurred'⟩ := hends'
      cases hblurred.symm.trans hblurred'
  | error stop m₁ =>
    rw [hresult] at hends
    obtain ⟨-, blurred, hstop, hblurred⟩ := hends
    cases hresult' : interpret budget program' m with
    | ok a' m₂ =>
      rw [hresult'] at hends'
      obtain ⟨-, hblurred'⟩ := hends'
      cases hblurred.symm.trans hblurred'
    | error stop' m₂ =>
      rw [hresult'] at hends'
      obtain ⟨-, blurred', hstop', hblurred'⟩ := hends'
      have hsame := hblurred.symm.trans hblurred'
      injection hsame with hstops hmachine
      refine ⟨(congrArg Machine.sink hmachine).symm, ?_⟩
      rw [← hstop'.unnamed_eq, ← hstop.unnamed_eq, hstops]

/-! ## Another name -/

/-- Let a program be accepted, and give to a parameter or a `var` of a scope another name that does
not occur in the program, in its declaration and in the occurrences that denote it. The program is
accepted as well and has the same table. On any machine it prints the same, and its run ends as
before: not at all with a failure, or with the same kind of failure on the same line. -/
theorem local_names_do_not_matter (ρ : Renaming) (program : List Stmt) (table : Bindings)
    (accepted : Scoping.resolve program = .ok table) (fresh : ρ.new ∉ namesInBody program) :
    Scoping.resolve (renameBody ρ [] 0 program) = .ok table ∧
      ∀ (budget : Nat) (m : Machine),
        EndAlike (interpret budget program (m.binding table))
          (interpret budget (renameBody ρ [] 0 program) (m.binding table)) := by
  refine ⟨Scoping.resolve_rename accepted fresh, fun budget m => ?_⟩
  apply endAlike_of_blurred
  have houtside : Placed ρ false [] [] := ⟨.nil, fun _ => rfl⟩
  refine recodeBody_rename program 0 houtside ?_
  intro mention hmention b hb
  have hmem := (Scoping.entries_of_resolve accepted).2 mention hmention b hb
  rw [Std.TreeMap.mem_iff_isSome_getElem?] at hmem ⊢
  show ((m.bindings.merge table)[mention.occurrence.id]?).isSome = true
  rw [Bindings.getElem?_merge]
  obtain ⟨b', hb'⟩ := Option.isSome_iff_exists.mp hmem
  rw [hb']
  rfl

/-- The program `fun f(a) { var b = a; { var a = b; print a; } return a; } f(nil);` -/
def layered : List Stmt :=
  [.funDecl (.mk ⟨"f", 1⟩ (.mk [⟨"a", 1⟩]
    [.varDecl ⟨"b", 1⟩ (some (.variable ⟨0, ⟨"a", 1⟩⟩)),
     .block
      [.varDecl ⟨"a", 1⟩ (some (.variable ⟨1, ⟨"b", 1⟩⟩)),
       .print (.variable ⟨2, ⟨"a", 1⟩⟩)],
     .returnWith 1 (some (.variable ⟨3, ⟨"a", 1⟩⟩))])),
   .expression (.call (.variable ⟨4, ⟨"f", 1⟩⟩) [.literal .nil] 1)]

def layeredTable : Bindings :=
  (((Bindings.none.insert 0 ⟨0, 0⟩).insert 1 ⟨1, 1⟩).insert 2 ⟨0, 0⟩).insert 3 ⟨0, 0⟩

/-- The parameter of `layered`, whose name is the second one of the program, with the name `c`. -/
def layeredParameter : Renaming where
  position := 1
  old := "a"
  new := "c"
  old_explicit := by decide
  new_explicit := by decide

/-- The program `fun f(c) { var b = c; { var a = b; print a; } return c; } f(nil);` -/
def layeredRenamed : List Stmt :=
  [.funDecl (.mk ⟨"f", 1⟩ (.mk [⟨"c", 1⟩]
    [.varDecl ⟨"b", 1⟩ (some (.variable ⟨0, ⟨"c", 1⟩⟩)),
     .block
      [.varDecl ⟨"a", 1⟩ (some (.variable ⟨1, ⟨"b", 1⟩⟩)),
       .print (.variable ⟨2, ⟨"a", 1⟩⟩)],
     .returnWith 1 (some (.variable ⟨3, ⟨"c", 1⟩⟩))])),
   .expression (.call (.variable ⟨4, ⟨"f", 1⟩⟩) [.literal .nil] 1)]

theorem local_names_do_not_matter_layered :
    Scoping.resolve layered = .ok layeredTable ∧ "c" ∉ namesInBody layered ∧
      renameBody layeredParameter [] 0 layered = layeredRenamed ∧
      Scoping.resolve layeredRenamed = .ok layeredTable ∧
      ∀ (budget : Nat) (m : Machine),
        EndAlike (interpret budget layered (m.binding layeredTable))
          (interpret budget layeredRenamed (m.binding layeredTable)) := by
  have accepted : Scoping.resolve layered = .ok layeredTable := rfl
  have fresh : "c" ∉ namesInBody layered := by decide
  have hrenamed : renameBody layeredParameter [] 0 layered = layeredRenamed := rfl
  have hboth := local_names_do_not_matter layeredParameter layered layeredTable accepted fresh
  rw [hrenamed] at hboth
  exact ⟨accepted, fresh, hrenamed, hboth⟩

end LoxLang
