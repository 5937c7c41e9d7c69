import LoxLang.Machine.Failure
import LoxLang.Proofs.Tree.Formed

/-!
# Causes of failures

Some causes of a failure stand for a state that an interpreter for accepted programs does not come
to (`FailureCause.internal`). The others, but for those that have to do with frames, are ordinary:
a program brings them about.
-/

namespace LoxLang

namespace FailureCause

/-- Causes that do not lie in the program: more scopes than frames, `super` or an initializer
without what it belongs to, or a superclass or trait that is not written as a name. -/
def internal : FailureCause → Bool
  | frame (.escapes _) => true
  | superUnbound => true
  | superKind => true
  | superWithoutReceiver => true
  | initializerUnbound => true
  | undefinedVariable name => name == placeholderName
  | notATrait name => name == placeholderName
  | _ => false

/-- Causes that lie in the program and have nothing to do with frames. -/
def ordinary (cause : FailureCause) : Bool :=
  match cause with
  | frame _ => false
  | _ => !cause.internal

theorem not_internal_of_ordinary {cause : FailureCause} (h : cause.ordinary = true) :
    cause.internal = false := by
  unfold ordinary at h
  split at h
  · cases h
  · simpa using h

theorem ne_frame_of_ordinary {cause : FailureCause} (h : cause.ordinary = true)
    (fault : FrameFault) : cause ≠ .frame fault := by
  rintro rfl
  cases h

theorem ordinary_undefinedVariable {name : String} (h : name ≠ placeholderName) :
    (undefinedVariable name).ordinary = true := by
  simp [ordinary, internal, h]

theorem ordinary_notATrait {name : String} (h : name ≠ placeholderName) :
    (notATrait name).ordinary = true := by
  simp [ordinary, internal, h]

/-! ## How they are told -/

/-- How the messages of internal failures begin, and those for operators that there are not. -/
def internalOpenings : List String :=
  ["Scope depth ", "Can't use 'super'", "No 'this' frame", "Initializer called",
    "Invalid unary operator", "Invalid binary operator"]

/-- How the other messages begin, up to what they say of the program. -/
def otherOpenings : List String :=
  ["Undefined variable '", "Undefined property '", "Expected ", "'",
    "A previous trait declares a method named '", "Method '", "Unbound local slot ",
    "Only instances have properties.", "Only instances have fields.",
    "Can't add properties to arrays.", "Operand must be a number.", "Operands must be numbers.",
    "Operands must be two numbers or at least one string.", "Division by zero.",
    "Can only call functions and classes.", "Superclass must be a class.",
    "Array size must be a non-negative integer.", "Array size too large.",
    "Array index must be an integer.", "Array index can't be negative.", "Invalid array index."]

/-- No message begins both ways. -/
theorem openings_apart : ∀ other ∈ otherOpenings, ∀ word ∈ internalOpenings,
    ¬word.toList <+: other.toList ∧ ¬other.toList <+: word.toList := by
  decide +kernel

theorem exists_opening {cause : FailureCause} (h : cause.internal = false) :
    ∃ other ∈ otherOpenings, ∃ rest, cause.message = other ++ rest := by
  have hconstant : cause.message ∈ otherOpenings →
      ∃ other ∈ otherOpenings, ∃ rest, cause.message = other ++ rest :=
    fun hmem => ⟨_, hmem, "", String.append_empty.symm⟩
  cases cause with
  | undefinedVariable name => exact ⟨_, by simp [otherOpenings], _, String.append_assoc⟩
  | undefinedProperty name => exact ⟨_, by simp [otherOpenings], _, String.append_assoc⟩
  | notATrait name => exact ⟨_, by simp [otherOpenings], _, String.append_assoc⟩
  | traitsShare name => exact ⟨_, by simp [otherOpenings], _, String.append_assoc⟩
  | providedByTrait name => exact ⟨_, by simp [otherOpenings], _, String.append_assoc⟩
  | wrongArity expected given =>
    have hmessage : (wrongArity expected given).message =
        "Expected " ++ Nat.repr expected ++ " arguments but got " ++ Nat.repr given ++ "." := rfl
    rw [hmessage, String.append_assoc, String.append_assoc, String.append_assoc]
    exact ⟨_, by simp [otherOpenings], _, rfl⟩
  | array fault => cases fault <;> exact hconstant (by decide +kernel)
  | frame fault =>
    cases fault with
    | escapes depth => cases h
    | unbound slot => exact ⟨_, by simp [otherOpenings], _, String.append_assoc⟩
  | superUnbound | superKind | superWithoutReceiver | initializerUnbound => cases h
  | _ => exact hconstant (by decide +kernel)

/-- The message of a failure that is not internal begins like none of an internal one. -/
theorem not_opens {cause : FailureCause} (h : cause.internal = false) :
    ∀ word ∈ internalOpenings, ¬word.toList <+: cause.message.toList := by
  intro word hword hopens
  obtain ⟨other, hother, rest, hmessage⟩ := exists_opening h
  obtain ⟨apart, apart'⟩ := openings_apart other hother word hword
  rw [hmessage, String.toList_append] at hopens
  rcases List.prefix_or_prefix_of_prefix hopens (List.prefix_append _ _) with hshort | hlong
  · exact apart hshort
  · exact apart' hlong

end FailureCause

end LoxLang
