import LoxLang.Value.Basic

/-!
# Frames of local variables

Each block and each call has a frame: the values of its variables in the order of their
declaration, and the frame around it. Frames are never taken away, so that a function can use
those it was declared in for as long as it lives, and all who reach a frame share it.
-/

namespace LoxLang

/-- The values of a scope's variables, and the frame around. -/
structure Frame where
  values : Array Value
  outer : Option FrameId

instance : Inhabited Frame := ⟨⟨#[], none⟩⟩

/-- Why a variable is not found. -/
inductive FrameFault
  | escapes (depth : Nat)
  | unbound (slot : Nat)
deriving Repr, DecidableEq

/-- The wording of a fault. -/
def FrameFault.message : FrameFault → String
  | escapes depth => "Scope depth " ++ Nat.repr depth ++ " escapes the local chain."
  | unbound slot => "Unbound local slot " ++ Nat.repr slot ++ "."

/-- All frames there have been. -/
structure Frames where
  all : Array Frame

namespace Frames

/-- No frames. -/
def empty : Frames := ⟨#[]⟩

/-- The number of frames. -/
def size (fs : Frames) : Nat :=
  fs.all.size

/-- The name that the next new frame gets. -/
def next (fs : Frames) : FrameId :=
  fs.all.size

/-- A new frame without variables. -/
def alloc (fs : Frames) (outer : Option FrameId) : Frames :=
  ⟨fs.all.push ⟨#[], outer⟩⟩

/-- The values in a frame. -/
def values (fs : Frames) (id : FrameId) : Array Value :=
  (fs.all.getD id default).values

/-- The slot that the next variable of a frame gets. -/
def nextSlot (fs : Frames) (id : FrameId) : Nat :=
  (fs.values id).size

/-- Put a value into the next slot of a frame. -/
def define (fs : Frames) (id : FrameId) (value : Value) : Frames :=
  ⟨fs.all.modify id fun frame => { frame with values := frame.values.push value }⟩

/-- The frame around a frame. -/
def outer? (fs : Frames) (id : FrameId) : Option FrameId :=
  (fs.all.getD id default).outer

/-- The frame that lies a number of steps outward, if there are so many. -/
def outward? (fs : Frames) (id : FrameId) : Nat → Option FrameId
  | 0 => some id
  | steps + 1 =>
    match fs.outer? id with
    | some outer => fs.outward? outer steps
    | none => none

/-- The frame at a depth as seen from a frame. -/
def ancestor (fs : Frames) (id : FrameId) (depth : Nat) : Except FrameFault FrameId :=
  match fs.outward? id depth with
  | some frame => .ok frame
  | none => .error (.escapes depth)

/-- The frame at a depth as seen from a frame, which must have the given slot. -/
def holder (fs : Frames) (id : FrameId) (depth slot : Nat) : Except FrameFault FrameId :=
  match fs.ancestor id depth with
  | .error fault => .error fault
  | .ok frame => if slot < fs.nextSlot frame then .ok frame else .error (.unbound slot)

/-- Replace the value in a slot of a frame. -/
def replace (fs : Frames) (id : FrameId) (slot : Nat) (value : Value) : Frames :=
  ⟨fs.all.modify id fun frame =>
    { frame with values := frame.values.setIfInBounds slot value }⟩

/-- The value of a variable. -/
def get (fs : Frames) (id : FrameId) (depth slot : Nat) : Except FrameFault Value :=
  match fs.holder id depth slot with
  | .error fault => .error fault
  | .ok frame => .ok ((fs.values frame).getD slot .nil)

/-- Give a variable a new value. -/
def assign (fs : Frames) (id : FrameId) (depth slot : Nat) (value : Value) :
    Except FrameFault Frames :=
  match fs.holder id depth slot with
  | .error fault => .error fault
  | .ok frame => .ok (fs.replace frame slot value)

end Frames

end LoxLang
