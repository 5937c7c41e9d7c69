import LoxLang.Machine.Failure
import LoxLang.Scoping.Binding
import LoxLang.Value.Text

/-!
# The state of a machine

A machine holds everything that programs run one after the other share: globals, frames, the
fields of objects and the elements of arrays, the bindings of all occurrences so far, and the
output. What the system around it decides, the time and the room for arrays, is that of a
`Host`. `Run` is what a piece of a program does to a machine: it ends with a result or stops, and
the machine is left as it then is in both cases.
-/

namespace LoxLang

/-- How a write fails: after so many characters, and with this message. -/
structure WriteFault where
  taken : Nat
  message : String
deriving Repr, DecidableEq

/-- Where printed lines go: what has been written so far, and the faults to come. There is an
entry for each of the next lines, with the fault of the write if it fails, and one for all lines
behind these. -/
structure Sink where
  written : String
  coming : List (Option WriteFault)
  later : Option WriteFault
deriving Repr

namespace Sink

/-- An output that takes every line. -/
def working (written : String) : Sink :=
  ⟨written, [], none⟩

/-- An output that takes nothing more. -/
def closed (written message : String) : Sink :=
  ⟨written, [], some ⟨0, message⟩⟩

/-- The fault of the next line, if it has one. -/
def fault? (s : Sink) : Option WriteFault :=
  s.coming.headD s.later

/-- The output behind a line of which it has taken this. -/
def take (s : Sink) (text : String) : Sink :=
  { s with written := s.written ++ text, coming := s.coming.tail }

/-- The output behind a line, of which there are beginnings of any length, and why writing it
stops, if it does. An output that takes the line takes all of it, and is never done with one that
has no end; a write that fails has taken a beginning. -/
def receive (s : Sink) (line : Nat → Rendering) : Sink × Option Stop :=
  match s.fault? with
  | some fault =>
    let taken := (line fault.taken).text.toList.take fault.taken
    (s.take (String.ofList taken), some (.closed fault.message))
  | none =>
    let shown := line 0
    (s.take shown.text, if shown.whole then none else some .exhausted)

/-- A line that is not written is no failure of a program. -/
theorem receive_ne_failed (s : Sink) (line : Nat → Rendering) (number : Nat)
    (cause : FailureCause) : (s.receive line).2 ≠ some (.failed number cause) := by
  unfold receive
  cases s.fault? with
  | some fault => nofun
  | none =>
    dsimp only
    split <;> nofun

end Sink

/-- The system that machines run on: what the clock says each time that it is read, in seconds,
and how large an array there is room for beside so many others. -/
structure Host where
  reading : Nat → Float
  room : Nat → Nat

/-- A host on which a microsecond passes between each two readings, and which has room for all
arrays. -/
def Host.plain : Host where
  reading n := Float.ofNat n / 1000000.0
  room _ := maxArraySize

/-- The fields of an object. -/
abbrev Fields := Dictionary Value

/-- The state that the parts of a program share. -/
structure Machine where
  globals : Dictionary Value
  frames : Frames
  objects : Array Fields
  arrays : Arrays
  identities : Identity
  current : Option FrameId
  bindings : Bindings
  sink : Sink
  ticks : Nat
  host : Host

namespace Machine

/-- The globals that exist before any program has run. -/
def initialGlobals : Dictionary Value :=
  (Dictionary.empty.insert Native.clock.name (.native .clock)).insert Native.array.name
    (.native .array)

/-- The machine before any program has run. -/
def start (host : Host) (sink : Sink) : Machine where
  globals := initialGlobals
  frames := Frames.empty
  objects := #[]
  arrays := #[]
  identities := 0
  current := none
  bindings := Bindings.none
  sink := sink
  ticks := 0
  host := host

end Machine

/-- What a piece of a program does. -/
abbrev Run := EStateM Stop Machine

namespace Run

/-- Stop with a failure. -/
def fail {α : Type} (line : Nat) (cause : FailureCause) : Run α :=
  throw (.failed line cause)

/-- Go on with a result, or stop with the failure it says. -/
def ofExcept {ε α : Type} (line : Nat) (cause : ε → FailureCause) : Except ε α → Run α
  | .ok a => pure a
  | .error e => fail line (cause e)

/-- An identity that nothing else has. -/
def newIdentity : Run Identity := fun m =>
  .ok m.identities { m with identities := m.identities + 1 }

/-- A new object without fields. -/
def newObject : Run ObjectId := fun m =>
  .ok m.objects.size { m with objects := m.objects.push Dictionary.empty }

/-- A new array with `nil` for its elements. -/
def newArray (size : Nat) : Run ArrayId := fun m =>
  .ok m.arrays.size { m with arrays := m.arrays.push (Array.replicate size .nil) }

/-- A new frame around which lies another one or, if `outer` is none, only the globals. -/
def newFrame (outer : Option FrameId) : Run FrameId := fun m =>
  .ok m.frames.next { m with frames := m.frames.alloc outer }

/-- Put a value into the next slot of a frame. -/
def define (frame : FrameId) (value : Value) : Run Unit := fun m =>
  .ok () { m with frames := m.frames.define frame value }

/-- Put values into the next slots of a frame. -/
def defineAll (frame : FrameId) : List Value → Run Unit
  | [] => pure ()
  | value :: rest => do
    define frame value
    defineAll frame rest

/-- The current frame. -/
def current : Run (Option FrameId) := fun m =>
  .ok m.current m

/-- The end of a run, with the given frame as the current one. -/
def putBack {α : Type} (frame : Option FrameId) :
    EStateM.Result Stop Machine α → EStateM.Result Stop Machine α
  | .ok a m => .ok a { m with current := frame }
  | .error stop m => .error stop { m with current := frame }

/-- Run with another current frame; the one before is put back however the run ends. -/
def within {α : Type} (frame : FrameId) (run : Run α) : Run α := fun m =>
  putBack m.current (run { m with current := some frame })

/-- The field of an object. -/
def field? (object : ObjectId) (name : String) : Run (Option Value) := fun m =>
  .ok ((m.objects.getD object Dictionary.empty).get? name) m

/-- Give a field of an object a value. -/
def setField (object : ObjectId) (name : String) (value : Value) : Run Unit := fun m =>
  .ok () { m with objects := m.objects.modify object (·.insert name value) }

/-- The number of elements of an array. -/
def arrayLength (array : ArrayId) : Run Nat := fun m =>
  .ok (m.arrays.getD array #[]).size m

/-- An element of an array. -/
def element (array : ArrayId) (index : Nat) : Run Value := fun m =>
  .ok ((m.arrays.getD array #[]).getD index .nil) m

/-- Give an element of an array a value. -/
def setElement (array : ArrayId) (index : Nat) (value : Value) : Run Unit := fun m =>
  .ok () { m with arrays := m.arrays.modify array (·.setIfInBounds index value) }

/-- The text of a value. One that has no end is never come to. -/
def textOf (value : Value) : Run String := fun m =>
  match value.text? m.arrays with
  | some text => .ok text m
  | none => .error .exhausted m

/-- The line that is printed for a value. -/
def lineOf (value : Value) : Run (Nat → Rendering) := fun m =>
  .ok (value.line m.arrays) m

/-- Write a line, of which there are beginnings of any length. -/
def write (line : Nat → Rendering) : Run Unit := fun m =>
  match m.sink.receive line with
  | (sink, none) => .ok () { m with sink := sink }
  | (sink, some stop) => .error stop { m with sink := sink }

theorem write_of_taken {line : Nat → Rendering} {m : Machine} {sink : Sink}
    (h : m.sink.receive line = (sink, none)) :
    write line m = .ok () { m with sink := sink } := by
  unfold write
  rw [h]

theorem write_of_stopped {line : Nat → Rendering} {m : Machine} {sink : Sink} {stop : Stop}
    (h : m.sink.receive line = (sink, some stop)) :
    write line m = .error stop { m with sink := sink } := by
  unfold write
  rw [h]

/-- Write the text of a value as a line. -/
def print (value : Value) : Run Unit := do
  write (← lineOf value)

/-- Read the clock, in seconds. -/
def readClock : Run Float := fun m =>
  .ok (m.host.reading m.ticks) { m with ticks := m.ticks + 1 }

/-- The size of the largest array that there is room for. -/
def room : Run Nat := fun m =>
  .ok (m.host.room m.arrays.size) m

/-- The value of an occurrence: of a local variable if it has a binding, and of the global of
its name otherwise. -/
def lookUp (id : RefId) (name : String) (line : Nat) : Run Value := fun m =>
  match m.bindings[id]?, m.current with
  | some binding, some frame =>
    match m.frames.get frame binding.depth binding.slot with
    | .ok value => .ok value m
    | .error fault => .error (.failed line (.frame fault)) m
  | _, _ =>
    match m.globals.get? name with
    | some value => .ok value m
    | none => .error (.failed line (.undefinedVariable name)) m

/-- Give the variable that an occurrence denotes a new value. -/
def assign (id : RefId) (name : String) (line : Nat) (value : Value) : Run Unit := fun m =>
  match m.bindings[id]?, m.current with
  | some binding, some frame =>
    match m.frames.holder frame binding.depth binding.slot with
    | .ok holder => .ok () { m with frames := m.frames.replace holder binding.slot value }
    | .error fault => .error (.failed line (.frame fault)) m
  | _, _ =>
    if m.globals.contains name then
      .ok () { m with globals := m.globals.insert name value }
    else .error (.failed line (.undefinedVariable name)) m

/-- Declare a variable: in the next slot of the current frame, or among the globals. -/
def declare (name : String) (value : Value) : Run Unit := fun m =>
  match m.current with
  | some frame => .ok () { m with frames := m.frames.define frame value }
  | none => .ok () { m with globals := m.globals.insert name value }

end Run

end LoxLang
