import Colloquy.Log
import Colloquy.Machine.Transcript
import Colloquy.Machine.Value

/-!
# Memory

Everything that running code can change, the call stack apart.
-/

namespace Colloquy

structure Memory where
  /-- Frames count their generations from one, so that a handle of generation zero is free for a
  host to name a frame that is not there. -/
  frames : Arena Value := { birth := 1 }
  store : Store := {}
  /-- The next identity for a string or a closure. -/
  serial : Nat := 0
  transcript : Transcript := {}
  /-- Whether what happens is logged. -/
  logging : Bool := false
  log : Log := #[]

namespace Memory

instance : Inhabited Memory := ⟨{}⟩

/-- A string that is no other one. -/
def newString (m : Memory) (text : String) : Memory × Value :=
  let id := m.serial
  ({ m with serial := id + 1 }, .string (.made id) text)

/-- An array that is no other one. -/
def newArray (m : Memory) (values : Array Value) : Memory × Value :=
  let (store, row) := m.store.add values
  ({ m with store }, .array row)

/-- Logs a line, which is only put together if logging is on. -/
def trace (m : Memory) (line : Memory → String) : Memory :=
  if m.logging then
    let entry : LogEntry := ⟨.trace, line m⟩
    { m with log := m.log.push entry }
  else m

/-! A log entry changes nothing but the log. -/

@[simp] theorem frames_trace (m : Memory) (line : Memory → String) :
    (m.trace line).frames = m.frames := by
  unfold trace
  split <;> rfl

@[simp] theorem store_trace (m : Memory) (line : Memory → String) :
    (m.trace line).store = m.store := by
  unfold trace
  split <;> rfl

@[simp] theorem serial_trace (m : Memory) (line : Memory → String) :
    (m.trace line).serial = m.serial := by
  unfold trace
  split <;> rfl

@[simp] theorem transcript_trace (m : Memory) (line : Memory → String) :
    (m.trace line).transcript = m.transcript := by
  unfold trace
  split <;> rfl

end Memory

end Colloquy
