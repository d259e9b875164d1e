import Colloquy.Machine.Holding
import Colloquy.Machine.Step

/-!
# Counting frames

A popped frame is kept for as long as a closure that it created is held: by the host, by an operand
stack, by a variable of a frame that is kept itself, or by an array or object that is held.  A
census finds the frames that nothing keeps, and recycles them.
-/

namespace Colloquy

namespace Census

/-- What can hold and be held: a frame or a row of the store. -/
inductive Node where
  | frame (id : FrameId)
  | row (r : Ref)

/-- What a value holds.  A closure holds its frame and its receiver. -/
def ofValue : Value → List Node
  | .array r | .object _ r => [.row r]
  | .block ⟨_, _, enclosing, _, receiver⟩ => .frame enclosing :: ofValue receiver
  | _ => []

/-- What a frame holds: its operands, variables and receiver, and the frame around it. -/
def ofFrame (f : Frame Value) : List Node :=
  f.left.flatMap ofValue ++ f.locals.toList.flatMap ofValue ++ ofValue f.receiver
    ++ f.enclosing.toList.map .frame

/-- The number of a node: slots of the arena come first, rows of the store after them. -/
def number (frames : Arena Value) : Node → Option Nat
  | .frame id => if frames.contains id then some id.index else none
  | .row r => some (frames.slots.size + r)

/-- The frames on the call stack, which stay whether or not anything else holds them. -/
def onStack (s : State) : List Node := s.calls.calls.map (.frame ·.frame)

/-- What is held from outside the graph: by the host, by the operands of calls in progress, and by
the call stack. -/
def roots (s : State) (held : List Value) : List Node :=
  held.flatMap ofValue ++ s.calls.calls.flatMap (·.stack.flatMap ofValue) ++ onStack s

/-- Frames and rows, with what holds them; `held` is what the host holds. -/
def graph (s : State) (held : List Value) : Holding :=
  let frames := s.memory.frames
  let slots := frames.slots.size
  { size := slots + s.memory.store.rows.size
    holds := fun n =>
      if n < slots then
        match (frames.slots.getD n {}).frame with
        | some f => (ofFrame f).filterMap (number frames)
        | none => []
      else
        ((s.memory.store.row (n - slots)).toList.flatMap ofValue).filterMap (number frames)
    outside := (roots s held).filterMap (number frames) }

/-- The popped frames that nothing keeps. -/
def unheld (s : State) (held : List Value) : List FrameId :=
  let kept := (graph s held).remaining
  s.memory.frames.slots.toList.zipIdx.filterMap fun (slot, i) =>
    if slot.popped && kept.getD i true = false then some ⟨i, slot.generation⟩ else none

end Census

namespace Machine

/-- Recycles the frames that nothing keeps, and counts the others.  `held` is what the host holds;
the transcript is always there. -/
def census (machine : Machine) (s : State) (held : List Value) : State × Nat :=
  let unheld := Census.unheld s (machine.image.transcript :: held)
  match s with
  | ⟨⟨frames, store, serial, transcript, logging, log⟩, calls⟩ =>
    let frames := (frames.abandonPins unheld).collect
    let live := frames.live
    (⟨⟨frames, store, serial, transcript, logging, log⟩, calls⟩, live)

end Machine

end Colloquy
