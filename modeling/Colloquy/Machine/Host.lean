import Colloquy.Machine.Run

/-!
# Calls from the host

A host makes objects, sends messages and runs the main method.  Whatever an earlier call has left on
the call stack is dropped before code runs, and again when it fails, so every call starts and ends
with an empty call stack.
-/

namespace Colloquy

namespace Memory

/-- Drops an interrupted call.  Its frame keeps the operands that were left. -/
def drop (m : Memory) (c : Call) : Memory :=
  match m with
  | ⟨frames, store, serial, transcript, logging, log⟩ =>
    let frames := (frames.modify c.frame ({ · with left := c.stack })).release c.frame
    ⟨frames, store, serial, transcript, logging, log⟩

end Memory

namespace State

/-- Drops all calls in progress, innermost first. -/
def abandon (s : State) : State :=
  match s with
  | ⟨memory, calls⟩ => ⟨calls.calls.foldl Memory.drop memory, .empty⟩

@[simp] theorem calls_abandon (s : State) : s.abandon.calls = .empty := rfl

end State

namespace Machine

/-- The state that classes are loaded with: nothing runs, and the only object is the transcript. -/
def start (store : Store) (transcript : Transcript) : State :=
  { memory := { store, transcript } }

/-- Ends a host call: after a failure, nothing is left on the call stack. -/
def Outcome.settled : Outcome → Outcome
  | .value v s => .value v s
  | .failure f s => .failure f s.abandon

/-- Runs a method to its end. -/
def perform (machine : Machine) (s : State) (receiver : Value) (code : Code) (args : List Value) :
    Outcome :=
  match s.abandon with
  | ⟨memory, calls⟩ =>
    match invoke machine.image memory receiver code args with
    | .answer v memory => .value v ⟨memory, calls⟩
    | .fault cause memory =>
      let s : State := ⟨memory, calls⟩
      .failure (s.failure cause) s
    | .enter callee memory =>
      match machine.enter ⟨memory, calls⟩ callee with
      | .running s => (machine.run s).settled
      | .finished v s => .value v s
      | .failed f s => .failure f s.abandon

/-- Sends a message.  If no method answers it, nothing changes. -/
def send (machine : Machine) (s : State) (receiver : Value) (selector : String)
    (args : List Value) : Outcome :=
  match machine.image.method receiver selector with
  | .ok code => machine.perform s receiver code args
  | .error cause => .failure (s.failure cause) s

/-- Makes an instance of the class with a given name. -/
def newInstance (machine : Machine) (s : State) (className : String) : Outcome :=
  match machine.image.byName[className]? with
  | some cls =>
    let (store, v) := Image.instantiate s.memory.store cls
    .value v { s with memory := { s.memory with store } }
  | none => .failure (s.failure (.unknownClass className)) s

/-- Runs the main method on a new instance of its class; `nil` if the program has none. -/
def runMain (machine : Machine) (s : State) : Outcome :=
  match machine.image.byName[mainClass]? with
  | none => .value .nil s
  | some cls =>
    match cls.lookup mainSelector with
    | none => .failure (s.failure (.notUnderstood mainClass mainSelector)) s
    | some code =>
      let (store, receiver) := Image.instantiate s.memory.store cls
      machine.perform { s with memory := { s.memory with store } } receiver code []

/-- What a primitive that the host carries out itself comes to. -/
inductive Performed where
  | value (v : Value) (s : State)
  /-- A block was entered and waits on the call stack. -/
  | entered (s : State)
  | failure (f : Failure) (s : State)

/-- Carries out a primitive on top of whatever is on the call stack. -/
def performPrimitive (machine : Machine) (s : State) (p : Primitive) (receiver : Value)
    (args : List Value) : Performed :=
  match s with
  | ⟨memory, calls⟩ =>
    match p.apply machine.image memory receiver args with
    | .answer v memory => .value v ⟨memory, calls⟩
    | .fault cause memory =>
      let s : State := ⟨memory, calls⟩
      .failure (s.failure cause) s
    | .enter callee memory =>
      match machine.enter ⟨memory, calls⟩ callee with
      | .running s => .entered s
      | .finished v s => .value v s
      | .failed f s => .failure f s

end Machine

end Colloquy
