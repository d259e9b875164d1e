import Colloquy.Machine.Step
import Colloquy.Proofs.Effects

/-!
# What steps come to

A step reads the next instruction of the innermost call, and may log it.  If none can be read it
fails (`Machine.step_unread`), if the code is over the call ends (`Machine.step_pastEnd`), and
otherwise the instruction is carried out (`Machine.step_eq`).  `Machine.StepsTo` lists all these, so
whatever holds of each of them holds of every step.

Main statement: `Machine.step_stepsTo`.
-/

namespace Colloquy

/-- The call stack with the given calls. -/
def CallStack.of (calls : List Call) : CallStack := ⟨calls, calls.length, rfl⟩

theorem CallStack.eq_of (s : CallStack) : s = .of s.calls := by
  obtain ⟨calls, depth, rfl⟩ := s
  rfl

/-- The call with its next instruction being carried out. -/
def Call.moved (c : Call) (next : Nat) : Call :=
  { c with ip := next, current := some c.ip }

namespace Machine

open Instruction (decodeAt)

variable {m : Memory} {c : Call} {v : Value}

/-- A call ends with its topmost operand or with its receiver. -/
theorem lastValue_eq_ok (h : lastValue m c = .ok v) :
    v ∈ c.stack ∨ ∃ fr, m.frames.get? c.frame = some fr ∧ fr.receiver = v := by
  unfold lastValue at h
  split at h
  · rename_i w below here
    cases h
    exact .inl (here ▸ List.mem_cons_self)
  · exact .inr (Memory.receiver_eq_ok h)

/-- An instruction may be logged before it is carried out. -/
theorem logs_noted (machine : Machine) (m : Memory) (line : Memory → String) :
    m.Logs (if machine.traceInstructions then m.trace line else m) := by
  split
  · exact .trace m line
  · exact .refl m

/-- What an effect on the innermost call comes to. -/
def carryOut (machine : Machine) (c : Call) (rest : List Call) : Effect → Progress
  | .next stack m => machine.logCalls (.running ⟨m, .of ({ c with stack } :: rest)⟩)
  | .enter stack callee m =>
    machine.logCalls (machine.enter ⟨m, .of ({ c with stack } :: rest)⟩ callee)
  | .finish stack v m => finish ⟨m, .of ({ c with stack } :: rest)⟩ v
  | .escape stack v m => machine.escape ⟨m, .of ({ c with stack } :: rest)⟩ { c with stack } v
  | .fault stack cause m => State.fail ⟨m, .of ({ c with stack } :: rest)⟩ cause

/-- What the end of the innermost call's code comes to. -/
def pastEnd (m : Memory) (c : Call) (rest : List Call) : Progress :=
  match lastValue m c with
  | .ok v => finish ⟨m, .of (c :: rest)⟩ v
  | .error e => State.fail ⟨m, .of (c :: rest)⟩ e

section Equations

variable (machine : Machine) (m : Memory) (rest : List Call)

/-- A step fails if there is no instruction where the innermost call has come to. -/
theorem step_unread {e : DecodeError} (decoded : decodeAt c.code.block.bytecode c.ip = .error e) :
    ∃ m₀, m.Logs m₀ ∧ machine.step ⟨m, .of (c :: rest)⟩
      = State.fail ⟨m₀, .of (c :: rest)⟩ (.badBytecode e) := by
  refine ⟨_, machine.logs_noted m fun _ => c.code.block.line c.ip, ?_⟩
  simp only [step, CallStack.of, decoded]

/-- A step ends the innermost call if its code is over. -/
theorem step_pastEnd (decoded : decodeAt c.code.block.bytecode c.ip = .ok none) :
    ∃ m₀, m.Logs m₀ ∧ machine.step ⟨m, .of (c :: rest)⟩ = pastEnd m₀ c rest := by
  refine ⟨_, machine.logs_noted m fun _ => c.code.block.line c.ip, ?_⟩
  simp only [step, CallStack.of, decoded]
  rfl

/-- A step carries out the instruction that is read, and may have logged it before. -/
theorem step_eq {i : Instruction} {next : Nat}
    (decoded : decodeAt c.code.block.bytecode c.ip = .ok (some (i, next))) :
    ∃ m₀, m.Logs m₀ ∧ machine.step ⟨m, .of (c :: rest)⟩
      = machine.carryOut (c.moved next) rest ((c.moved next).execute machine.image m₀ i) := by
  refine ⟨_, machine.logs_noted m fun _ => c.code.block.line c.ip, ?_⟩
  simp only [step, CallStack.of, decoded]
  rfl

end Equations

/-- **What a step can come to.** -/
inductive StepsTo (machine : Machine) : State → Progress → Prop where
  /-- There is no call. -/
  | idle {m : Memory} : StepsTo machine ⟨m, .of []⟩ (State.fail ⟨m, .of []⟩ .noActiveFrame)
  /-- There is no instruction where the innermost call has come to. -/
  | unread {m m₀ : Memory} {c : Call} {rest : List Call} {e : DecodeError}
      (decoded : decodeAt c.code.block.bytecode c.ip = .error e) (noted : m.Logs m₀) :
      StepsTo machine ⟨m, .of (c :: rest)⟩ (State.fail ⟨m₀, .of (c :: rest)⟩ (.badBytecode e))
  /-- The code of the innermost call is over, and the call has no value to end with. -/
  | valueless {m m₀ : Memory} {c : Call} {rest : List Call} {cause : Cause}
      (decoded : decodeAt c.code.block.bytecode c.ip = .ok none) (noted : m.Logs m₀)
      (last : lastValue m₀ c = .error cause) :
      StepsTo machine ⟨m, .of (c :: rest)⟩ (State.fail ⟨m₀, .of (c :: rest)⟩ cause)
  /-- The code of the innermost call is over. -/
  | ends {m m₀ : Memory} {c : Call} {rest : List Call} {v : Value}
      (decoded : decodeAt c.code.block.bytecode c.ip = .ok none) (noted : m.Logs m₀)
      (last : lastValue m₀ c = .ok v) :
      StepsTo machine ⟨m, .of (c :: rest)⟩ (finish ⟨m₀, .of (c :: rest)⟩ v)
  /-- An instruction is carried out. -/
  | executes {m m₀ : Memory} {c : Call} {rest : List Call} {i : Instruction} {next : Nat}
      {effect : Effect} (decoded : decodeAt c.code.block.bytecode c.ip = .ok (some (i, next)))
      (noted : m.Logs m₀) (executed : (c.moved next).execute machine.image m₀ i = effect) :
      StepsTo machine ⟨m, .of (c :: rest)⟩ (machine.carryOut (c.moved next) rest effect)

/-- **Every step comes to one of these.** -/
theorem step_stepsTo (machine : Machine) (s : State) : machine.StepsTo s (machine.step s) := by
  obtain ⟨m, calls⟩ := s
  rw [calls.eq_of]
  cases calls.calls with
  | nil => exact .idle
  | cons c rest =>
    cases decoded : decodeAt c.code.block.bytecode c.ip with
    | error e =>
      obtain ⟨m₀, noted, stepped⟩ := machine.step_unread m rest decoded
      exact stepped ▸ .unread decoded noted
    | ok found =>
      cases found with
      | none =>
        obtain ⟨m₀, noted, stepped⟩ := machine.step_pastEnd m rest decoded
        rw [stepped, pastEnd]
        split
        · rename_i v last
          exact .ends decoded noted last
        · rename_i cause last
          exact .valueless decoded noted last
      | some found =>
        obtain ⟨m₀, noted, stepped⟩ := machine.step_eq m rest decoded
        exact stepped ▸ .executes decoded noted rfl

/-! ## Logged calls -/

/-- Logging the calls changes the log only. -/
theorem logCalls_running (machine : Machine) (m : Memory) (calls : CallStack) :
    ∃ m', m.Logs m' ∧ machine.logCalls (.running ⟨m, calls⟩) = .running ⟨m', calls⟩ := by
  unfold logCalls
  dsimp only
  split
  · exact ⟨_, .trace m _, rfl⟩
  · exact ⟨m, .refl m, rfl⟩

/-- Logging the calls keeps what does not depend on the log. -/
theorem logCalls_keeps {machine : Machine} {P : Progress → Prop} {p : Progress} (h : P p)
    (logged : ∀ m m' calls, m.Logs m' → P (.running ⟨m, calls⟩) → P (.running ⟨m', calls⟩)) :
    P (machine.logCalls p) := by
  cases p with
  | running s =>
    obtain ⟨m', logs, same⟩ := machine.logCalls_running s.memory s.calls
    rw [same]
    exact logged s.memory m' s.calls logs h
  | finished v s => exact h
  | failed f s => exact h

end Machine

end Colloquy
