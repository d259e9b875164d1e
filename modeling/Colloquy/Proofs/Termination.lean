import Colloquy.Machine.Host
import Colloquy.Proofs.Stepping

/-!
# Every run ends

There are no jumps: a step that goes on moves the innermost call forward in its code, perhaps with a
new call on top of it while there is room for one, or takes calls off the stack (`Machine.Moves`).
No infinite sequence of such steps exists, so every host call is over after finitely many of them,
whatever code is loaded and whatever state it starts from (`Machine.host_calls_end`).
-/

namespace Colloquy

/-- How a step that is not the last one changes the call stack, where `limit` bounds the depth. -/
inductive Machine.Moves (limit : Nat) : List Call → List Call → Prop where
  /-- The innermost call goes on further ahead in its code. -/
  | forward {c c' : Call} {rest : List Call} (frame : c'.frame = c.frame) (code : c'.code = c.code)
      (ahead : c.ip < c'.ip) (inside : c'.ip ≤ c.code.block.bytecode.size) :
      Moves limit (c :: rest) (c' :: rest)
  /-- The innermost call will go on further ahead in its code once the new call on top is over. -/
  | enter {c c' new : Call} {rest : List Call} (frame : c'.frame = c.frame)
      (code : c'.code = c.code) (ahead : c.ip < c'.ip)
      (inside : c'.ip ≤ c.code.block.bytecode.size) (room : rest.length + 2 ≤ limit) :
      Moves limit (c :: rest) (new :: c' :: rest)
  /-- The innermost call is over, perhaps with others below it, and the next one gets a value. -/
  | leave {past c : Call} {rest below : List Call} {v : Value} (suffix : c :: rest <:+ below) :
      Moves limit (past :: below) ({ c with stack := v :: c.stack } :: rest)

namespace Machine

section Moves

variable {machine : Machine} {s after : State}

/-- **What a step that goes on does to the call stack.** -/
theorem step_moves (h : machine.step s = .running after) :
    Moves machine.maxDepth s.calls.calls after.calls.calls := by
  have steps := machine.step_stepsTo s
  generalize machine.step s = p at steps h
  cases steps with
  | idle | unread | valueless => exact absurd h State.not_running_of_fail
  | ends =>
    obtain ⟨d, below, rfl, calls⟩ := calls_of_finish rfl h
    rw [calls]
    exact .leave (List.suffix_refl _)
  | @executes _ _ c rest _ next effect decoded =>
    obtain ⟨ahead, inside⟩ := Instruction.decodeAt_bounds decoded
    unfold carryOut at h
    cases effect with
    | next stack m =>
      obtain ⟨before, hb, hc⟩ := calls_of_logCalls h
      rw [hc, ← Progress.running.inj hb]
      exact .forward rfl rfl ahead inside
    | enter stack callee m =>
      obtain ⟨before, hb, hc⟩ := calls_of_logCalls h
      obtain ⟨room, new, hnew⟩ := calls_of_enter hb
      rw [hc, hnew]
      exact .enter rfl rfl ahead inside room
    | finish =>
      obtain ⟨d, below, rfl, calls⟩ := calls_of_finish rfl h
      rw [calls]
      exact .leave (List.suffix_refl _)
    | escape =>
      obtain ⟨d, below, suffix, calls⟩ := calls_of_escape rfl h
      rw [calls]
      exact .leave suffix
    | fault => exact absurd h State.not_running_of_fail

end Moves

/-! ## Counting steps -/

/-- The outcome of a run that is over. -/
def outcome? : Progress → Option Outcome
  | .running _ => none
  | .finished v s => some (.value v s)
  | .failed f s => some (.failure f s)

/-- Carries out `n` steps, or fewer if the run is over before. -/
def advance (machine : Machine) : Nat → Progress → Progress
  | 0, p => p
  | n + 1, .running s => machine.advance n (machine.step s)
  | _ + 1, p => p

/-- The run loop cut off after `n` steps. -/
def runFor (machine : Machine) (n : Nat) (s : State) : Option Outcome :=
  outcome? (machine.advance n (.running s))

/-- **A state runs to its outcome in finitely many steps.** -/
theorem exists_runFor (machine : Machine) (s : State) :
    ∃ n, machine.runFor n s = some (machine.run s) := by
  fun_induction machine.run s with
  | case1 s after hstep ih =>
    obtain ⟨n, hn⟩ := ih
    exact ⟨n + 1, by rw [runFor, advance, hstep]; exact hn⟩
  | case2 s v after hstep => exact ⟨1, by simp [runFor, advance, hstep, outcome?]⟩
  | case3 s f after hstep => exact ⟨1, by simp [runFor, advance, hstep, outcome?]⟩

/-! ## Host calls with a bounded number of steps -/

/-- `perform`, given up after `n` steps. -/
def performFor (machine : Machine) (n : Nat) (s : State) (receiver : Value) (code : Code)
    (args : List Value) : Option Outcome :=
  match s.abandon with
  | ⟨memory, calls⟩ =>
    match invoke machine.image memory receiver code args with
    | .answer v memory => some (.value v ⟨memory, calls⟩)
    | .fault cause memory => some (.failure (State.failure ⟨memory, calls⟩ cause) ⟨memory, calls⟩)
    | .enter callee memory =>
      match machine.enter ⟨memory, calls⟩ callee with
      | .running s => (machine.runFor n s).map Outcome.settled
      | .finished v s => some (.value v s)
      | .failed f s => some (.failure f s.abandon)

/-- `send`, given up after `n` steps. -/
def sendFor (machine : Machine) (n : Nat) (s : State) (receiver : Value) (selector : String)
    (args : List Value) : Option Outcome :=
  match machine.image.method receiver selector with
  | .ok code => machine.performFor n s receiver code args
  | .error cause => some (.failure (s.failure cause) s)

/-- `runMain`, given up after `n` steps. -/
def runMainFor (machine : Machine) (n : Nat) (s : State) : Option Outcome :=
  match machine.image.byName[mainClass]? with
  | none => some (.value .nil s)
  | some cls =>
    match cls.lookup mainSelector with
    | none => some (.failure (s.failure (.notUnderstood mainClass mainSelector)) s)
    | some code =>
      let (store, receiver) := Image.instantiate s.memory.store cls
      machine.performFor n { s with memory := { s.memory with store } } receiver code []

theorem exists_performFor (machine : Machine) (s : State) (receiver : Value) (code : Code)
    (args : List Value) :
    ∃ n, machine.performFor n s receiver code args
      = some (machine.perform s receiver code args) := by
  cases hi : invoke machine.image s.abandon.memory receiver code args with
  | answer v memory => exact ⟨0, by simp only [performFor, perform, hi]⟩
  | fault cause memory => exact ⟨0, by simp only [performFor, perform, hi]⟩
  | enter callee memory =>
    cases he : machine.enter ⟨memory, s.abandon.calls⟩ callee with
    | running s' =>
      obtain ⟨n, hn⟩ := exists_runFor machine s'
      exact ⟨n, by simp only [performFor, perform, hi, he, hn, Option.map_some]⟩
    | finished v s' => exact ⟨0, by simp only [performFor, perform, hi, he]⟩
    | failed f s' => exact ⟨0, by simp only [performFor, perform, hi, he]⟩

theorem exists_sendFor (machine : Machine) (s : State) (receiver : Value) (selector : String)
    (args : List Value) :
    ∃ n, machine.sendFor n s receiver selector args
      = some (machine.send s receiver selector args) := by
  cases hm : machine.image.method receiver selector with
  | error cause => exact ⟨0, by simp only [sendFor, send, hm]⟩
  | ok code =>
    obtain ⟨n, hn⟩ := exists_performFor machine s receiver code args
    exact ⟨n, by simp only [sendFor, send, hm, hn]⟩

theorem exists_runMainFor (machine : Machine) (s : State) :
    ∃ n, machine.runMainFor n s = some (machine.runMain s) := by
  cases hc : machine.image.byName[mainClass]? with
  | none => exact ⟨0, by simp only [runMainFor, runMain, hc]⟩
  | some cls =>
    cases hl : cls.lookup mainSelector with
    | none => exact ⟨0, by simp only [runMainFor, runMain, hc, hl]⟩
    | some code =>
      obtain ⟨n, hn⟩ := exists_performFor machine _ _ code []
      exact ⟨n, by simp only [runMainFor, runMain, hc, hl]; exact hn⟩

/-- **Every step that goes on moves forward or leaves calls, and every host call ends** after
finitely many steps, with the outcome that the host is given. -/
theorem host_calls_end (machine : Machine) (s : State) :
    (∀ after, machine.step s = .running after →
      Moves machine.maxDepth s.calls.calls after.calls.calls)
    ∧ (∃ n, machine.runFor n s = some (machine.run s))
    ∧ (∃ n, machine.runMainFor n s = some (machine.runMain s))
    ∧ (∀ receiver selector args, ∃ n, machine.sendFor n s receiver selector args
        = some (machine.send s receiver selector args))
    ∧ (∀ receiver code args, ∃ n, machine.performFor n s receiver code args
        = some (machine.perform s receiver code args)) :=
  ⟨fun _ => step_moves, exists_runFor machine s, exists_runMainFor machine s,
    exists_sendFor machine s, exists_performFor machine s⟩

end Machine

end Colloquy
