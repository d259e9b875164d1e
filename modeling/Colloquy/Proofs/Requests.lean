import Colloquy.Machine.Host
import Colloquy.Proofs.Coherence.Progress

/-!
# Requests of a host

A host makes values, sends messages and runs the main method, one request after another, with the
values that it has got so far: a session (`Machine.session`).

Main statement: what a host call comes to follows from what the call of its method replies
(`Machine.perform_eq`).
-/

namespace Colloquy

/-- What a host can ask for.  Values that the host has got are named by their numbers. -/
inductive Request where
  /-- A value that the host makes up. -/
  | make (value : Literal)
  /-- A new array of values that the host has. -/
  | array (items : List Nat)
  /-- What a global name stands for. -/
  | global (name : String)
  /-- An element of an array, or a field of an object. -/
  | element (whole index : Nat)
  | newInstance (className : String)
  | send (receiver : Nat) (selector : String) (args : List Nat)
  | main

/-- The value that the host has got under a number; `nil` if there is none. -/
def held (host : List Value) (n : Nat) : Value := host.getD n .nil

namespace Memory

/-- The value of a literal that a host makes up. -/
def make (m : Memory) : Literal → Memory × Value
  | .nil => (m, .nil)
  | .bool b => (m, .bool b)
  | .int n => (m, .int n)
  | .float f => (m, .float f)
  | .char c => (m, .char c)
  | .string text => m.newString text

/-- An element of an array or a field of an object; `nil` if there is none. -/
def element (m : Memory) (index : Nat) : Value → Value
  | .array row | .object _ row => (m.store.row row).getD index .nil
  | _ => .nil

end Memory

namespace Machine

/-- Does what the host asks for. -/
def serve (machine : Machine) (s : State) (host : List Value) : Request → Outcome
  | .make value => .value (s.memory.make value).2 { s with memory := (s.memory.make value).1 }
  | .array items =>
    let made := s.memory.newArray (items.map (held host)).toArray
    .value made.2 { s with memory := made.1 }
  | .global name => .value ((machine.image.lookup name).getD .nil) s
  | .element whole index => .value (s.memory.element index (held host whole)) s
  | .newInstance className => machine.newInstance s className
  | .send receiver selector args =>
    machine.send s (held host receiver) selector (args.map (held host))
  | .main => machine.runMain s

/-- The state that a host call leaves. -/
def Outcome.state : Outcome → State
  | .value _ s => s
  | .failure _ s => s

/-- What the host is told. -/
def Outcome.answer : Outcome → Except Cause Value
  | .value v _ => .ok v
  | .failure f _ => .error f.cause

/-- Does one thing after another.  Every value that the host gets has the next number. -/
def session (machine : Machine) (s : State) (host : List Value) : List Request → List Outcome
  | [] => []
  | r :: rest =>
    let o := machine.serve s host r
    o :: machine.session o.state (host ++ o.answer.toOption.toList) rest

/-- The state that requests leave, and the values that the host has got then. -/
def after (machine : Machine) (s : State) (host : List Value) : List Request → State × List Value
  | [] => (s, host)
  | r :: rest =>
    let o := machine.serve s host r
    machine.after o.state (host ++ o.answer.toOption.toList) rest

/-- How a host call ends, once its method has been called. -/
def concluded (machine : Machine) : Reply → Outcome
  | .answer v m => .value v ⟨m, .empty⟩
  | .enter callee m => (machine.outcome (machine.enter ⟨m, .empty⟩ callee)).settled
  | .fault cause m => .failure (State.failure ⟨m, .empty⟩ cause) ⟨m, .empty⟩

/-- **What a host call comes to.** -/
theorem perform_eq (machine : Machine) (s : State) (receiver : Value) (code : Code)
    (args : List Value) :
    machine.perform s receiver code args
      = machine.concluded (invoke machine.image s.abandon.memory receiver code args) := by
  have idle : s.abandon = ⟨s.abandon.memory, .empty⟩ := rfl
  rw [perform, idle]
  dsimp only
  cases invoke machine.image s.abandon.memory receiver code args with
  | answer v m => rfl
  | fault cause m => rfl
  | enter callee m =>
    rw [concluded]
    dsimp only
    cases machine.enter ⟨m, .empty⟩ callee <;> rfl

end Machine

end Colloquy
