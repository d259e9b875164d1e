import Colloquy.Machine.Memory

/-!
# The call stack

A call is an activation in progress: its frame, how far it has come in its code, and its operands.
The calls that wait for each other form the call stack.
-/

namespace Colloquy

/-- An activation in progress. -/
structure Call where
  frame : FrameId
  code : Code
  /-- The offset of the next instruction. -/
  ip : Nat := 0
  /-- The offset of the instruction being carried out. -/
  current : Option Nat := none
  /-- The operands, top first. -/
  stack : List Value := []

namespace Call

/-- The bytes of code that are still ahead. -/
def remaining (c : Call) : Nat := c.code.block.bytecode.size - c.ip

/-- The name of the code, the variables and the operands. -/
def text (m : Memory) (c : Call) : String :=
  let locals := ((m.frames.get? c.frame).map (·.locals.toList)).getD []
  c.code.block.qualified ++ Value.inspectAll m.store locals
    ++ Value.inspectAll m.store c.stack.reverse

/-- The line of a stack trace for a call: its text, the source position and the instruction. -/
def traceLine (m : Memory) (c : Call) : String :=
  let place := ((m.frames.get? c.frame).map (·.place)).getD {}
  "    at " ++ Text.padLeft (c.text m) 50 ++ Text.padRight ("(" ++ place.text ++ ")") 20
    ++ " executing " ++ c.code.block.line (c.current.getD c.ip) ++ "\n"

end Call

/-- The calls in progress, innermost first, and their number. -/
structure CallStack where
  calls : List Call
  depth : Nat
  depth_eq : depth = calls.length

namespace CallStack

/-- Nothing runs. -/
def empty : CallStack := ⟨[], 0, rfl⟩

instance : Inhabited CallStack := ⟨empty⟩

/-- The frame of the innermost call. -/
def current? (s : CallStack) : Option FrameId := s.calls.head?.map (·.frame)

def push (s : CallStack) (c : Call) : CallStack :=
  ⟨c :: s.calls, s.depth + 1, by simp [s.depth_eq]⟩

/-- The call stack without its `n` innermost calls. -/
def drop (s : CallStack) (n : Nat) : CallStack :=
  ⟨s.calls.drop n, s.depth - n, by simp [s.depth_eq]⟩

@[simp] theorem calls_push (s : CallStack) (c : Call) : (s.push c).calls = c :: s.calls := rfl

@[simp] theorem calls_drop (s : CallStack) (n : Nat) : (s.drop n).calls = s.calls.drop n := rfl

/-- How many calls there are up to that of a given frame, itself included. -/
def upTo? (s : CallStack) (home : FrameId) : Option Nat :=
  (s.calls.findIdx? (·.frame = home)).map (· + 1)

/-- One line for each call, innermost first. -/
def trace (s : CallStack) (m : Memory) : String := String.join (s.calls.map (·.traceLine m))

/-- All calls on one line, outermost first. -/
def line (s : CallStack) (m : Memory) : String :=
  "calls: " ++ ", ".intercalate (s.calls.reverse.map (·.text m))

end CallStack

end Colloquy
