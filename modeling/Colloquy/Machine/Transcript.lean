/-!
# The transcript

Where programs write lines.  A buffer keeps them for the host to read; a writer hands them on, and
may have room for a limited number of lines only.
-/

namespace Colloquy

inductive Sink where
  | buffer
  /-- A writer with room for `room` more lines, or without a limit. -/
  | writer (room : Option Nat)
deriving DecidableEq, Inhabited

structure Transcript where
  sink : Sink := .buffer
  /-- All lines written so far, each ended by a line feed. -/
  text : String := ""
deriving Inhabited

namespace Transcript

/-- Writes one line; nothing if the writer has no room left. -/
def write? (t : Transcript) (line : String) : Option Transcript :=
  match t with
  | ⟨.buffer, text⟩ => some ⟨.buffer, text ++ line ++ "\n"⟩
  | ⟨.writer none, text⟩ => some ⟨.writer none, text ++ line ++ "\n"⟩
  | ⟨.writer (some 0), _⟩ => none
  | ⟨.writer (some (n + 1)), text⟩ => some ⟨.writer (some n), text ++ line ++ "\n"⟩

/-- What a buffer has kept. -/
def contents (t : Transcript) : String :=
  match t.sink with
  | .buffer => t.text
  | .writer _ => ""

end Transcript

end Colloquy
