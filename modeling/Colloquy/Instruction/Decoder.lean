import Colloquy.Instruction.Codec

/-!
# Reading instructions one at a time

A decoder stands at an offset of some bytes.  Whenever it is asked, it reads one instruction and
goes on to the next.  At the end of the bytes there is nothing to read; and once something could not
be read, nothing is read any more.
-/

namespace Colloquy

/-- Reads instructions one after another. -/
structure Decoder where
  bytes : Bytes
  offset : Nat := 0
  /-- Whether something could not be read. -/
  failed : Bool := false

namespace Decoder

/-- What is read next, and the decoder after it. -/
def next (d : Decoder) : Option (Except DecodeError Instruction) × Decoder :=
  if d.failed then (none, d)
  else
    match Instruction.decodeAt d.bytes d.offset with
    | .ok none => (none, d)
    | .ok (some (i, next)) => (some (.ok i), { d with offset := next })
    | .error e => (some (.error e), { d with failed := true })

end Decoder

end Colloquy
