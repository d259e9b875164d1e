import Colloquy.Instruction.Basic

/-!
# Instructions as bytes

An instruction is its opcode byte followed by its operands, least significant byte first.  `encode`
writes instructions, `decodeAt` reads the one at an offset, and `decodeFrom` reads one after another
until the code ends or an instruction cannot be read.
-/

namespace Colloquy

/-- A sequence of encoded instructions. -/
abbrev Bytes := Array UInt8

/-- Why the bytes at an offset are no instruction. -/
inductive DecodeError where
  | unknownOpcode (byte : UInt8) (offset : Nat)
  | truncated (opcode : Opcode) (offset : Nat)
deriving DecidableEq, Inhabited

def DecodeError.message : DecodeError → String
  | unknownOpcode byte offset =>
    "unknown opcode 0x" ++ Text.hexByte byte ++ " at offset " ++ offset.repr
  | truncated opcode offset => "truncated " ++ opcode.name ++ " at offset " ++ offset.repr

namespace Instruction

/-! ## Writing -/

def shortBytes (n : UInt16) : List UInt8 := [n.toUInt8, (n >>> 8).toUInt8]

def wordBytes (n : UInt32) : List UInt8 :=
  [n.toUInt8, (n >>> 8).toUInt8, (n >>> 16).toUInt8, (n >>> 24).toUInt8]

/-- The operand bytes. -/
def operandBytes : Instruction → List UInt8
  | pushNil | pushSelf | pushTrue | pushFalse | pop | ret | blockReturn => []
  | pushChar n | pushArray n | pushLiteral n | pushGlobal n | pushField n | storeField n
  | block n => shortBytes n
  | pushInt value => wordBytes value.toUInt32
  | pushFloat value => wordBytes value.bits
  | pushLocal a b | storeLocal a b | send a b | sendSuper a b => shortBytes a ++ shortBytes b
  | debug file position => shortBytes file ++ wordBytes position.pack

/-- The bytes of one instruction. -/
def encode (i : Instruction) : List UInt8 := i.opcode.code :: i.operandBytes

/-- Writes one more instruction. -/
def emit (bytes : Bytes) (i : Instruction) : Bytes := i.encode.foldl Array.push bytes

/-- The bytes of instructions in order. -/
def encodeAll (is : Array Instruction) : Bytes := is.foldl emit #[]

/-! ## Reading -/

/-- The short at an offset; bytes past the end count as zero. -/
def shortAt (bytes : Bytes) (i : Nat) : UInt16 :=
  (bytes.getD i 0).toUInt16 ||| ((bytes.getD (i + 1) 0).toUInt16 <<< 8)

/-- The word at an offset; bytes past the end count as zero. -/
def wordAt (bytes : Bytes) (i : Nat) : UInt32 :=
  (bytes.getD i 0).toUInt32 ||| ((bytes.getD (i + 1) 0).toUInt32 <<< 8)
    ||| ((bytes.getD (i + 2) 0).toUInt32 <<< 16) ||| ((bytes.getD (i + 3) 0).toUInt32 <<< 24)

/-- The instruction with opcode `o` whose operands start at offset `i`. -/
def read (bytes : Bytes) (i : Nat) (o : Opcode) : Instruction :=
  match o with
  | .pushNil => pushNil
  | .pushSelf => pushSelf
  | .pushTrue => pushTrue
  | .pushFalse => pushFalse
  | .pushChar => pushChar (shortAt bytes i)
  | .pushInt => pushInt (wordAt bytes i).toInt32
  | .pushFloat => pushFloat ⟨wordAt bytes i⟩
  | .pushArray => pushArray (shortAt bytes i)
  | .pushLiteral => pushLiteral (shortAt bytes i)
  | .pushGlobal => pushGlobal (shortAt bytes i)
  | .pushField => pushField (shortAt bytes i)
  | .pushLocal => pushLocal (shortAt bytes i) (shortAt bytes (i + 2))
  | .pop => pop
  | .storeField => storeField (shortAt bytes i)
  | .storeLocal => storeLocal (shortAt bytes i) (shortAt bytes (i + 2))
  | .ret => ret
  | .send => send (shortAt bytes i) (shortAt bytes (i + 2))
  | .sendSuper => sendSuper (shortAt bytes i) (shortAt bytes (i + 2))
  | .block => block (shortAt bytes i)
  | .blockReturn => blockReturn
  | .debug => debug (shortAt bytes i) (Position.unpack (wordAt bytes (i + 2)))

/-- The instruction at offset `pc` and the offset of the next one; nothing at the end of the code
or past it. -/
def decodeAt (bytes : Bytes) (pc : Nat) : Except DecodeError (Option (Instruction × Nat)) :=
  match bytes[pc]? with
  | none => .ok none
  | some byte =>
    match Opcode.ofCode? byte with
    | none => .error (.unknownOpcode byte pc)
    | some o =>
      if pc + o.size ≤ bytes.size then .ok (some (read bytes (pc + 1) o, pc + o.size))
      else .error (.truncated o pc)

/-- **Reading moves forward and stays inside the code.** -/
theorem decodeAt_bounds {bytes : Bytes} {pc next : Nat} {i : Instruction}
    (h : decodeAt bytes pc = .ok (some (i, next))) : pc < next ∧ next ≤ bytes.size := by
  unfold decodeAt at h
  split at h
  · simp at h
  · split at h
    · simp at h
    · rename_i o _
      split at h
      · simp only [Except.ok.injEq, Option.some.injEq, Prod.mk.injEq] at h
        have := o.size_pos
        omega
      · simp at h

/-- What reading from an offset finds: the instructions with their offsets, the error that stopped
it if there was one, and the offset where it stopped. -/
structure Listing where
  items : List (Nat × Instruction)
  error : Option DecodeError
  stop : Nat

/-- Reads from `pc` on, with `seen` read before in reverse. -/
def decodeLoop (bytes : Bytes) (pc : Nat) (seen : List (Nat × Instruction)) : Listing :=
  match _read : decodeAt bytes pc with
  | .ok none => ⟨seen.reverse, none, pc⟩
  | .error e => ⟨seen.reverse, some e, pc⟩
  | .ok (some (i, next)) => decodeLoop bytes next ((pc, i) :: seen)
termination_by bytes.size - pc
decreasing_by
  have := decodeAt_bounds _read
  omega

/-- All instructions from `pc` to the end of the code or to the first error. -/
def decodeFrom (bytes : Bytes) (pc : Nat) : Listing := decodeLoop bytes pc []

end Instruction

end Colloquy
