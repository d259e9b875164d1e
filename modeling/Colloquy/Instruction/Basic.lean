import Colloquy.Number.Decimal
import Colloquy.Position

/-!
# Instructions of the machine

Each instruction is an opcode with operands of fixed width: a *short* takes two bytes and a *word*
four.  There is no jump: control leaves a straight line of instructions only by a send or a return.
-/

namespace Colloquy

/-- The operations of the machine, in the order of their codes. -/
inductive Opcode where
  | pushNil | pushSelf | pushTrue | pushFalse | pushChar | pushInt | pushFloat | pushArray
  | pushLiteral | pushGlobal | pushField | pushLocal | pop | storeField | storeLocal | ret
  | send | sendSuper | block | blockReturn | debug
deriving DecidableEq, Inhabited

namespace Opcode

/-- All opcodes; the place in this list is the code. -/
def all : List Opcode :=
  [pushNil, pushSelf, pushTrue, pushFalse, pushChar, pushInt, pushFloat, pushArray, pushLiteral,
    pushGlobal, pushField, pushLocal, pop, storeField, storeLocal, ret, send, sendSuper, block,
    blockReturn, debug]

/-- How many opcodes there are. -/
def count : Nat := all.length

/-- The byte that stands for an opcode. -/
def code : Opcode → UInt8
  | pushNil => 0 | pushSelf => 1 | pushTrue => 2 | pushFalse => 3 | pushChar => 4 | pushInt => 5
  | pushFloat => 6 | pushArray => 7 | pushLiteral => 8 | pushGlobal => 9 | pushField => 10
  | pushLocal => 11 | pop => 12 | storeField => 13 | storeLocal => 14 | ret => 15 | send => 16
  | sendSuper => 17 | block => 18 | blockReturn => 19 | debug => 20

/-- The opcode that a byte stands for. -/
def ofCode? : UInt8 → Option Opcode
  | 0 => some pushNil | 1 => some pushSelf | 2 => some pushTrue | 3 => some pushFalse
  | 4 => some pushChar | 5 => some pushInt | 6 => some pushFloat | 7 => some pushArray
  | 8 => some pushLiteral | 9 => some pushGlobal | 10 => some pushField | 11 => some pushLocal
  | 12 => some pop | 13 => some storeField | 14 => some storeLocal | 15 => some ret
  | 16 => some send | 17 => some sendSuper | 18 => some block | 19 => some blockReturn
  | 20 => some debug | _ => none

/-- The number of operand bytes that follow the opcode. -/
def operandSize : Opcode → Nat
  | pushNil | pushSelf | pushTrue | pushFalse | pop | ret | blockReturn => 0
  | pushChar | pushArray | pushLiteral | pushGlobal | pushField | storeField | block => 2
  | pushInt | pushFloat | pushLocal | storeLocal | send | sendSuper => 4
  | debug => 6

/-- The size of the whole instruction. -/
def size (o : Opcode) : Nat := 1 + o.operandSize

/-- The short name in listings. -/
def mnemonic : Opcode → String
  | pushNil => "nil" | pushSelf => "self" | pushTrue => "true" | pushFalse => "false"
  | pushChar => "push_char" | pushInt => "push_int" | pushFloat => "push_float"
  | pushArray => "push_array" | pushLiteral => "push_literal" | pushGlobal => "push_global"
  | pushField => "push_field" | pushLocal => "push_local" | pop => "pop"
  | storeField => "store_field" | storeLocal => "store_local" | ret => "return" | send => "send"
  | sendSuper => "send_super" | block => "block" | blockReturn => "block_return" | debug => "dbg"

/-- The full name in messages. -/
def name : Opcode → String
  | pushNil => "PushNil" | pushSelf => "PushSelf" | pushTrue => "PushTrue"
  | pushFalse => "PushFalse" | pushChar => "PushChar" | pushInt => "PushInt"
  | pushFloat => "PushFloat" | pushArray => "PushArray" | pushLiteral => "PushLiteral"
  | pushGlobal => "PushGlobal" | pushField => "PushField" | pushLocal => "PushLocal"
  | pop => "Pop" | storeField => "StoreField" | storeLocal => "StoreLocal" | ret => "Return"
  | send => "Send" | sendSuper => "SendSuper" | block => "Block" | blockReturn => "BlockReturn"
  | debug => "Dbg"

/-- **Codes are read back.** -/
theorem ofCode?_code (o : Opcode) : ofCode? o.code = some o := by cases o <;> rfl

theorem size_pos (o : Opcode) : 0 < o.size := Nat.lt_of_lt_of_le Nat.one_pos (Nat.le_add_right 1 _)

end Opcode

/-- An instruction with its operands. -/
inductive Instruction where
  | pushNil
  | pushSelf
  | pushTrue
  | pushFalse
  | pushChar (code : UInt16)
  | pushInt (value : Int32)
  | pushFloat (value : Single)
  /-- Replaces the top `size` values by an array of them. -/
  | pushArray (size : UInt16)
  | pushLiteral (literal : UInt16)
  | pushGlobal (literal : UInt16)
  | pushField (field : UInt16)
  /-- Reads slot `slot` of the frame `depth` enclosing hops out. -/
  | pushLocal (depth slot : UInt16)
  | pop
  | storeField (field : UInt16)
  | storeLocal (depth slot : UInt16)
  /-- Returns from the method that the running code belongs to. -/
  | ret
  /-- Sends to the receiver below `argc` arguments. -/
  | send (argc selector : UInt16)
  | sendSuper (argc selector : UInt16)
  /-- Pushes a closure of nested block `index` of the method. -/
  | block (index : UInt16)
  /-- Returns from the running block only. -/
  | blockReturn
  /-- Records the source position that the code has reached. -/
  | debug (file : UInt16) (position : Position)
deriving DecidableEq, Inhabited

namespace Instruction

def opcode : Instruction → Opcode
  | pushNil => .pushNil
  | pushSelf => .pushSelf
  | pushTrue => .pushTrue
  | pushFalse => .pushFalse
  | pushChar _ => .pushChar
  | pushInt _ => .pushInt
  | pushFloat _ => .pushFloat
  | pushArray _ => .pushArray
  | pushLiteral _ => .pushLiteral
  | pushGlobal _ => .pushGlobal
  | pushField _ => .pushField
  | pushLocal _ _ => .pushLocal
  | pop => .pop
  | storeField _ => .storeField
  | storeLocal _ _ => .storeLocal
  | ret => .ret
  | send _ _ => .send
  | sendSuper _ _ => .sendSuper
  | block _ => .block
  | blockReturn => .blockReturn
  | debug _ _ => .debug

/-- The size in bytes. -/
def size (i : Instruction) : Nat := i.opcode.size

/-- The character that a short stands for; the codes of surrogates stand for none. -/
def charOfShort? (code : UInt16) : Option Char :=
  if h : code.toUInt32.isValidChar then some ⟨code.toUInt32, h⟩ else none

/-- How a listing refers to a numbered entry. -/
def numbered (n : UInt16) : String := "#" ++ n.toNat.repr

/-- The operands as text; `entry` says how an entry of the literal pool is written. -/
def operands (entry : UInt16 → String) : Instruction → Option String
  | pushNil | pushSelf | pushTrue | pushFalse | pop | ret | blockReturn => none
  | pushChar code => some <|
    match charOfShort? code with
    | some c => "$" ++ c.toString
    | none => code.toNat.repr
  | pushInt value => some (Text.integer value.toInt)
  | pushFloat value => some value.text
  | pushArray n => some n.toNat.repr
  | pushLiteral n | pushGlobal n => some (entry n)
  | pushField n | storeField n | block n => some (numbered n)
  | pushLocal depth slot | storeLocal depth slot =>
    some (depth.toNat.repr ++ ", " ++ slot.toNat.repr)
  | send argc selector | sendSuper argc selector =>
    some (argc.toNat.repr ++ ", " ++ entry selector)
  | debug file position => some (entry file ++ ", " ++ position.text)

/-- One line of a listing: the mnemonic in a column of twelve, then the operands. -/
def describe (entry : UInt16 → String) (i : Instruction) : String :=
  match i.operands entry with
  | none => i.opcode.mnemonic
  | some operands => Text.padRight i.opcode.mnemonic 12 ++ " " ++ operands

/-- The instruction by itself, with literals given by number. -/
def text (i : Instruction) : String := i.describe numbered

end Instruction

end Colloquy
