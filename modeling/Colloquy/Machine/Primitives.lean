import Colloquy.Machine.Image
import Colloquy.Machine.Memory

/-!
# Carrying out primitives

A primitive is given its receiver and its arguments.  It answers a value, asks for a block to be
entered, or fails; when it fails, nothing has changed.
-/

namespace Colloquy

/-- Code to be entered with a new frame. -/
inductive Callee where
  | method (code : Code) (receiver : Value) (args : List Value)
  | block (closure : Closure Value) (args : List Value)
deriving Inhabited

/-- The code that a callee runs. -/
def Callee.code : Callee → Code
  | method code _ _ => code
  | block closure _ => closure.code

/-- What calling a method comes to at once. -/
inductive Reply where
  | answer (value : Value) (m : Memory)
  | enter (callee : Callee) (m : Memory)
  | fault (cause : Cause) (m : Memory)

namespace Primitive

/-- Argument `i`. -/
def argument (args : List Value) (i : Nat) : Checked Value :=
  match args[i]? with
  | some v => .ok v
  | none => .error (.missingArgument i)

/-- The fault of a value of the wrong type. -/
def wrongType {α : Type} (i : Image) (expected : String) (got : Value) : Checked α :=
  .error (.wrongType expected (i.className got))

def expectInt (i : Image) : Value → Checked Int32
  | .int n => .ok n
  | v => wrongType i "Integer" v

def expectFloat (i : Image) : Value → Checked Single
  | .float x => .ok x
  | v => wrongType i "Float" v

def expectBool (i : Image) : Value → Checked Bool
  | .bool b => .ok b
  | v => wrongType i "Boolean" v

def expectChar (i : Image) : Value → Checked Char
  | .char c => .ok c
  | v => wrongType i "Character" v

def expectString (i : Image) : Value → Checked String
  | .string _ s => .ok s
  | v => wrongType i "String" v

def expectArray (i : Image) : Value → Checked Ref
  | .array r => .ok r
  | v => wrongType i "Array" v

def expectBlock (i : Image) : Value → Checked (Closure Value)
  | .block c => .ok c
  | v => wrongType i "BlockDescriptor" v

def expectClass (i : Image) : Value → Checked Class
  | .cls c => .ok c
  | v => wrongType i "a class" v

/-! ## Arithmetic -/

/-- The two operands of an integer operation. -/
def intOperands (i : Image) (receiver : Value) (args : List Value) : Checked (Int32 × Int32) := do
  let a ← expectInt i receiver
  let b ← expectInt i (← argument args 0)
  return (a, b)

/-- The operands of a division, the second of which is not zero. -/
def divOperands (i : Image) (receiver : Value) (args : List Value) : Checked (Int32 × Int32) := do
  let (a, b) ← intOperands i receiver args
  if b = 0 then throw .divisionByZero
  return (a, b)

/-- The two operands of a float operation. -/
def floatOperands (i : Image) (receiver : Value) (args : List Value) :
    Checked (Single × Single) := do
  let a ← expectFloat i receiver
  let b ← expectFloat i (← argument args 0)
  return (a, b)

/-- An integer is equal to the same integer and to nothing else. -/
def sameInt (i : Image) (receiver : Value) (args : List Value) : Checked Value := do
  let a ← expectInt i receiver
  match ← argument args 0 with
  | .int b => return .bool (a = b)
  | _ => return .bool false

/-- A float is equal to floats with the same number and to nothing else. -/
def sameFloat (i : Image) (receiver : Value) (args : List Value) : Checked Value := do
  let a ← expectFloat i receiver
  match ← argument args 0 with
  | .float b => return .bool (b.numEq a)
  | _ => return .bool false

/-! ## Arrays -/

/-- The place in a row of `size` values that a one-based index names. -/
def offset (index : Int32) (size : Nat) : Checked Nat :=
  let n := index.toInt
  if 1 ≤ n ∧ n ≤ size then .ok (n.toNat - 1) else .error (.indexOutOfBounds n size)

/-- A size for a new array. -/
def arraySizeArg (i : Image) (args : List Value) : Checked Nat := do
  let n := (← expectInt i (← argument args 0)).toInt
  if n < 0 then throw (.negativeSize n)
  if n > maxArraySize then throw (.oversized n)
  return n.toNat

def arrayAtValue (i : Image) (s : Store) (receiver : Value) (args : List Value) :
    Checked Value := do
  let row := s.row (← expectArray i receiver)
  let at_ ← offset (← expectInt i (← argument args 0)) row.size
  return row.getD at_ .nil

/-- The row, the place in it and the value of a store into an array. -/
def arrayPut (i : Image) (s : Store) (receiver : Value) (args : List Value) :
    Checked (Ref × Nat × Value) := do
  let row ← expectArray i receiver
  let index ← expectInt i (← argument args 0)
  let value ← argument args 1
  return (row, ← offset index (s.row row).size, value)

/-! ## Characters and blocks -/

/-- The character with a given code. -/
def characterOf (i : Image) (args : List Value) : Checked Value := do
  let n := (← expectInt i (← argument args 0)).toInt
  if 0 ≤ n ∧ n.toNat.isValidChar then return .char (Char.ofNat n.toNat)
  throw (.notACharacter n)

/-- A closure that takes as many arguments as it is given. -/
def matching (c : Closure Value) (args : List Value) : Checked Callee :=
  if args.length = c.code.block.nargs then .ok (.block c args)
  else .error (.blockArgumentCount c.code.block.qualified c.code.block.nargs args.length)

/-- The block to enter for a truth value, of two. -/
def chosenBlock (i : Image) (receiver : Value) (args : List Value) : Checked Callee := do
  let condition ← expectBool i receiver
  let chosen ← argument args (if condition then 0 else 1)
  matching (← expectBlock i chosen) []

/-- The block to enter for `true`; nothing for `false`. -/
def guardedBlock (i : Image) (receiver : Value) (args : List Value) : Checked (Option Callee) := do
  let condition ← expectBool i receiver
  let closure ← expectBlock i (← argument args 0)
  if condition then return some (← matching closure []) else return none

def blockToEnter (i : Image) (receiver : Value) (args : List Value) : Checked Callee := do
  matching (← expectBlock i receiver) args

/-! ## Replies -/

/-- Answers a computed value. -/
def answer (m : Memory) : Checked Value → Reply
  | .ok v => .answer v m
  | .error e => .fault e m

/-- Answers a new string with a computed text. -/
def answerString (m : Memory) : Checked String → Reply
  | .ok s =>
    let (m, v) := m.newString s
    .answer v m
  | .error e => .fault e m

/-- Answers a new array of computed values. -/
def answerArray (m : Memory) : Checked (Array Value) → Reply
  | .ok values =>
    let (m, v) := m.newArray values
    .answer v m
  | .error e => .fault e m

/-- Enters a computed block. -/
def enter (m : Memory) : Checked Callee → Reply
  | .ok callee => .enter callee m
  | .error e => .fault e m

/-- Writes a line to the transcript and answers the receiver. -/
def showLine (m : Memory) (receiver : Value) : Checked String → Reply
  | .error e => .fault e m
  | .ok line =>
    match m.transcript.write? line with
    | some transcript => .answer receiver { m with transcript }
    | none => .fault .transcriptClosed m

/-- Stores a value into an array and answers it. -/
def putAnswer (m : Memory) : Checked (Ref × Nat × Value) → Reply
  | .error e => .fault e m
  | .ok (row, place, value) => .answer value { m with store := m.store.set row place value }

/-- Answers a new instance of a class. -/
def answerInstance (m : Memory) : Checked Class → Reply
  | .error e => .fault e m
  | .ok c =>
    let (store, v) := Image.instantiate m.store c
    .answer v { m with store }

/-- The text of argument `0`. -/
def argumentText (m : Memory) (args : List Value) : Checked String :=
  (argument args 0).map (·.render m.store)

/-- Carries out a primitive. -/
def apply (p : Primitive) (i : Image) (m : Memory) (receiver : Value) (args : List Value) : Reply :=
  let ints (f : Int32 → Int32 → Value) : Reply :=
    answer m ((intOperands i receiver args).map fun (a, b) => f a b)
  let floats (f : Single → Single → Value) : Reply :=
    answer m ((floatOperands i receiver args).map fun (a, b) => f a b)
  match p with
  | objectAsString => answerString m (.ok (receiver.render m.store))
  | objectClassName => answerString m (.ok (i.className receiver))
  | objectSame => answer m ((argument args 0).map fun v => .bool (receiver.identical v))
  | objectHash => .answer (.int receiver.identityHash) m
  | objectBasicNew => answerInstance m (expectClass i receiver)
  | objectError => answer m ((argumentText m args).bind fun text => .error (.raised text))
  | integerAdd => ints fun a b => .int (a + b)
  | integerSub => ints fun a b => .int (a - b)
  | integerMul => ints fun a b => .int (a * b)
  | integerDiv => answer m ((divOperands i receiver args).map fun (a, b) => .int (a / b))
  | integerMod => answer m ((divOperands i receiver args).map fun (a, b) => .int (a % b))
  | integerLt => ints fun a b => .bool (a < b)
  | integerLe => ints fun a b => .bool (a ≤ b)
  | integerGt => ints fun a b => .bool (b < a)
  | integerGe => ints fun a b => .bool (b ≤ a)
  | integerEq => answer m (sameInt i receiver args)
  | integerAsFloat => answer m ((expectInt i receiver).map fun n => .float (Single.ofInt32 n))
  | floatAdd => floats fun a b => .float (a.add b)
  | floatSub => floats fun a b => .float (a.sub b)
  | floatMul => floats fun a b => .float (a.mul b)
  | floatDiv => floats fun a b => .float (a.div b)
  | floatLt => floats fun a b => .bool (a.numLt b)
  | floatLe => floats fun a b => .bool (a.numLe b)
  | floatGt => floats fun a b => .bool (b.numLt a)
  | floatGe => floats fun a b => .bool (b.numLe a)
  | floatEq => answer m (sameFloat i receiver args)
  | floatAsInteger => answer m ((expectFloat i receiver).map fun x => .int x.truncate)
  | stringNew => answerString m (argumentText m args)
  | stringCat => answerString m do
    let head ← expectString i receiver
    return head ++ (← argumentText m args)
  | stringEq => answer m do
    let this ← expectString i receiver
    return .bool (this = (← argumentText m args))
  | stringAsArray =>
    answerArray m ((expectString i receiver).map fun s => (s.toList.map Value.char).toArray)
  | arrayNew => answerArray m ((arraySizeArg i args).map fun n => Array.replicate n .nil)
  | arraySize =>
    answer m ((expectArray i receiver).map fun r => .int (Int32.ofNat (m.store.row r).size))
  | arrayAt => answer m (arrayAtValue i m.store receiver args)
  | arrayAtPut => putAnswer m (arrayPut i m.store receiver args)
  | booleanIfTrueIfFalse => enter m (chosenBlock i receiver args)
  | booleanIfTrue =>
    match guardedBlock i receiver args with
    | .ok (some callee) => .enter callee m
    | .ok none => .answer .nil m
    | .error e => .fault e m
  | booleanNot => answer m ((expectBool i receiver).map fun b => .bool !b)
  | characterAsInteger =>
    answer m ((expectChar i receiver).map fun c => .int (Int32.ofNat c.toNat))
  | characterNew => answer m (characterOf i args)
  | blockValue | blockValue1 | blockValue2 => enter m (blockToEnter i receiver args)
  | transcriptShow => showLine m receiver (argumentText m args)

end Primitive

end Colloquy
