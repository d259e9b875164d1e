import Colloquy.Machine.Frame

/-!
# Faults

Everything that can stop a run.  A cause says what happened; its kind and its message follow from
it, and a failure adds the call stack at the moment when it happened.
-/

namespace Colloquy

/-- The kinds of fault that a host can tell apart. -/
inductive FaultKind where
  | messageNotUnderstood | classMessageSentToInstance | blockCannotReturn | stackUnderflow
  | undefinedGlobal | mismatchedBlockArg | unknownClass | unknownField | typeError
  | indexOutOfRange | internal | error
deriving DecidableEq, Inhabited

def FaultKind.name : FaultKind → String
  | messageNotUnderstood => "MessageNotUnderstood"
  | classMessageSentToInstance => "ClassMessageSentToInstance"
  | blockCannotReturn => "BlockCannotReturn"
  | stackUnderflow => "StackUnderflow"
  | undefinedGlobal => "UndefinedGlobal"
  | mismatchedBlockArg => "MismatchedBlockArg"
  | unknownClass => "UnknownClass"
  | unknownField => "UnknownField"
  | typeError => "TypeError"
  | indexOutOfRange => "IndexOutOfRange"
  | internal => "InternalVMException"
  | error => "Error"

/-- The largest array that can be made. -/
def maxArraySize : Nat := Nat.pow 2 24

/-- Why a run stops. -/
inductive Cause where
  -- lookup
  | notUnderstood (whom selector : String)
  | instanceMethodOnClass (selector className : String)
  | classMethodOnInstance (selector className : String)
  | noSuperclass (className selector : String)
  | superOutsideClass
  -- calls and returns
  | argumentCount (method : String) (expected given : Nat)
  | blockArgumentCount (block : String) (expected given : Nat)
  | callStackOverflow
  /-- A return out of a method that is over; the method's name if its frame is still there. -/
  | cannotReturn (className block : String) (method : Option String)
  -- operands
  | emptyPop
  | emptyTop
  | shortArray (needed present : Nat)
  | shortSend (selector : String) (argc : Nat)
  | missingArgument (index : Nat)
  -- names and slots
  | undefinedGlobal (name : String)
  | noFields (className : String)
  | noField (className : String) (index count : Nat)
  | noLiteral (index : UInt16)
  | noLocal (slot depth : UInt16)
  | noEnclosing (depth : UInt16)
  | noNestedBlock (method : String) (index : Nat)
  | staleFrame (id : FrameId)
  | noActiveFrame
  -- code
  | badBytecode (e : DecodeError)
  | invalidCharacter (code : UInt16)
  -- primitives
  | wrongType (expected got : String)
  | notACharacter (code : Int)
  | indexOutOfBounds (index : Int) (size : Nat)
  | negativeSize (size : Int)
  | oversized (size : Int)
  | divisionByZero
  | transcriptClosed
  | raised (text : String)
  -- loading
  | unknownClass (name : String)
  | missingSuperclass (superclass className : String)
  | missingSystemClass (name : String)
deriving DecidableEq, Inhabited

namespace Cause

def kind : Cause → FaultKind
  | notUnderstood .. | instanceMethodOnClass .. | noSuperclass .. => .messageNotUnderstood
  | classMethodOnInstance .. => .classMessageSentToInstance
  | cannotReturn .. => .blockCannotReturn
  | emptyPop | emptyTop | shortArray .. | shortSend .. | missingArgument .. => .stackUnderflow
  | undefinedGlobal .. => .undefinedGlobal
  | blockArgumentCount .. => .mismatchedBlockArg
  | unknownClass .. | missingSuperclass .. | missingSystemClass .. => .unknownClass
  | noFields .. | noField .. => .unknownField
  | wrongType .. | notACharacter .. => .typeError
  | indexOutOfBounds .. | negativeSize .. | oversized .. => .indexOutOfRange
  | raised .. => .error
  | superOutsideClass | argumentCount .. | callStackOverflow | noLiteral .. | noLocal ..
  | noEnclosing .. | noNestedBlock .. | staleFrame .. | noActiveFrame | badBytecode ..
  | invalidCharacter .. | divisionByZero | transcriptClosed => .internal

/-- `expects n argument(s), got m`. -/
def countText (what : String) (expected given : Nat) : String :=
  what ++ " expects " ++ expected.repr ++ " argument(s), got " ++ given.repr

def message : Cause → String
  | notUnderstood whom selector => whom ++ " does not understand " ++ selector
  | instanceMethodOnClass selector className =>
    selector ++ " is an instance method sent to class object " ++ className
  | classMethodOnInstance selector className =>
    selector ++ " is a class method sent to instance of " ++ className
  | noSuperclass className selector => className ++ " has no superclass to receive " ++ selector
  | superOutsideClass => "super send outside of a class"
  | argumentCount method expected given => countText method expected given
  | blockArgumentCount block expected given => countText block expected given
  | callStackOverflow => "call stack overflow"
  | cannotReturn className block method =>
    className ++ ">>" ++ block ++ " can't trigger return again from method "
      ++ method.getD "<released>"
  | emptyPop => "pop from an empty operand stack"
  | emptyTop => "operand stack is empty"
  | shortArray needed present =>
    "array of " ++ needed.repr ++ " needs " ++ needed.repr ++ " values, stack has " ++ present.repr
  | shortSend selector argc =>
    selector ++ " needs a receiver and " ++ argc.repr ++ " argument(s)"
  | missingArgument index => "missing primitive argument " ++ index.repr
  | undefinedGlobal name => name ++ " is not defined"
  | noFields className => className ++ " has no fields"
  | noField className index count =>
    className ++ " has no field " ++ index.repr ++ " (of " ++ count.repr ++ ")"
  | noLiteral index => "no literal #" ++ index.toNat.repr
  | noLocal slot depth =>
    "no local slot " ++ slot.toNat.repr ++ " at depth " ++ depth.toNat.repr
  | noEnclosing depth => "no enclosing context at depth " ++ depth.toNat.repr
  | noNestedBlock method index => method ++ " has no nested block " ++ index.repr
  | staleFrame id => "stale activation " ++ id.text
  | noActiveFrame => "no active frame"
  | badBytecode e => "bad bytecode: " ++ e.message
  | invalidCharacter code => "invalid character code " ++ code.toNat.repr
  | wrongType expected got => "expected " ++ expected ++ ", got " ++ got
  | notACharacter code => Text.integer code ++ " is not a character code"
  | indexOutOfBounds index size =>
    "index " ++ Text.integer index ++ " out of bounds for size " ++ size.repr
  | negativeSize size => "negative array size " ++ Text.integer size
  | oversized size => "array size " ++ Text.integer size ++ " exceeds " ++ maxArraySize.repr
  | divisionByZero => "division by zero"
  | transcriptClosed => "transcript write failed: closed"
  | raised text => text
  | unknownClass name => "unknown class " ++ name
  | missingSuperclass superclass className =>
    "superclass " ++ superclass ++ " of " ++ className ++ " is not defined"
  | missingSystemClass name => "missing system class " ++ name

end Cause

/-- A computation with a value or a fault. -/
abbrev Checked := Except Cause

/-- A fault with the call stack at the moment when it happened. -/
structure Failure where
  cause : Cause
  trace : String := ""
deriving DecidableEq, Inhabited

/-- Kind and message on one line, then the call stack. -/
def Failure.text (f : Failure) : String :=
  f.cause.kind.name ++ ": " ++ f.cause.message ++ "\n" ++ f.trace

end Colloquy
