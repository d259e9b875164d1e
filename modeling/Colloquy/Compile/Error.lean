import Colloquy.Position

/-!
# Reasons to reject a program
-/

namespace Colloquy

/-- Why a program cannot be compiled. -/
inductive CompileError where
  | redefinition (name scope : String)
  | unknownSuperclass (className superclass : String)
  | unknownPrimitive (tag method : String)
  | invalidAssignment (name : String) (position : Position)
  /-- A node that should have been given a scope has none. -/
  | unresolved (what : String)
  | malformed (reason : String)
  | tooManyLiterals (literal : String)
  /-- A number that has to fit in a short operand does not. -/
  | operandOverflow (what : String) (value : Nat)
deriving DecidableEq, Inhabited

/-- The text of an error. -/
def CompileError.message : CompileError → String
  | redefinition name scope => "redefinition of " ++ name ++ " in " ++ scope
  | unknownSuperclass className superclass =>
    "class " ++ className ++ " extends undefined class " ++ superclass
  | unknownPrimitive tag method => "unknown primitive " ++ tag ++ " for " ++ method
  | invalidAssignment name position =>
    "cannot assign to " ++ name ++ " at " ++ position.text ++ ": not a field or local"
  | unresolved what => what ++ " has no resolved scope"
  | malformed reason => "malformed program: " ++ reason
  | tooManyLiterals literal => "too many literals in " ++ literal
  | operandOverflow what value =>
    what ++ " does not fit in a short operand (" ++ value.repr ++ ")"

/-- The value as a short operand, or an error that names what did not fit. -/
def short (what : String) (value : Nat) : Except CompileError UInt16 :=
  if value < 65536 then .ok value.toUInt16 else .error (.operandOverflow what value)

end Colloquy
