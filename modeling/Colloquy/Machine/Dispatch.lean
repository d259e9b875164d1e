import Colloquy.Machine.Primitives

/-!
# Sending messages

A send finds the nearest definition of its selector, starting at the class of the receiver or, for
a `super` send, above the class that the sending code belongs to.  A definition for classes does not
answer instances, nor the other way round, and the search does not go on behind it.
-/

namespace Colloquy

namespace Image

/-- The method that answers a selector, looked up from class `start` on.  `whom` names the receiver
in the message about a missing method. -/
def methodFrom (i : Image) (start : Class) (whom : String) (receiver : Value)
    (selector : String) : Checked Code :=
  match start.lookup selector with
  | none => .error (.notUnderstood whom selector)
  | some code =>
    if code.block.classSide && !receiver.isClass then
      .error (.classMethodOnInstance selector (i.className receiver))
    else if !code.block.classSide && receiver.isClass then
      .error (.instanceMethodOnClass selector (i.className receiver))
    else .ok code

/-- The method that answers an ordinary send. -/
def method (i : Image) (receiver : Value) (selector : String) : Checked Code :=
  i.methodFrom (i.classOf receiver) (i.className receiver) receiver selector

/-- The class that code belongs to. -/
def owner? (i : Image) (code : Code) : Option Class := code.owner.bind (i.classes[·]?)

/-- The method that answers a `super` send in given code. -/
def superMethod (i : Image) (sender : Code) (receiver : Value) (selector : String) :
    Checked Code :=
  match i.owner? sender with
  | none => .error .superOutsideClass
  | some owner =>
    match owner.superclass? with
    | none => .error (.noSuperclass owner.name selector)
    | some above =>
      i.methodFrom above ("super of " ++ i.className receiver) receiver selector

end Image

/-- The number of arguments that code takes. -/
def Code.arity (code : Code) : Nat :=
  match code.block.primitive with
  | some p => p.arity
  | none => code.block.nargs

/-- Calls a method: a primitive is carried out, and other code is to be entered. -/
def invoke (i : Image) (m : Memory) (receiver : Value) (code : Code) (args : List Value) : Reply :=
  if args.length ≠ code.arity then
    .fault (.argumentCount code.block.qualified code.arity args.length) m
  else
    match code.block.primitive with
    | some p => p.apply i m receiver args
    | none => .enter (.method code receiver args) m

end Colloquy
