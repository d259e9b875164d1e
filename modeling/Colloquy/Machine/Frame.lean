import Colloquy.Machine.Code

/-!
# Frames and closures

A frame holds the variables of one activation of a method or block.  Frames name each other by
handles: a slot number together with the number of times that the slot had been used before, so a
handle never names a later frame in the same slot.
-/

namespace Colloquy

/-- A handle on a frame. -/
structure FrameId where
  index : Nat
  generation : UInt32
deriving DecidableEq, Inhabited

/-- The handle as messages show it. -/
def FrameId.text (id : FrameId) : String :=
  "ActivationId \x7b index: " ++ id.index.repr ++ ", generation: " ++ id.generation.toNat.repr
    ++ " \x7d"

/-- The source position that a frame has reached, in a file if one is known. -/
structure Place where
  file : Option String := none
  position : Position := {}
deriving DecidableEq, Inhabited

/-- `file:line:column`, with a question mark for an unknown file. -/
def Place.text (p : Place) : String := p.file.getD "?" ++ ":" ++ p.position.text

/-- A block together with the frame that created it. -/
structure Closure (V : Type) where
  /-- Tells closures apart. -/
  serial : Nat
  code : Code
  /-- The frame that created the closure. -/
  enclosing : FrameId
  /-- The method frame that a return inside the block returns from. -/
  home : FrameId
  /-- What `self` is inside the block. -/
  receiver : V
deriving Inhabited

/-- The variables of an activation and its links to other frames. -/
structure Frame (V : Type) where
  code : Code
  /-- Arguments first, then locals. -/
  locals : Array V
  receiver : V
  /-- The frame of the caller. -/
  invoking : Option FrameId
  /-- The frame that created the block; none for a method. -/
  enclosing : Option FrameId
  /-- The frame of the method that the code belongs to. -/
  home : FrameId
  /-- Whether the method has returned. -/
  returned : Bool := false
  place : Place := {}
  /-- The operand stack that was left when the frame was popped, top first. -/
  left : List V := []

namespace Frame

variable {V : Type}

/-- A frame without an enclosing one is that of a method. -/
def isMethod (f : Frame V) : Bool := f.enclosing.isNone

/-- The arguments, followed by as many `nil`s as the code has other slots. -/
def slots (nil : V) (code : Code) (args : List V) : Array V :=
  args.toArray ++ Array.replicate (code.block.frameSize - args.length) nil

/-- The frame of a method, which is its own home. -/
def ofMethod (nil : V) (code : Code) (receiver : V) (args : List V) (invoking : Option FrameId)
    (id : FrameId) : Frame V :=
  { code, locals := slots nil code args, receiver, invoking, enclosing := none, home := id }

/-- The frame of a closure, whose receiver and home are those of the closure. -/
def ofClosure (nil : V) (c : Closure V) (args : List V) (invoking : Option FrameId) : Frame V :=
  { code := c.code
    locals := slots nil c.code args
    receiver := c.receiver
    invoking
    enclosing := some c.enclosing
    home := c.home }

end Frame

end Colloquy
