import Colloquy.Machine.Call
import Colloquy.Machine.Dispatch

/-!
# Effects of instructions

`Call.execute` says what an instruction comes to: the operands that it leaves and the memory after
it, and whether the call goes on, waits for another one, or ends.
-/

namespace Colloquy

/-- What an instruction comes to. -/
inductive Effect where
  /-- The call goes on. -/
  | next (stack : List Value) (m : Memory)
  /-- The call waits for another one. -/
  | enter (stack : List Value) (callee : Callee) (m : Memory)
  /-- The call ends with a value for its caller. -/
  | finish (stack : List Value) (value : Value) (m : Memory)
  /-- The method that the call belongs to ends with a value for its caller. -/
  | escape (stack : List Value) (value : Value) (m : Memory)
  | fault (stack : List Value) (cause : Cause) (m : Memory)

namespace Effect

/-- Pushes a computed value. -/
def push (stack : List Value) (m : Memory) : Checked Value → Effect
  | .ok v => next (v :: stack) m
  | .error e => fault stack e m

end Effect

namespace Memory

/-- The frame that a handle names. -/
def frame (m : Memory) (id : FrameId) : Checked (Frame Value) :=
  match m.frames.get? id with
  | some f => .ok f
  | none => .error (.staleFrame id)

/-- The frame `hops` steps out along the enclosing frames; `depth` is for the message. -/
def outward (m : Memory) (depth : UInt16) : (hops : Nat) → FrameId → Checked FrameId
  | 0, id => .ok id
  | hops + 1, id => do
    match (← m.frame id).enclosing with
    | some outer => m.outward depth hops outer
    | none => throw (.noEnclosing depth)

/-- The frame that holds the variables `depth` scopes out. -/
def context (m : Memory) (id : FrameId) (depth : UInt16) : Checked FrameId :=
  m.outward depth depth.toNat id

/-- The value of a variable. -/
def loadLocal (m : Memory) (id : FrameId) (depth slot : UInt16) : Checked Value := do
  match (← m.frame (← m.context id depth)).locals[slot.toNat]? with
  | some v => return v
  | none => throw (.noLocal slot depth)

/-- The frame that holds a variable, which is there. -/
def localFrame (m : Memory) (id : FrameId) (depth slot : UInt16) : Checked FrameId := do
  let holder ← m.context id depth
  if slot.toNat < (← m.frame holder).locals.size then return holder
  throw (.noLocal slot depth)

/-- Changes the variable in one slot of a frame. -/
def setLocal (m : Memory) (id : FrameId) (slot : Nat) (v : Value) : Memory :=
  let set (f : Frame Value) : Frame Value := { f with locals := f.locals.setIfInBounds slot v }
  { m with frames := m.frames.modify id set }

/-- The row of the fields of the object that a frame's code runs for, in which field `index`
exists. -/
def fieldRow (m : Memory) (i : Image) (id : FrameId) (index : Nat) : Checked Ref := do
  match (← m.frame id).receiver with
  | .object cls row =>
    let count := (m.store.row row).size
    if index < count then return row
    throw (.noField cls.name index count)
  | v => throw (.noFields (i.className v))

/-- The value of a field. -/
def loadField (m : Memory) (i : Image) (id : FrameId) (index : Nat) : Checked Value := do
  return (m.store.row (← m.fieldRow i id index)).getD index .nil

/-- Changes where in the source a frame is. -/
def setPlace (m : Memory) (id : FrameId) (place : Place) : Memory :=
  { m with frames := m.frames.modify id ({ · with place }) }

/-- What a closure over nested block `index`, made by a frame, consists of, its identity apart. -/
def closure (m : Memory) (id : FrameId) (index : Nat) : Checked (Closure Value) := do
  let frame ← m.frame id
  let method := (← m.frame frame.home).code
  match method.nested? index with
  | some code =>
    return { serial := m.serial, code, enclosing := id, home := frame.home,
             receiver := frame.receiver }
  | none => throw (.noNestedBlock method.block.qualified index)

end Memory

namespace Call

/-- The literal with a given number. -/
def literal (c : Call) (index : UInt16) : Checked String :=
  match c.code.block.literal? index with
  | some s => .ok s
  | none => .error (.noLiteral index)

/-- The character with a given code. -/
def character (code : UInt16) : Checked Value :=
  if code.toNat.isValidChar then .ok (.char (Char.ofNat code.toNat))
  else .error (.invalidCharacter code)

/-- The value that a global name stands for. -/
def global (c : Call) (i : Image) (index : UInt16) : Checked Value := do
  let name ← c.literal index
  match i.lookup name with
  | some v => return v
  | none => throw (.undefinedGlobal name)

/-- Makes an array of the topmost `count` operands. -/
def buildArray (c : Call) (m : Memory) (count : Nat) : Effect :=
  if c.stack.length < count then .fault c.stack (.shortArray count c.stack.length) m
  else
    let (m, v) := m.newArray (c.stack.take count).reverse.toArray
    .next (v :: c.stack.drop count) m

/-- Stores the topmost operand, which stays, into a variable. -/
def storeLocal (c : Call) (m : Memory) (depth slot : UInt16) : Effect :=
  match c.stack with
  | [] => .fault c.stack .emptyTop m
  | v :: _ =>
    match m.localFrame c.frame depth slot with
    | .ok holder => .next c.stack (m.setLocal holder slot.toNat v)
    | .error e => .fault c.stack e m

/-- Stores the topmost operand, which stays, into a field. -/
def storeField (c : Call) (i : Image) (m : Memory) (index : Nat) : Effect :=
  match c.stack with
  | [] => .fault c.stack .emptyTop m
  | v :: _ =>
    match m.fieldRow i c.frame index with
    | .ok row => .next c.stack { m with store := m.store.set row index v }
    | .error e => .fault c.stack e m

/-- Pushes a new closure, which pins the frame that made it. -/
def makeClosure (c : Call) (m : Memory) (index : Nat) : Effect :=
  match m.closure c.frame index with
  | .ok closure =>
    .next (.block closure :: c.stack)
      { m with frames := m.frames.pin c.frame, serial := m.serial + 1 }
  | .error e => .fault c.stack e m

/-- Sends `selector` to the operand below the topmost `argc`, which are the arguments.  `find` looks
up the method. -/
def send (c : Call) (i : Image) (m : Memory) (argc : Nat) (selector : String)
    (find : Value → Checked Code) : Effect :=
  match c.stack.drop argc with
  | [] => .fault c.stack (.shortSend selector argc) m
  | receiver :: below =>
    match find receiver with
    | .error e => .fault c.stack e m
    | .ok code =>
      let m := m.trace fun m =>
        "send " ++ selector ++ " to " ++ receiver.inspect m.store ++ " -> " ++ code.block.qualified
      match invoke i m receiver code (c.stack.take argc).reverse with
      | .answer v m => .next (v :: below) m
      | .enter callee m => .enter below callee m
      | .fault e m => .fault below e m

/-- What an instruction comes to. -/
def execute (c : Call) (i : Image) (m : Memory) : Instruction → Effect
  | .pushNil => .next (.nil :: c.stack) m
  | .pushSelf => .push c.stack m ((m.frame c.frame).map (·.receiver))
  | .pushTrue => .next (.bool true :: c.stack) m
  | .pushFalse => .next (.bool false :: c.stack) m
  | .pushChar code => .push c.stack m (character code)
  | .pushInt n => .next (.int n :: c.stack) m
  | .pushFloat x => .next (.float x :: c.stack) m
  | .pushArray count => c.buildArray m count.toNat
  | .pushLiteral index =>
    .push c.stack m ((c.literal index).map (.string (.literal c.code.id index.toNat)))
  | .pushGlobal index => .push c.stack m (c.global i index)
  | .pushField index => .push c.stack m (m.loadField i c.frame index.toNat)
  | .pushLocal depth slot => .push c.stack m (m.loadLocal c.frame depth slot)
  | .pop =>
    match c.stack with
    | [] => .fault c.stack .emptyPop m
    | _ :: below => .next below m
  | .storeField index => c.storeField i m index.toNat
  | .storeLocal depth slot => c.storeLocal m depth slot
  | .ret =>
    match c.stack with
    | [] => .fault c.stack .emptyPop m
    | v :: below => .escape below v m
  | .send argc index =>
    match c.literal index with
    | .ok selector => c.send i m argc.toNat selector (i.method · selector)
    | .error e => .fault c.stack e m
  | .sendSuper argc index =>
    match c.literal index with
    | .ok selector => c.send i m argc.toNat selector (i.superMethod c.code · selector)
    | .error e => .fault c.stack e m
  | .block index => c.makeClosure m index.toNat
  | .blockReturn =>
    match c.stack with
    | [] => .fault c.stack .emptyPop m
    | v :: below => .finish below v m
  | .debug file position =>
    .next c.stack (m.setPlace c.frame { file := c.code.block.literal? file, position })

end Call

end Colloquy
