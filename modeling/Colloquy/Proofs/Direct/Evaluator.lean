import Colloquy.Machine.Host

/-!
# Evaluating trees directly

What a resolved program means, without instructions, offsets and operand stacks.  An expression is
evaluated where it stands in the tree: a send evaluates its receiver, then its arguments from left
to right, and then looks its method up; a variable lives in the activation of the scope that
declares it; a return ends every activation up to that of the method that it stands in, if that
method is still active.

Activations are numbered in the order in which they begin, and are never given up.  A closure names
its activations by these numbers, as handles of generation zero (`Direct.handle`).  Of loaded code,
evaluation uses names, counts and the numbers of literals, never the instructions.
-/

namespace Colloquy

/-! ## Where code comes from -/

/-- What a body answers when its statements are over. -/
inductive Ending where
  /-- A method answers its receiver. -/
  | method
  /-- A block answers the value of its last statement, or `nil`. -/
  | block
  /-- A main body answers the value of its last statement, or its receiver. -/
  | main
deriving DecidableEq, Inhabited

/-- Statements with the scope of their variables. -/
structure Source where
  scope : ScopeId
  stats : List Stat
  ending : Ending
deriving Inhabited

mutual

/-- The block literals of an expression, each before those inside it. -/
def Expr.blocks : Expr → List (BlockHead × List Stat)
  | .literal _ => []
  | .self => []
  | .ident _ => []
  | .array items => Expr.blocksAll items
  | .block head body => (head, body) :: Stat.blocksAll body
  | .send receiver _ args _ => receiver.blocks ++ Expr.blocksAll args
  | .superSend _ args _ => Expr.blocksAll args

def Expr.blocksAll : List Expr → List (BlockHead × List Stat)
  | [] => []
  | e :: rest => e.blocks ++ Expr.blocksAll rest

def Stat.blocks : Stat → List (BlockHead × List Stat)
  | .expr value => value.blocks
  | .assign _ value _ => value.blocks
  | .ret value _ => value.blocks

def Stat.blocksAll : List Stat → List (BlockHead × List Stat)
  | [] => []
  | s :: rest => s.blocks ++ Stat.blocksAll rest

end

/-- The body of a method, unless the machine carries it out itself. -/
def Method.source (m : Method) : Option Source :=
  match m.kind with
  | .primitive _ => none
  | .code body => m.scope.map fun scope => ⟨scope, body.stats, .method⟩

def MainBody.source (m : MainBody) : Option Source :=
  m.scope.map fun scope => ⟨scope, m.body.stats, .main⟩

/-- The body of a block literal. -/
def blockSource (b : BlockHead × List Stat) : Option Source :=
  b.1.scope.map fun scope => ⟨scope, b.2, .block⟩

namespace Program

/-- The bodies of all methods in order, that of the main body last. -/
def sources (p : Program) : List (Option Source) :=
  p.classes.flatMap (·.methods.map Method.source) ++ p.main.toList.map MainBody.source

/-- The body of a method by its number. -/
def methodSource? (p : Program) (number : Nat) : Option Source := p.sources[number]?.join

/-- The body that code was compiled from: that of a method, or that of the block literal of the
method with the given number. -/
def source? (p : Program) (id : BlockId) : Option Source :=
  match id.path with
  | [] => p.methodSource? id.method
  | i :: _ =>
    (p.methodSource? id.method).bind fun m => (Stat.blocksAll m.stats)[i]?.bind blockSource

end Program

namespace Direct

/-! ## Worlds -/

/-- What evaluation is about. -/
structure Setting where
  program : Program
  tree : ScopeTree
  image : Image

/-- The number of variables of a scope. -/
def Setting.varCount (x : Setting) (scope : ScopeId) : Nat :=
  ((x.tree.get? scope).map (·.vars.length)).getD 0

/-- One run of a method, block or main body. -/
structure Activation where
  code : Code
  /-- The activations whose variables can be seen, by their scopes, innermost first. -/
  env : List (ScopeId × Nat)
  /-- The variables of its own scope. -/
  vars : Array Value
  receiver : Value
  /-- The activation of the method that the code stands in. -/
  home : Nat
deriving Inhabited

/-- What evaluation changes.  The frames and the log of the memory are not used. -/
structure World where
  memory : Memory
  activations : Array Activation := #[]

instance : Inhabited World := ⟨{ memory := {} }⟩

/-- How closures name an activation. -/
def handle (n : Nat) : FrameId := ⟨n, 0⟩

namespace World

def activation (w : World) (n : Nat) : Activation := w.activations.getD n default

/-- The activation that holds the variables of a scope, as activation `me` sees it. -/
def holder (w : World) (me : Nat) (scope : ScopeId) : Nat :=
  ((w.activation me).env.lookup scope).getD me

/-- Changes a variable of an activation. -/
def setVar (w : World) (n : Nat) (slot : Nat) (v : Value) : World :=
  let set (a : Activation) : Activation := { a with vars := a.vars.setIfInBounds slot v }
  { w with activations := w.activations.modify n set }

/-- Changes a field. -/
def setField (w : World) (row : Ref) (field : Nat) (v : Value) : World :=
  { w with memory := { w.memory with store := w.memory.store.set row field v } }

/-- A new array. -/
def newArray (w : World) (values : List Value) : World × Value :=
  let (memory, v) := w.memory.newArray values.toArray
  ({ w with memory }, v)

/-- A new closure of activation `me` over block `index` of its method. -/
def newClosure (w : World) (me : Nat) (index : Nat) : World × Value :=
  let a := w.activation me
  match (w.activation a.home).code.nested? index with
  | some code =>
    ({ w with memory := { w.memory with serial := w.memory.serial + 1 } },
      .block
        { serial := w.memory.serial, code, enclosing := handle me, home := handle a.home,
          receiver := a.receiver })
  | none => (w, .nil)

/-- The activation of a callee whose body is `source`, as number `me`. -/
def activationOf (x : Setting) (w : World) (source : Source) (me : Nat) : Callee → Activation
  | .method code receiver args =>
    { code, receiver, env := [(source.scope, me)], home := me
      vars := args.toArray ++ Array.replicate (x.varCount source.scope - args.length) .nil }
  | .block c args =>
    { code := c.code, receiver := c.receiver, home := c.home.index
      env := (source.scope, me) :: (w.activation c.enclosing.index).env
      vars := args.toArray ++ Array.replicate (x.varCount source.scope - args.length) .nil }

/-- The world with one more activation. -/
def begin (x : Setting) (w : World) (source : Source) (callee : Callee) : World :=
  { w with activations := w.activations.push (w.activationOf x source w.activations.size callee) }

/-- What a body answers, given the value of its last statement. -/
def answer (w : World) (me : Nat) (ending : Ending) (last : Option Value) : Value :=
  match ending with
  | .method => (w.activation me).receiver
  | .block => last.getD .nil
  | .main => last.getD (w.activation me).receiver

/-- The fault of a return from a method that is over. -/
def cannotReturn (x : Setting) (w : World) (me : Nat) : Cause :=
  let a := w.activation me
  .cannotReturn (((x.image.owner? a.code).map (·.name)).getD "") a.code.block.name
    (some (w.activation a.home).code.block.qualified)

end World

/-! ## Evaluation -/

/-- Why evaluation goes no further. -/
inductive Stop where
  /-- Everything up to activation `home` is to end, which has the given value. -/
  | escape (home : Nat) (value : Value)
  | fault (cause : Cause)

/-- Evaluation changes the world, and may stop. -/
abbrev Eval := EStateM Stop World

def fault {α : Type} (cause : Cause) : Eval α := throw (.fault cause)

/-- Which activation evaluates, and which ones are active, itself included. -/
structure Place where
  me : Nat
  active : List Nat

/-- The value of a constant.  A string of one body is one object however often it is evaluated. -/
def constant (code : Code) : Literal → Value
  | .nil => .nil
  | .bool b => .bool b
  | .int n => .int n
  | .float f => .float f
  | .char c => .char c
  | .string s => .string (.literal code.id (code.block.literals.toList.idxOf s)) s

/-- The value of a global name. -/
def global (x : Setting) (name : String) : Eval Value :=
  match x.image.lookup name with
  | some v => pure v
  | none => fault (.undefinedGlobal name)

/-- The row of the fields of the receiver. -/
def fieldRow (x : Setting) (here : Place) : Eval Ref := do
  match ((← get).activation here.me).receiver with
  | .object _ row => pure row
  | v => fault (.noFields (x.image.className v))

/-- The value of a name. -/
def load (x : Setting) (here : Place) (name : Ident) : Eval Value :=
  match name.symbol with
  | some (.field i) => do
    let row ← fieldRow x here
    return ((← get).memory.store.row row).getD i.toNat .nil
  | some (.slot scope i) => do
    let w ← get
    return (w.activation (w.holder here.me scope)).vars.getD i.toNat .nil
  | some .global => global x name.name
  | none => global x name.name

/-- Gives a name another value.  Only fields and variables can be changed. -/
def store (x : Setting) (here : Place) (name : Ident) (v : Value) : Eval Unit :=
  match name.symbol with
  | some (.field i) => do
    let row ← fieldRow x here
    modify (·.setField row i.toNat v)
  | some (.slot scope i) => modify fun w => w.setVar (w.holder here.me scope) i.toNat v
  | some .global => pure ()
  | none => pure ()

/-- Goes on as a method call says, where `call` runs code. -/
def conclude (call : Callee → Eval Value) : Reply → Eval Value
  | .answer v m => do
    modify ({ · with memory := m })
    return v
  | .enter callee m => do
    modify ({ · with memory := m })
    call callee
  | .fault cause m => do
    modify ({ · with memory := m })
    fault cause

/-- Calls the method that was found. -/
def dispatch (x : Setting) (call : Callee → Eval Value) (found : Checked Code) (receiver : Value)
    (args : List Value) : Eval Value :=
  match found with
  | .error cause => fault cause
  | .ok code => do conclude call (invoke x.image (← get).memory receiver code args)

/-- Returns from the method that the running code stands in, if it is active. -/
def giveBack (x : Setting) (here : Place) (v : Value) : Eval Value := do
  let w ← get
  let home := (w.activation here.me).home
  if home ∈ here.active then throw (.escape home v) else fault (w.cannotReturn x here.me)

mutual

/-- The value of an expression; `call` runs code. -/
def expr (x : Setting) (call : Callee → Eval Value) (here : Place) : Expr → Eval Value
  | .literal value => do return constant ((← get).activation here.me).code value
  | .self => do return ((← get).activation here.me).receiver
  | .ident name => load x here name
  | .array items => do
    let values ← exprs x call here items
    modifyGet fun w => ((w.newArray values).2, (w.newArray values).1)
  | .block head _ =>
    modifyGet fun w =>
      ((w.newClosure here.me head.index.toNat).2, (w.newClosure here.me head.index.toNat).1)
  | .send receiver selector args _ => do
    let receiver ← expr x call here receiver
    let args ← exprs x call here args
    dispatch x call (x.image.method receiver selector) receiver args
  | .superSend selector args _ => do
    let sender := (← get).activation here.me
    let args ← exprs x call here args
    dispatch x call (x.image.superMethod sender.code sender.receiver selector) sender.receiver args

/-- The values of expressions, from left to right. -/
def exprs (x : Setting) (call : Callee → Eval Value) (here : Place) :
    List Expr → Eval (List Value)
  | [] => pure []
  | e :: rest => do
    let v ← expr x call here e
    return v :: (← exprs x call here rest)

/-- The value of a statement; that of an assignment is the value assigned. -/
def stat (x : Setting) (call : Callee → Eval Value) (here : Place) : Stat → Eval Value
  | .expr value => expr x call here value
  | .assign target value _ => do
    let v ← expr x call here value
    store x here target v
    return v
  | .ret value _ => do
    let v ← expr x call here value
    giveBack x here v

/-- Statements in order: the value of the last one, or `last` if there is none. -/
def stats (x : Setting) (call : Callee → Eval Value) (here : Place) :
    List Stat → (last : Option Value) → Eval (Option Value)
  | [], last => pure last
  | s :: rest, _ => do
    let v ← stat x call here s
    stats x call here rest (some v)

end

/-- Ends a return to activation `me`. -/
def catching (me : Nat) (body : Eval Value) : Eval Value := fun w =>
  match body w with
  | .ok v w' => .ok v w'
  | .error (.escape home v) w' => if home = me then .ok v w' else .error (.escape home v) w'
  | .error (.fault cause) w' => .error (.fault cause) w'

/-- Runs code in a new activation, on top of the active ones, if there is room for `room` more. -/
def enter (x : Setting) : (room : Nat) → (active : List Nat) → Callee → Eval Value
  | 0, _, _ => fault .callStackOverflow
  | room + 1, active, callee =>
    match x.program.source? callee.code.id with
    | none => pure .nil
    | some source => do
      let me := (← get).activations.size
      modify (·.begin x source callee)
      catching me do
        let last ← stats x (enter x room (me :: active)) ⟨me, me :: active⟩ source.stats none
        return (← get).answer me source.ending last

/-! ## Calls from the host -/

/-- What a host is told: a value, or the cause of a failure. -/
abbrev Answer := Except Cause Value

/-- The end of a host call. -/
def settle : EStateM.Result Stop World Value → Answer × World
  | .ok v w => (.ok v, w)
  | .error (.escape _ v) w => (.ok v, w)
  | .error (.fault cause) w => (.error cause, w)

/-- Runs a method to its end, with at most `limit` activations at a time. -/
def perform (x : Setting) (limit : Nat) (w : World) (receiver : Value) (code : Code)
    (args : List Value) : Answer × World :=
  settle (conclude (enter x limit []) (invoke x.image w.memory receiver code args) w)

/-- Sends a message. -/
def send (x : Setting) (limit : Nat) (w : World) (receiver : Value) (selector : String)
    (args : List Value) : Answer × World :=
  match x.image.method receiver selector with
  | .ok code => perform x limit w receiver code args
  | .error cause => (.error cause, w)

/-- A new instance of a class. -/
def instantiate (w : World) (cls : Class) : World × Value :=
  let (store, v) := Image.instantiate w.memory.store cls
  ({ w with memory := { w.memory with store } }, v)

/-- Makes an instance of the class with a given name. -/
def newInstance (x : Setting) (w : World) (className : String) : Answer × World :=
  match x.image.byName[className]? with
  | some cls => (.ok (instantiate w cls).2, (instantiate w cls).1)
  | none => (.error (.unknownClass className), w)

/-- Runs the main method on a new instance of its class; `nil` if the program has none. -/
def runMain (x : Setting) (limit : Nat) (w : World) : Answer × World :=
  match x.image.byName[mainClass]? with
  | none => (.ok .nil, w)
  | some cls =>
    match cls.lookup mainSelector with
    | none => (.error (.notUnderstood mainClass mainSelector), w)
    | some code => perform x limit (instantiate w cls).1 (instantiate w cls).2 code []

end Direct

end Colloquy
