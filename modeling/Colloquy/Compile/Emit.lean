import Colloquy.Block
import Colloquy.Compile.LiteralPool
import Colloquy.Scope.Resolve

/-!
# Code generation

Turns a resolved tree into compiled blocks.  Every body becomes a straight line of instructions:

* statements stand one after another with a `pop` between them, so the value of the last one stays;
* a main body returns that value, a block answers it to its caller, and a method drops it and
  returns its receiver;
* a send evaluates its receiver, then its arguments from left to right.

With debug information, the file name is literal `0` of every block, and `debug` instructions mark
assignments, returns, sends and ends of bodies.
-/

namespace Colloquy

/-- What the compiler is told beside the program. -/
structure CompilerOptions where
  /-- Whether source positions are recorded. -/
  debugInfo : Bool := true
  fileName : String := "<string>"
deriving Inhabited

/-- The state of code generation: the block being compiled, the table of the method that it
belongs to, and what has been reported. -/
structure Generator where
  code : Array Instruction := #[]
  pool : LiteralPool := {}
  table : Array (Option Block) := #[]
  warnings : Array String := #[]
  log : Log := #[]

instance : Inhabited Generator := ⟨{}⟩

/-- A step of code generation; an error keeps what was logged before it. -/
abbrev Emit := EStateM CompileError Generator

/-- What stays the same while one body is compiled. -/
structure EmitContext where
  tree : ScopeTree
  options : CompilerOptions
  scope : ScopeId

namespace Emit

/-! ## Small steps -/

def check {α : Type} : Except CompileError α → Emit α
  | .ok a => pure a
  | .error e => throw e

/-- Appends an instruction to the block being compiled. -/
def instruction (i : Instruction) : Emit Unit := modify fun g => { g with code := g.code.push i }

/-- The number of a literal of the block being compiled. -/
def literal (s : String) : Emit UInt16 := fun ⟨code, pool, table, warnings, log⟩ =>
  match pool.insert s with
  | (.ok i, pool) => .ok i ⟨code, pool, table, warnings, log⟩
  | (.error e, pool) => .error e ⟨code, pool, table, warnings, log⟩

def report (level : Level) (message : String) : Emit Unit :=
  modify fun g => { g with log := g.log.push ⟨level, message⟩ }

/-- Reports a defect that does not stop the compiler. -/
def warn (message : String) : Emit Unit := do
  report .warn message
  modify fun g => { g with warnings := g.warnings.push message }

/-- How an error names a scope. -/
def scopeLabel (id : ScopeId) : String := "scope ScopeId(" ++ id.repr ++ ")"

/-- The scope that resolution gave to a node called `what`. -/
def scopeOf (scope : Option ScopeId) (what : String) : Emit ScopeId :=
  match scope with
  | some id => pure id
  | none => throw (.unresolved what)

def qualifiedName (tree : ScopeTree) (id : ScopeId) : Emit String :=
  match tree.qualifiedName id with
  | some name => pure name
  | none => throw (.unresolved (scopeLabel id))

/-- The literal that holds the file name. -/
def fileLiteral : UInt16 := 0

/-- Records a position, if positions are wanted. -/
def mark (c : EmitContext) (position : Position) : Emit Unit :=
  if c.options.debugInfo then instruction (.debug fileLiteral position) else pure ()

/-- Compiles a body into a block of its own: `build` runs on a fresh block, whose code and literals
are answered, and the block around it goes on where it was. -/
def inBlock (c : EmitContext) (build : Emit Unit) :
    Emit (Array Instruction × LiteralPool) := do
  let (code, pool) ← modifyGet fun g => ((g.code, g.pool), { g with code := #[], pool := {} })
  if c.options.debugInfo then discard (literal c.options.fileName)
  build
  modifyGet fun g => ((g.code, g.pool), { g with code, pool })

/-- The finished block of a scope. -/
def finish (tree : ScopeTree) (id : ScopeId) (code : Array Instruction) (pool : LiteralPool) :
    Emit Block :=
  match tree.get? id with
  | none => throw (.unresolved (scopeLabel id))
  | some s =>
    pure
      { name := s.name
        qualified := tree.qualify s.parent s.name
        nargs := s.nargs
        nlocals := s.vars.length - s.nargs
        bytecode := Instruction.encodeAll code
        literals := pool.entries }

/-- The table, long enough to have an entry `index`. -/
def growTo (table : Array (Option Block)) (index : Nat) : Array (Option Block) :=
  if index < table.size then table else table ++ Array.replicate (index + 1 - table.size) none

/-- Enters a finished block into the table of its method. -/
def enter (index : UInt16) (b : Block) : Emit Unit := fun ⟨code, pool, table, warnings, log⟩ =>
  let table := growTo table index.toNat
  match table.getD index.toNat none with
  | some _ =>
    let reason :=
      "nested block index " ++ index.toNat.repr ++ " is used twice (" ++ b.qualified ++ ")"
    .error (.malformed reason) ⟨code, pool, table, warnings, log⟩
  | none => .ok () ⟨code, pool, table.setIfInBounds index.toNat (some b), warnings, log⟩

/-- The entries of a table, all of which have to be there. -/
def tableBlocks (qualified : String) : List (Option Block) → (i : Nat) → (done : List Block) →
    Except CompileError (List Block)
  | [], _, done => .ok done.reverse
  | some b :: rest, i, done => tableBlocks qualified rest (i + 1) (b :: done)
  | none :: _, i, _ =>
    .error (.malformed ("nested block " ++ i.repr ++ " of " ++ qualified ++ " was never compiled"))

/-- The blocks nested in the method of scope `id`; the table is empty afterwards. -/
def takeBlocks (tree : ScopeTree) (id : ScopeId) : Emit (List Block) := do
  let qualified ← qualifiedName tree id
  let table ← modifyGet fun g => (g.table, { g with table := #[] })
  check (tableBlocks qualified table.toList 0 [])

/-- Hops from the scope being compiled to the one that declares a variable. -/
def depthTo (c : EmitContext) (owner : ScopeId) (x : Ident) : Emit UInt16 :=
  match c.tree.relativeDepth c.scope owner with
  | some depth => pure depth.toUInt16
  | none =>
    throw (.malformed
      (x.name ++ " at " ++ x.position.text ++ " is not visible from "
        ++ (c.tree.qualifiedName c.scope).getD ""))

/-- Pushes the value of a name. -/
def load (c : EmitContext) (x : Ident) : Emit Unit :=
  match x.symbol with
  | some (.field i) => instruction (.pushField i)
  | some (.slot owner i) => do instruction (.pushLocal (← depthTo c owner x) i)
  | some .global | none => do instruction (.pushGlobal (← literal x.name))

/-- Stores the top value under a name and leaves it on the stack. -/
def store (c : EmitContext) (x : Ident) : Emit Unit :=
  match x.symbol with
  | some (.field i) => instruction (.storeField i)
  | some (.slot owner i) => do instruction (.storeLocal (← depthTo c owner x) i)
  | some .global | none => throw (.invalidAssignment x.name x.position)

/-- Pushes a constant. -/
def constant : Literal → Emit Unit
  | .nil => instruction .pushNil
  | .bool true => instruction .pushTrue
  | .bool false => instruction .pushFalse
  | .int n => instruction (.pushInt n)
  | .float x => instruction (.pushFloat x)
  | .char ch => do instruction (.pushChar (← check (short "character code" ch.toNat)))
  | .string s => do instruction (.pushLiteral (← literal s))

/-- Warns if the statement before, `previous`, was a return. -/
def warnAfter (c : EmitContext) (previous : Option Position) : Emit Unit :=
  match previous with
  | none => pure ()
  | some position => do
    let qualified ← qualifiedName c.tree c.scope
    warn (qualified ++ ": statements after the return at " ++ position.text ++ " are unreachable")

/-- The position of a return statement. -/
def returnPosition : Stat → Option Position
  | .ret _ position => some position
  | _ => none

/-! ## Statements and expressions -/

mutual

def expr (c : EmitContext) : Expr → Emit Unit
  | .literal value => constant value
  | .self => instruction .pushSelf
  | .ident x => load c x
  | .array items => do
    exprs c items
    instruction (.pushArray (← check (short "array size" items.length)))
  | .block head body => do
    let scope ← scopeOf head.scope "block"
    let inner := { c with scope }
    let (code, pool) ← inBlock c do
      stats inner body
      if body.isEmpty then instruction .pushNil
      mark inner head.stop.before
      instruction .blockReturn
    let compiled ← finish c.tree scope code pool
    report .debug ("compiled " ++ compiled.qualified)
    enter head.index compiled
    instruction (.block head.index)
  | .send receiver selector args position => do
    expr c receiver
    exprs c args
    mark c position
    let argc ← check (short "argument count" args.length)
    instruction (.send argc (← literal selector))
  | .superSend selector args position => do
    instruction .pushSelf
    exprs c args
    mark c position
    let argc ← check (short "argument count" args.length)
    instruction (.sendSuper argc (← literal selector))

/-- Pushes the values of expressions in order. -/
def exprs (c : EmitContext) : List Expr → Emit Unit
  | [] => pure ()
  | e :: rest => do
    expr c e
    exprs c rest

def stat (c : EmitContext) : Stat → Emit Unit
  | .expr value => expr c value
  | .assign target value position => do
    mark c position
    expr c value
    store c target
  | .ret value position => do
    expr c value
    mark c position
    instruction .ret

/-- Statements with a `pop` between them. -/
def stats (c : EmitContext) : List Stat → Emit Unit
  | [] => pure ()
  | s :: rest => do
    stat c s
    statsAfter c (returnPosition s) rest

/-- The statements behind another one, which returned at `previous` if it was a return. -/
def statsAfter (c : EmitContext) (previous : Option Position) : List Stat → Emit Unit
  | [] => pure ()
  | s :: rest => do
    instruction .pop
    warnAfter c previous
    stat c s
    statsAfter c (returnPosition s) rest

end

/-! ## Methods, classes and the main body -/

/-- A method that the machine carries out itself. -/
def primitiveMethod (tree : ScopeTree) (m : Method) (scope : ScopeId) (tag : String) :
    Emit Block := do
  let qualified ← qualifiedName tree scope
  match Primitive.ofTag? tag with
  | none => throw (.unknownPrimitive tag qualified)
  | some p =>
    if p.arity ≠ m.args.length then
      throw (.malformed
        (qualified ++ " takes " ++ m.args.length.repr ++ " argument(s) but " ++ tag ++ " expects "
          ++ p.arity.repr))
    return {
      name := m.selector
      qualified
      nargs := m.args.length
      nlocals := m.locals.length
      primitive := some p }

/-- Compiles the body of the method with scope `scope` and collects the blocks nested in it. -/
def withTable (c : EmitContext) (build : Emit Unit) : Emit Block := do
  modify fun g => { g with table := #[] }
  let (code, pool) ← inBlock c build
  let blocks ← takeBlocks c.tree c.scope
  let compiled ← finish c.tree c.scope code pool
  return { compiled with blocks := blocks.toArray }

def method (tree : ScopeTree) (options : CompilerOptions) (m : Method) : Emit Block := do
  let scope ← scopeOf m.scope m.selector
  let c : EmitContext := { tree, options, scope }
  let compiled ←
    match m.kind with
    | .primitive tag => primitiveMethod tree m scope tag
    | .code body =>
      withTable c do
        stats c body.stats
        mark c body.stop.before
        if !body.stats.isEmpty then instruction .pop
        instruction .pushSelf
        instruction .ret
  report .debug ("compiled " ++ compiled.qualified)
  return { compiled with classSide := m.classSide }

/-- The main body, which answers the value of its last statement. -/
def mainBody (tree : ScopeTree) (options : CompilerOptions) (m : MainBody) : Emit Block := do
  let scope ← scopeOf m.scope mainClass
  let c : EmitContext := { tree, options, scope }
  let compiled ← withTable c do
    stats c m.body.stats
    if m.body.stats.isEmpty then instruction .pushSelf
    mark c m.body.stop
    instruction .ret
  report .debug ("compiled " ++ compiled.qualified)
  return compiled

end Emit

end Colloquy
