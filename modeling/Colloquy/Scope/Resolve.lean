import Colloquy.Log
import Colloquy.Scope.Basic
import Colloquy.Text.Escaped
import Std.Data.HashMap

/-!
# Name resolution

`resolve` numbers the scopes of a program, gives every block its number within its method, and ties
every name to what it refers to: the innermost variable of that name, else the field of that name,
else a global.  Classes are taken in order, each after its superclass.
-/

namespace Colloquy

/-- The code scopes around a place, innermost first, each with its number and its variables. -/
abbrev ScopeChain := List (ScopeId × List String)

/-- What a name refers to at a place with the given scopes around it.  These are the scopes that a
search for the name along the parents in the tree comes to, from the innermost one up. -/
def resolveName (fields : List String) (name : String) : ScopeChain → Symbol
  | [] =>
    match fields.idxOf? name with
    | some i => .field i.toUInt16
    | none => .global
  | (id, vars) :: outer =>
    match vars.idxOf? name with
    | some i => .slot id i.toUInt16
    | none => resolveName fields name outer

/-- Ties an occurrence of a name to what it refers to. -/
def Ident.resolve (fields : List String) (chain : ScopeChain) (x : Ident) : Ident :=
  { x with symbol := some (resolveName fields x.name chain) }

/-- What resolution has found so far. -/
structure Resolver where
  tree : ScopeTree := .empty
  /-- The number of the next block of the current method. -/
  nextBlock : Nat := 0
  /-- The fields of every class so far, inherited ones first. -/
  layouts : Std.HashMap String (List String) := {}
  log : Log := #[]

instance : Inhabited Resolver := ⟨{}⟩

/-- A step of resolution; an error keeps what was logged before it. -/
abbrev Resolve := EStateM CompileError Resolver

namespace Resolve

/-- Throws the error of a check, if it found one. -/
def check {α : Type} : Except CompileError α → Resolve α
  | .ok a => pure a
  | .error e => throw e

/-- How many variables or fields there can be. -/
def maxSlots : Nat := 65535

/-- Checks variables one after another: each has a new name, and there are not too many.  `seen`
holds the `count` variables before, in any order. -/
def checkVars (scope : String) : List String → (seen : List String) → (count : Nat) →
    Except CompileError Unit
  | [], _, _ => .ok ()
  | v :: rest, seen, count =>
    if seen.contains v then .error (.redefinition v scope)
    else if count ≥ maxSlots then .error (.operandOverflow "local slot" count)
    else checkVars scope rest (v :: seen) (count + 1)

/-- Adds a scope to the tree. -/
def addScope (scope : Scope) : Resolve ScopeId := fun ⟨tree, nextBlock, layouts, log⟩ =>
  let (tree, id) := tree.add scope
  .ok id ⟨tree, nextBlock, layouts, log⟩

/-- Adds a scope for code with the given arguments and locals. -/
def openCode (name : String) (kind : ScopeKind) (parent : ScopeId) (args locals : List String) :
    Resolve (ScopeId × List String) := do
  let vars := args ++ locals
  let qualified := (← get).tree.qualify (some parent) name
  check (checkVars qualified vars [] 0)
  let id ← addScope { name, kind, parent := some parent, vars, nargs := args.length }
  return (id, vars)

/-- The number of the block that comes next in the current method. -/
def takeBlockIndex : Resolve UInt16 := do
  let index := (← get).nextBlock
  if index < maxSlots then
    modifyGet fun s => (index.toUInt16, { s with nextBlock := index + 1 })
  else throw (.operandOverflow "nested block index" (index + 1))

/-- Opens the scope of a block literal inside the innermost scope of `chain`. -/
def openBlock (selector : String) (chain : ScopeChain) (head : BlockHead) :
    Resolve (BlockHead × ScopeChain) := do
  let index ← takeBlockIndex
  let parent := (chain.head?.map (·.1)).getD ScopeTree.globalId
  let name := selector ++ "-block" ++ index.toNat.repr
  let inner ← openCode name (.block index) parent head.args head.locals
  return ({ head with index, scope := some inner.1 }, inner :: chain)

mutual

/-- Resolves an expression of the method `selector`. -/
def expr (fields : List String) (selector : String) (chain : ScopeChain) : Expr → Resolve Expr
  | .literal value => pure (.literal value)
  | .self => pure .self
  | .ident x => pure (.ident (x.resolve fields chain))
  | .array items => do return .array (← exprs fields selector chain items [])
  | .block head body => do
    let (head, inner) ← openBlock selector chain head
    return .block head (← stats fields selector inner body [])
  | .send receiver message args position => do
    let receiver ← expr fields selector chain receiver
    return .send receiver message (← exprs fields selector chain args []) position
  | .superSend message args position => do
    return .superSend message (← exprs fields selector chain args []) position

/-- Resolves expressions in order, behind those in `done`, which are in reverse. -/
def exprs (fields : List String) (selector : String) (chain : ScopeChain) :
    List Expr → (done : List Expr) → Resolve (List Expr)
  | [], done => pure done.reverse
  | e :: rest, done => do
    let e ← expr fields selector chain e
    exprs fields selector chain rest (e :: done)

/-- Resolves a statement; the value of an assignment comes before its target. -/
def stat (fields : List String) (selector : String) (chain : ScopeChain) : Stat → Resolve Stat
  | .expr value => do return .expr (← expr fields selector chain value)
  | .assign target value position => do
    let value ← expr fields selector chain value
    return .assign (target.resolve fields chain) value position
  | .ret value position => do return .ret (← expr fields selector chain value) position

/-- Resolves statements in order, behind those in `done`, which are in reverse. -/
def stats (fields : List String) (selector : String) (chain : ScopeChain) :
    List Stat → (done : List Stat) → Resolve (List Stat)
  | [], done => pure done.reverse
  | s :: rest, done => do
    let s ← stat fields selector chain s
    stats fields selector chain rest (s :: done)

end

/-- Resolves the body of the method whose scope is `scope`; its blocks are numbered from zero. -/
def body (fields : List String) (selector : String) (scope : ScopeId × List String) (b : Body) :
    Resolve Body := do
  modify fun s => { s with nextBlock := 0 }
  return { b with stats := ← stats fields selector [scope] b.stats [] }

/-- Resolves a method of a class; `seen` are the selectors before it. -/
def method (className : String) (classScope : ScopeId) (fields : List String)
    (seen : Std.HashMap String Unit) (m : Method) : Resolve Method := do
  if seen.contains m.selector then throw (.redefinition m.selector className)
  let scope ← openCode m.selector (.method m.classSide) classScope m.args m.locals
  let kind ←
    match m.kind with
    | .primitive tag => pure (.primitive tag)
    | .code b => do pure (.code (← body fields m.selector scope b))
  return { m with kind, scope := some scope.1 }

/-- Resolves methods in order, behind those in `done`, which are in reverse. -/
def methods (className : String) (classScope : ScopeId) (fields : List String) :
    List Method → (seen : Std.HashMap String Unit) → (done : List Method) → Resolve (List Method)
  | [], _, done => pure done.reverse
  | m :: rest, seen, done => do
    let m ← method className classScope fields seen m
    methods className classScope fields rest (seen.insert m.selector ()) (m :: done)

/-- Adds the fields of a class to the inherited ones, which are given in reverse. -/
def addFields (className : String) : List String → (inherited : List String) →
    Except CompileError (List String)
  | [], all => .ok all.reverse
  | f :: rest, all =>
    if all.contains f then .error (.redefinition f className)
    else addFields className rest (f :: all)

/-- The superclass of a class: the one given, or the root class. -/
def superclassOf (c : ClassDef) : Option String :=
  match c.superclass with
  | some name => some name
  | none => if c.name = rootClass then none else some rootClass

/-- The fields that a class inherits. -/
def inheritedFields (layouts : Std.HashMap String (List String)) (c : ClassDef) :
    Except CompileError (List String) :=
  match superclassOf c with
  | none => .ok []
  | some above =>
    match layouts[above]? with
    | some fields => .ok fields
    | none => .error (.unknownSuperclass c.name above)

/-- Resolves a class. -/
def cls (c : ClassDef) : Resolve ClassDef := do
  let layouts := (← get).layouts
  if layouts.contains c.name then throw (.redefinition c.name "global")
  let inherited ← check (inheritedFields layouts c)
  let fields ← check (addFields c.name c.fields inherited.reverse)
  if fields.length > maxSlots then throw (.operandOverflow "field index" fields.length)
  let scope ← addScope { name := c.name, kind := .cls, parent := some ScopeTree.globalId }
  let methods ← methods c.name scope fields c.methods {} []
  modify fun s =>
    { s with
      log := s.log.push
        ⟨.debug, "defined class " ++ c.name ++ " with fields " ++ Text.escapedList fields⟩
      layouts := s.layouts.insert c.name fields }
  return { c with superclass := superclassOf c, methods }

/-- Resolves classes in order, behind those in `done`, which are in reverse. -/
def classes : List ClassDef → (done : List ClassDef) → Resolve (List ClassDef)
  | [], done => pure done.reverse
  | c :: rest, done => do
    let c ← cls c
    classes rest (c :: done)

/-- Resolves the main body, which sees the fields of the root class. -/
def mainBody (m : MainBody) : Resolve MainBody := do
  let layouts := (← get).layouts
  if layouts.contains mainClass then throw (.redefinition mainClass "global")
  let fields := layouts.getD rootClass []
  let classScope ← addScope { name := mainClass, kind := .cls, parent := some ScopeTree.globalId }
  let scope ← openCode mainSelector (.method false) classScope [] m.locals
  return { m with body := ← body fields mainSelector scope m.body, scope := some scope.1 }

/-- Resolves a program. -/
def program (p : Program) : Resolve Program := do
  let classes ← classes p.classes []
  match p.main with
  | none => return { classes, main := none }
  | some m => return { classes, main := some (← mainBody m) }

end Resolve

/-- The scopes of a program and the program with its annotations. -/
structure Resolution where
  program : Program
  tree : ScopeTree
deriving Inhabited

/-- Resolves the names of a program; the log comes with an error too. -/
def resolve (p : Program) : Log × Except CompileError Resolution :=
  match Resolve.program p {} with
  | .ok program s => (s.log, .ok ⟨program, s.tree⟩)
  | .error e s => (s.log, .error e)

end Colloquy
