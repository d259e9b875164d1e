import Colloquy.Tree.Basic

/-!
# Walking a tree

Visits the identifiers and block literals of a program in the order of their evaluation: classes in
order, their methods, then the main body; a receiver before the arguments, the value of an
assignment before its target, and a block before what it contains.  `idents` and `blockHeads` list
what is visited, and the `set` functions change the annotations of the `n`-th one.
-/

namespace Colloquy

variable {σ : Type}

/-- What to do at each identifier and at each block, with a state that is handed on. -/
structure Visitor (σ : Type) where
  ident : Ident → σ → Ident × σ := fun x s => (x, s)
  block : BlockHead → σ → BlockHead × σ := fun b s => (b, s)

mutual

def Expr.walk (v : Visitor σ) : Expr → σ → Expr × σ
  | .literal value, s => (.literal value, s)
  | .self, s => (.self, s)
  | .ident x, s =>
    let (x, s) := v.ident x s
    (.ident x, s)
  | .array items, s =>
    let (items, s) := Expr.walkAll v items [] s
    (.array items, s)
  | .block head body, s =>
    let (head, s) := v.block head s
    let (body, s) := Stat.walkAll v body [] s
    (.block head body, s)
  | .send receiver selector args position, s =>
    let (receiver, s) := receiver.walk v s
    let (args, s) := Expr.walkAll v args [] s
    (.send receiver selector args position, s)
  | .superSend selector args position, s =>
    let (args, s) := Expr.walkAll v args [] s
    (.superSend selector args position, s)

/-- Walks expressions in order, behind those in `done`, which are in reverse. -/
def Expr.walkAll (v : Visitor σ) : List Expr → (done : List Expr) → σ → List Expr × σ
  | [], done, s => (done.reverse, s)
  | e :: rest, done, s =>
    let (e, s) := e.walk v s
    Expr.walkAll v rest (e :: done) s

def Stat.walk (v : Visitor σ) : Stat → σ → Stat × σ
  | .expr value, s =>
    let (value, s) := value.walk v s
    (.expr value, s)
  | .assign target value position, s =>
    let (value, s) := value.walk v s
    let (target, s) := v.ident target s
    (.assign target value position, s)
  | .ret value position, s =>
    let (value, s) := value.walk v s
    (.ret value position, s)

/-- Walks statements in order, behind those in `done`, which are in reverse. -/
def Stat.walkAll (v : Visitor σ) : List Stat → (done : List Stat) → σ → List Stat × σ
  | [], done, s => (done.reverse, s)
  | stat :: rest, done, s =>
    let (stat, s) := stat.walk v s
    Stat.walkAll v rest (stat :: done) s

end

def Body.walk (v : Visitor σ) (b : Body) (s : σ) : Body × σ :=
  let (stats, s) := Stat.walkAll v b.stats [] s
  ({ b with stats }, s)

def Method.walk (v : Visitor σ) (m : Method) (s : σ) : Method × σ :=
  match m.kind with
  | .primitive _ => (m, s)
  | .code body =>
    let (body, s) := body.walk v s
    ({ m with kind := .code body }, s)

def ClassDef.walk (v : Visitor σ) (c : ClassDef) (s : σ) : ClassDef × σ :=
  let (methods, s) :=
    c.methods.foldl (fun (done, s) m => let (m, s) := m.walk v s; (m :: done, s)) ([], s)
  ({ c with methods := methods.reverse }, s)

namespace Program

def walk (v : Visitor σ) (p : Program) (s : σ) : Program × σ :=
  let (classes, s) :=
    p.classes.foldl (fun (done, s) c => let (c, s) := c.walk v s; (c :: done, s)) ([], s)
  match p.main with
  | none => ({ classes := classes.reverse, main := none }, s)
  | some m =>
    let (body, s) := m.body.walk v s
    ({ classes := classes.reverse, main := some { m with body } }, s)

/-- All identifiers, in the order of the walk. -/
def idents (p : Program) : List Ident :=
  (p.walk { ident := fun x seen => (x, x :: seen) } []).2.reverse

/-- All block literals, in the order of the walk. -/
def blockHeads (p : Program) : List BlockHead :=
  (p.walk { block := fun b seen => (b, b :: seen) } []).2.reverse

/-- Changes the `n`-th identifier. -/
def modifyIdent (p : Program) (n : Nat) (f : Ident → Ident) : Program :=
  (p.walk { ident := fun x i => (if i = n then f x else x, i + 1) } 0).1

/-- Changes the `n`-th block literal. -/
def modifyBlock (p : Program) (n : Nat) (f : BlockHead → BlockHead) : Program :=
  (p.walk { block := fun b i => (if i = n then f b else b, i + 1) } 0).1

/-- Makes the `n`-th identifier refer to something else. -/
def setSymbol (p : Program) (n : Nat) (symbol : Option Symbol) : Program :=
  p.modifyIdent n ({ · with symbol })

/-- Gives the `n`-th block another number in its method. -/
def setBlockIndex (p : Program) (n : Nat) (index : UInt16) : Program :=
  p.modifyBlock n ({ · with index })

/-- Gives the `n`-th block another scope. -/
def setBlockScope (p : Program) (n : Nat) (scope : Option ScopeId) : Program :=
  p.modifyBlock n ({ · with scope })

/-- Gives a method, named by the places of its class and of itself, another scope. -/
def setMethodScope (p : Program) (cls method : Nat) (scope : Option ScopeId) : Program :=
  { p with
    classes := p.classes.modify cls fun c =>
      { c with methods := c.methods.modify method ({ · with scope }) } }

/-- Gives the main body another scope. -/
def setMainScope (p : Program) (scope : Option ScopeId) : Program :=
  { p with main := p.main.map ({ · with scope }) }

end Program

end Colloquy
