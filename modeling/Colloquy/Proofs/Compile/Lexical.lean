import Colloquy.Proofs.Compile.BlockTable

/-!
# Compilation from the text alone

What a class is compiled to is written here as a function of its text and of the fields that it
inherits (`Lexical.cls`).  The function numbers no scopes: a name is compiled to its lexical
address, and a block literal takes the next number of its method as the walk comes to it.  It does
not look for errors, so it says something of accepted programs only.

The walk carries a `Draft`: what code generation keeps of the method at hand, and the counter of
resolution.  Resolving a piece of text and then generating code for it leaves the draft that the
walk over the text leaves (`stats_lexical`), whatever the scopes are numbered, and nothing of one
method's draft is left when the next one begins.

Main statement: `compileBare_lexical`.
-/

namespace Colloquy

/-! ## Drafts -/

/-- A method or main body that is being compiled: the code and the literals of the block at hand,
the table of nested blocks so far, and the number of the next one. -/
structure Draft where
  code : List Instruction := []
  pool : LiteralPool := {}
  table : Array (Option Block) := #[]
  next : Nat := 0

/-- What is around a piece of text. -/
structure Surroundings where
  /-- The selector of the method around it. -/
  selector : String
  /-- The name of the innermost scope. -/
  scope : String
  names : Names

/-- What is around the text of a block literal with the given number. -/
def Surroundings.inside (p : Surroundings) (number : Nat) (head : BlockHead) : Surroundings :=
  { p with
    scope := p.selector ++ "-block" ++ number.repr
    names := p.names.inside (head.args ++ head.locals) }

/-- A source position, if positions are wanted. -/
def CompilerOptions.marks (options : CompilerOptions) (position : Position) : List Instruction :=
  if options.debugInfo then [.debug Emit.fileLiteral position] else []

/-- The literals that every block starts with. -/
def CompilerOptions.pool (options : CompilerOptions) : LiteralPool :=
  if options.debugInfo then (LiteralPool.insert {} options.fileName).2 else {}

namespace Draft

/-- More instructions behind those of the block at hand. -/
def add (is : List Instruction) (d : Draft) : Draft := { d with code := d.code ++ is }

theorem add_add (is js : List Instruction) (d : Draft) :
    (d.add is).add js = d.add (is ++ js) := by
  simp [add]

/-- An instruction that names a string. -/
def name (make : UInt16 → Instruction) (s : String) (d : Draft) : Draft :=
  let pool := (d.pool.insert s).2
  { d with pool, code := d.code ++ [make ((pool.lookup s).getD 0)] }

def constant (d : Draft) : Literal → Draft
  | .nil => d.add [.pushNil]
  | .bool true => d.add [.pushTrue]
  | .bool false => d.add [.pushFalse]
  | .int n => d.add [.pushInt n]
  | .float x => d.add [.pushFloat x]
  | .char ch => d.add [.pushChar ch.toNat.toUInt16]
  | .string s => d.name .pushLiteral s

/-- The value of a name. -/
def load (d : Draft) (x : String) : Address → Draft
  | .slot hops index => d.add [.pushLocal hops.toUInt16 index.toUInt16]
  | .field index => d.add [.pushField index.toUInt16]
  | .global => d.name .pushGlobal x

/-- An assignment to a name; no accepted program assigns to a global. -/
def store (d : Draft) : Address → Draft
  | .slot hops index => d.add [.storeLocal hops.toUInt16 index.toUInt16]
  | .field index => d.add [.storeField index.toUInt16]
  | .global => d

/-- The draft of the next block literal. -/
def opened (options : CompilerOptions) (d : Draft) : Draft :=
  { code := [], pool := options.pool, table := d.table, next := d.next + 1 }

/-- The block that has been drafted. -/
def block (d : Draft) (name qualified : String) (args locals : List String) : Block where
  name
  qualified
  nargs := args.length
  nlocals := locals.length
  bytecode := Instruction.encodeAll d.code.toArray
  literals := d.pool.entries

/-- The draft behind a block literal that was compiled to `b` in the draft `inner`. -/
def enter (d inner : Draft) (b : Block) : Draft where
  code := d.code ++ [.block d.next.toUInt16]
  pool := d.pool
  table := (Emit.growTo inner.table d.next).setIfInBounds d.next (some b)
  next := inner.next

/-- The nested blocks. -/
def blocks (d : Draft) : Array Block := (d.table.toList.filterMap id).toArray

end Draft

/-- What code generation keeps of the method at hand, with the number of the next block literal. -/
def Generator.draft (g : Generator) (next : Nat) : Draft := ⟨g.code.toList, g.pool, g.table, next⟩

/-! ## The walk over the text -/

namespace Lexical

variable (options : CompilerOptions)

mutual

def expr (p : Surroundings) : Expr → Draft → Draft
  | .literal value, d => d.constant value
  | .self, d => d.add [.pushSelf]
  | .ident x, d => d.load x.name (p.names.find x.name)
  | .array items, d => (exprs p items d).add [.pushArray items.length.toUInt16]
  | .block head body, d =>
    let q := p.inside d.next head
    let ended := Ending.block.code body.isEmpty (options.marks head.stop.before)
    let inner := (stats q body (d.opened options)).add ended
    d.enter inner (inner.block q.scope (p.scope ++ ">>" ++ q.scope) head.args head.locals)
  | .send receiver message args position, d =>
    ((exprs p args (expr p receiver d)).add (options.marks position)).name
      (.send args.length.toUInt16) message
  | .superSend message args position, d =>
    ((exprs p args (d.add [.pushSelf])).add (options.marks position)).name
      (.sendSuper args.length.toUInt16) message

def exprs (p : Surroundings) : List Expr → Draft → Draft
  | [], d => d
  | e :: rest, d => exprs p rest (expr p e d)

def stat (p : Surroundings) : Stat → Draft → Draft
  | .expr value, d => expr p value d
  | .assign target value position, d =>
    (expr p value (d.add (options.marks position))).store (p.names.find target.name)
  | .ret value position, d => (expr p value d).add (options.marks position ++ [.ret])

def stats (p : Surroundings) : List Stat → Draft → Draft
  | [], d => d
  | s :: rest, d => behind p rest (stat p s d)

/-- Statements behind another one. -/
def behind (p : Surroundings) : List Stat → Draft → Draft
  | [], d => d
  | s :: rest, d => behind p rest (stat p s (d.add [.pop]))

end

/-- A body with what comes behind its statements. -/
def body (p : Surroundings) (ending : Ending) (ss : List Stat) (stop : Position) : Draft :=
  (stats options p ss { pool := options.pool }).add (ending.code ss.isEmpty (options.marks stop))

/-- A method of a class with the given name and fields, inherited ones first. -/
def method (className : String) (fields : List String) (m : Method) : Block :=
  let qualified := className ++ ">>" ++ m.selector
  match m.kind with
  | .primitive tag =>
    { name := m.selector, qualified, nargs := m.args.length, nlocals := m.locals.length
      primitive := Primitive.ofTag? tag, classSide := m.classSide }
  | .code b =>
    let d := body options ⟨m.selector, m.selector, ⟨[m.args ++ m.locals], fields⟩⟩ .method b.stats
      b.stop.before
    { d.block m.selector qualified m.args m.locals with
      blocks := d.blocks
      classSide := m.classSide }

def mainBody (fields : List String) (m : MainBody) : Block :=
  let d := body options ⟨mainSelector, mainSelector, ⟨[m.locals], fields⟩⟩ .main m.body.stats
    m.body.stop
  { d.block mainSelector (mainClass ++ ">>" ++ mainSelector) [] m.locals with blocks := d.blocks }

/-- **The compiled form of a class**, given the fields that it inherits. -/
def cls (inherited : List String) (c : ClassDef) : CompiledClass where
  name := c.name
  superclass := Resolve.superclassOf c
  fields := c.fields
  methods := c.methods.map (method options c.name (inherited ++ c.fields))

/-- The compiled forms of classes, with those before them given last first. -/
def classes : (before cs : List ClassDef) → List CompiledClass
  | _, [] => []
  | before, c :: rest => cls options (c.inheritedFields before) c :: classes (c :: before) rest

/-- All classes of a program, the one of the main body last. -/
def program (p : Program) : List CompiledClass :=
  classes options [] p.classes
    ++ p.main.toList.map (Emit.classOfMain <| mainBody options (p.fieldsOf rootClass) ·)

end Lexical

/-! ## Steps of code generation on drafts -/

namespace Emit

variable {c : EmitContext} {g g' : Generator} {n : Nat}

theorem draft_instruction {i : Instruction} (h : instruction i g = .ok () g') :
    g'.draft n = (g.draft n).add [i] := by
  cases h
  simp [Generator.draft, Draft.add]

theorem draft_mark {position : Position} (h : mark c position g = .ok () g') :
    g'.draft n = (g.draft n).add (c.options.marks position) := by
  unfold mark at h
  rw [CompilerOptions.marks]
  split at h
  · rw [if_pos (by assumption)]
    exact draft_instruction h
  · rw [if_neg (by assumption)]
    cases h
    simp [Generator.draft, Draft.add]

theorem draft_warnAfter {previous : Option Position} (h : warnAfter c previous g = .ok () g') :
    g'.draft n = g.draft n := by
  cases previous with
  | none =>
    cases h
    rfl
  | some position =>
    obtain ⟨name, t, hname, ⟨⟩⟩ := EStateM.bind_eq_ok.1 h
    obtain rfl := qualifiedName_eq_ok hname
    rfl

theorem lookup_insert {pool pool' : LiteralPool} {s : String} {l : UInt16}
    (h : pool.insert s = (.ok l, pool')) : pool'.lookup s = some l := by
  unfold LiteralPool.insert at h
  dsimp only at h
  split at h
  · rename_i found
    cases h
    exact found
  · split at h
    · cases h
      exact Std.HashMap.getElem?_insert_self
    · cases h

theorem draft_literal {make : UInt16 → Instruction} {s : String}
    (h : (do instruction (make (← literal s)) : Emit Unit) g = .ok () g') :
    g'.draft n = (g.draft n).name make s := by
  obtain ⟨l, t, hl, hi⟩ := EStateM.bind_eq_ok.1 h
  obtain ⟨inserted, code, table⟩ := literal_eq_ok hl
  rw [draft_instruction hi]
  simp [Generator.draft, Draft.add, Draft.name, inserted, lookup_insert inserted, code, table]

theorem draft_constant {value : Literal} (h : constant value g = .ok () g') :
    g'.draft n = (g.draft n).constant value := by
  cases value with
  | nil | int n | float x => exact draft_instruction h
  | bool b => cases b <;> exact draft_instruction h
  | char ch =>
    obtain ⟨k, t, hk, hi⟩ := EStateM.bind_eq_ok.1 h
    obtain ⟨fits, rfl⟩ := check_eq_ok.1 hk
    obtain ⟨-, rfl⟩ := short_eq_ok fits
    exact draft_instruction hi
  | string s => exact draft_literal h

/-- A message with its arguments counted. -/
theorem draft_message {make : UInt16 → UInt16 → Instruction} {what s : String} {count : Nat}
    {position : Position}
    (h : (do
      mark c position
      let argc ← check (short what count)
      instruction (make argc (← literal s)) : Emit Unit) g = .ok () g') :
    g'.draft n = ((g.draft n).add (c.options.marks position)).name (make count.toUInt16) s := by
  obtain ⟨_, t, hmark, hrest⟩ := EStateM.bind_eq_ok.1 h
  obtain ⟨k, t', hk, hlast⟩ := EStateM.bind_eq_ok.1 hrest
  obtain ⟨fits, rfl⟩ := check_eq_ok.1 hk
  obtain ⟨-, rfl⟩ := short_eq_ok fits
  rw [← draft_mark hmark]
  exact draft_literal hlast

/-- Nothing is pushed for statements that leave a value. -/
theorem draft_unless {empty : Bool} {i : Instruction} {rest : Emit Unit}
    (h : (if empty = true then (do instruction i; rest) else rest) g = .ok () g') :
    ∃ t, t.draft n = (g.draft n).add (if empty then [i] else []) ∧ rest t = .ok () g' := by
  cases empty with
  | true =>
    obtain ⟨_, t, hi, hrest⟩ := EStateM.bind_eq_ok.1 h
    exact ⟨t, draft_instruction hi, hrest⟩
  | false => exact ⟨g, by simp [Generator.draft, Draft.add], h⟩

theorem draft_closing {position : Position} {i : Instruction}
    (h : (do mark c position; instruction i : Emit Unit) g = .ok () g') :
    g'.draft n = (g.draft n).add (c.options.marks position ++ [i]) := by
  obtain ⟨_, t, hmark, hi⟩ := EStateM.bind_eq_ok.1 h
  rw [draft_instruction hi, draft_mark hmark, Draft.add_add]

/-- Behind the statements of a method. -/
theorem draft_answer {position : Position} {empty : Bool}
    (h : (do
      mark c position
      if !empty then instruction .pop
      instruction .pushSelf
      instruction .ret : Emit Unit) g = .ok () g') :
    g'.draft n = (g.draft n).add (Ending.method.code empty (c.options.marks position)) := by
  obtain ⟨_, t, hmark, hrest⟩ := EStateM.bind_eq_ok.1 h
  obtain ⟨t', dropped, hrest⟩ : ∃ t', t'.draft n = (t.draft n).add (if empty then [] else [.pop])
      ∧ (do instruction .pushSelf; instruction .ret : Emit Unit) t' = .ok () g' := by
    cases empty with
    | true => exact ⟨t, by simp [Generator.draft, Draft.add], hrest⟩
    | false =>
      obtain ⟨_, t', hpop, hrest⟩ := EStateM.bind_eq_ok.1 hrest
      exact ⟨t', draft_instruction hpop, hrest⟩
  obtain ⟨_, t'', hself, hret⟩ := EStateM.bind_eq_ok.1 hrest
  rw [draft_instruction hret, draft_instruction hself, dropped, draft_mark hmark]
  simp only [Draft.add_add, Ending.code, List.append_assoc]
  rfl

/-! ### Blocks -/

/-- A block of its own is compiled from the literals that every block starts with. -/
theorem draft_inBlock {build : Emit Unit} {code : Array Instruction} {pool : LiteralPool}
    (h : inBlock c build g = .ok (code, pool) g') :
    ∃ t t', build t = .ok () t'
      ∧ (∀ n, t.draft n = { pool := c.options.pool, table := g.table, next := n })
      ∧ code = t'.code ∧ pool = t'.pool ∧ g' = { t' with code := g.code, pool := g.pool } := by
  obtain ⟨⟨code₀, pool₀⟩, t₀, ⟨⟩, hrest⟩ := EStateM.bind_eq_ok.1 h
  dsimp only at hrest
  rw [CompilerOptions.pool]
  split at hrest
  · obtain ⟨_, t, hfile, hbuild⟩ := EStateM.bind_eq_ok.1 hrest
    obtain ⟨l, t, hl, ⟨⟩⟩ := EStateM.bind_eq_ok.1 hfile
    obtain ⟨_, t', built, ⟨⟩⟩ := EStateM.bind_eq_ok.1 hbuild
    obtain ⟨inserted, code, table⟩ := literal_eq_ok hl
    rw [if_pos (by assumption), inserted]
    exact ⟨t, t', built, fun n => by simp [Generator.draft, code, table], rfl, rfl, rfl⟩
  · obtain ⟨_, t', hbuild, ⟨⟩⟩ := EStateM.bind_eq_ok.1 hrest
    rw [if_neg (by assumption)]
    exact ⟨_, t', hbuild, fun n => rfl, rfl, rfl, rfl⟩

/-- A finished block is what has been drafted for its scope. -/
theorem finish_draft {tree : ScopeTree} {id : ScopeId} {s : Scope} {t : Generator} {b : Block}
    {args locals : List String} (known : tree.get? id = some s) (vars : s.vars = args ++ locals)
    (nargs : s.nargs = args.length) (h : finish tree id t.code t.pool g = .ok b g') :
    g' = g ∧ b = (t.draft n).block s.name (tree.qualify s.parent s.name) args locals := by
  unfold finish at h
  rw [known] at h
  cases h
  simp [Draft.block, Generator.draft, vars, nargs]

theorem enter_eq_ok {index : UInt16} {b : Block} (h : enter index b g = .ok () g') :
    g' = { g with
      table := (growTo g.table index.toNat).setIfInBounds index.toNat (some b) } := by
  obtain ⟨code, pool, table, warnings, log⟩ := g
  unfold enter at h
  dsimp only at h
  split at h
  · cases h
  · cases h
    rfl

/-- Behind a block literal. -/
theorem draft_entered {index : UInt16} {message : String} {b : Block} {d inner : Draft}
    (h : (do report .debug message; enter index b; instruction (.block index) : Emit Unit) g
      = .ok () g')
    (around : (g.code.toList, g.pool) = (d.code, d.pool)) (number : index.toNat = d.next)
    (drafted : (g.table, n) = (inner.table, inner.next)) : g'.draft n = d.enter inner b := by
  obtain ⟨_, t, ⟨⟩, hrest⟩ := EStateM.bind_eq_ok.1 h
  obtain ⟨_, t', hentered, push⟩ := EStateM.bind_eq_ok.1 hrest
  obtain ⟨code, pool⟩ := Prod.mk.inj around
  obtain ⟨table, next⟩ := Prod.mk.inj drafted
  rw [draft_instruction push, enter_eq_ok hentered]
  simp [Generator.draft, Draft.add, Draft.enter, ← code, ← pool, ← table, ← next, ← number]

theorem takeBlocks_draft {tree : ScopeTree} {id : ScopeId} {bs : List Block}
    (h : takeBlocks tree id g = .ok bs g') : bs.toArray = (g.draft n).blocks := by
  obtain ⟨name, t, hname, htake⟩ := EStateM.bind_eq_ok.1 h
  obtain rfl := qualifiedName_eq_ok hname
  obtain ⟨table, t', ⟨⟩, hcheck⟩ := EStateM.bind_eq_ok.1 htake
  obtain ⟨_, rfl, all⟩ := tableBlocks_eq_ok (check_eq_ok.1 hcheck).1
  simp [Draft.blocks, Generator.draft, all]

/-- **Nothing is left of one method's draft when the next one begins.** -/
theorem draft_withTable {build : Emit Unit} {s : Scope} {b : Block} {args locals : List String}
    (known : c.tree.get? c.scope = some s) (vars : s.vars = args ++ locals)
    (nargs : s.nargs = args.length) (h : withTable c build g = .ok b g') :
    ∃ t t', build t = .ok () t' ∧ (∀ n, t.draft n = { pool := c.options.pool, next := n })
      ∧ ∀ n, b = { (t'.draft n).block s.name (c.tree.qualify s.parent s.name) args locals with
        blocks := (t'.draft n).blocks } := by
  obtain ⟨_, t₀, ⟨⟩, hrest⟩ := EStateM.bind_eq_ok.1 h
  obtain ⟨⟨code, pool⟩, t₁, hin, hrest⟩ := EStateM.bind_eq_ok.1 hrest
  obtain ⟨bs, t₂, htake, hrest⟩ := EStateM.bind_eq_ok.1 hrest
  obtain ⟨compiled, t₃, hfinish, ⟨⟩⟩ := EStateM.bind_eq_ok.1 hrest
  obtain ⟨t, t', hbuild, fresh, rfl, rfl, rfl⟩ := draft_inBlock hin
  refine ⟨t, t', hbuild, fresh, fun n => ?_⟩
  obtain ⟨-, rfl⟩ := finish_draft (n := n) known vars nargs hfinish
  rw [takeBlocks_draft (n := n) htake]
  rfl

theorem primitiveMethod_eq_ok {tree : ScopeTree} {m : Method} {id : ScopeId} {s : Scope}
    {tag : String} {b : Block} (known : tree.get? id = some s)
    (h : primitiveMethod tree m id tag g = .ok b g') :
    b = { name := m.selector, qualified := tree.qualify s.parent s.name, nargs := m.args.length
          nlocals := m.locals.length, primitive := Primitive.ofTag? tag } := by
  have name : tree.qualifiedName id = some (tree.qualify s.parent s.name) := by
    rw [ScopeTree.qualifiedName, known, Option.map_some]
  obtain ⟨qualified, t, hname, hp⟩ := EStateM.bind_eq_ok.1 h
  rw [qualifiedName, name] at hname
  cases hname
  cases tagged : Primitive.ofTag? tag with
  | none =>
    rw [tagged] at hp
    cases hp
  | some p =>
    rw [tagged] at hp
    dsimp only at hp
    split at hp
    · obtain ⟨_, _, ⟨⟩, _⟩ := EStateM.bind_eq_ok.1 hp
    · cases hp
      rfl

end Emit

/-! ## What is around a piece of text -/

/-- The surroundings are those of the innermost of the given scopes. -/
structure Surroundings.At (p : Surroundings) (tree : ScopeTree) (chain : ScopeChain)
    (scope : ScopeId) : Prop where
  nests : tree.Nests chain
  innermost : chain.head?.map Prod.fst = some scope
  names : p.names.scopes = chain.map Prod.snd
  room : p.names.fields.length ≤ Resolve.maxSlots
  named : ∃ s, tree.get? scope = some s ∧ s.name = p.scope ∧ s.kind ≠ .global

namespace Surroundings.At

variable {p : Surroundings} {tree tree' : ScopeTree} {chain inner : ScopeChain} {scope : ScopeId}
  {σ σ' : Resolver} {options : CompilerOptions} {g g' : Generator} {n : Nat}

theorem mono (h : p.At tree chain scope) (grows : tree.Grows tree') : p.At tree' chain scope := by
  obtain ⟨s, known, name, code⟩ := h.named
  exact ⟨h.nests.mono grows, h.innermost, h.names, h.room, s, grows _ _ known, name, code⟩

/-- The name of a scope inside stands behind that of the scope around it. -/
theorem qualify (h : p.At tree chain scope) (name : String) :
    tree.qualify (some scope) name = p.scope ++ ">>" ++ name := by
  obtain ⟨s, known, named, code⟩ := h.named
  rw [ScopeTree.qualify, Option.bind_some, known, ← named]
  exact if_neg code

/-- **The scope of a block literal** has its arguments and locals, and is named for its number. -/
theorem openBlock {head head' : BlockHead} (h : p.At σ.tree chain scope)
    (run : Resolve.openBlock p.selector chain head σ = .ok (head', inner) σ') :
    ∃ b s, σ.tree.Grows σ'.tree ∧ head'.scope = some b ∧ head'.index.toNat = σ.nextBlock
      ∧ σ'.nextBlock = σ.nextBlock + 1 ∧ head'.stop = head.stop
      ∧ (p.inside σ.nextBlock head).At σ'.tree inner b ∧ σ'.tree.get? b = some s
      ∧ s.name = (p.inside σ.nextBlock head).scope ∧ s.parent = some scope
      ∧ s.vars = head.args ++ head.locals ∧ s.nargs = head.args.length := by
  obtain ⟨number, next, -⟩ := Resolve.openBlock_numbers run
  obtain ⟨grows, nests, b, opened, rfl⟩ := Resolve.openBlock_nests h.nests run
  obtain ⟨index, τ, hindex, hopen⟩ := EStateM.bind_eq_ok.1 run
  obtain ⟨number', rfl⟩ := Resolve.takeBlockIndex_eq_ok hindex
  obtain ⟨here, τ, hcode, ⟨⟩⟩ := EStateM.bind_eq_ok.1 hopen
  have known := Resolve.openCode_scope hcode
  cases opened
  have parent : ((chain.head?.map (·.1)).getD ScopeTree.globalId) = scope := by
    rw [h.innermost, Option.getD_some]
  rw [parent, number'] at known
  refine ⟨_, _, grows, rfl, number, next, rfl, ⟨nests, rfl, ?_, h.room, ?_⟩, known,
    rfl, rfl, rfl, rfl⟩
  · rw [List.map_cons, ← h.names]
    rfl
  · refine ⟨_, known, rfl, fun global => ?_⟩
    cases global

/-- A name stands for its address. -/
theorem standsFor (h : p.At tree chain scope) (name : String) :
    (resolveName p.names.fields name chain).StandsFor p.names.fields chain (p.names.find name) := by
  have found := resolveName_standsFor p.names.fields name chain
  rwa [← h.names] at found

theorem operand_toNat (k : UInt16) : k.toNat.toUInt16 = k := UInt16.ofNat_toNat

/-- **A name is read at its address.** -/
theorem draft_load (h : p.At tree chain scope) {x : Ident}
    (run : Emit.load ⟨tree, options, scope⟩ (x.resolve p.names.fields chain) g = .ok () g') :
    g'.draft n = (g.draft n).load x.name (p.names.find x.name) := by
  have found := h.standsFor x.name
  unfold Emit.load at run
  rw [Ident.resolve] at run
  cases symbol : resolveName p.names.fields x.name chain with
  | field i =>
    rw [symbol] at run found
    rw [found.field h.room, Draft.load, operand_toNat]
    exact Emit.draft_instruction run
  | slot owner i =>
    rw [symbol] at run found
    obtain ⟨d, t, hd, hi⟩ := EStateM.bind_eq_ok.1 run
    obtain ⟨rfl, depth, hops, rfl⟩ := Emit.depthTo_eq_ok hd
    rw [found.slot h.nests h.innermost hops, Draft.load, operand_toNat, operand_toNat]
    exact Emit.draft_instruction hi
  | global =>
    rw [symbol] at run found
    rw [found.global]
    exact Emit.draft_literal run

/-- **A name is assigned to at its address.** -/
theorem draft_store (h : p.At tree chain scope) {x : Ident}
    (run : Emit.store ⟨tree, options, scope⟩ (x.resolve p.names.fields chain) g = .ok () g') :
    g'.draft n = (g.draft n).store (p.names.find x.name) := by
  have found := h.standsFor x.name
  unfold Emit.store at run
  rw [Ident.resolve] at run
  cases symbol : resolveName p.names.fields x.name chain with
  | field i =>
    rw [symbol] at run found
    rw [found.field h.room, Draft.store, operand_toNat]
    exact Emit.draft_instruction run
  | slot owner i =>
    rw [symbol] at run found
    obtain ⟨d, t, hd, hi⟩ := EStateM.bind_eq_ok.1 run
    obtain ⟨rfl, depth, hops, rfl⟩ := Emit.depthTo_eq_ok hd
    rw [found.slot h.nests h.innermost hops, Draft.store, operand_toNat, operand_toNat]
    exact Emit.draft_instruction hi
  | global =>
    rw [symbol] at run
    cases run

end Surroundings.At

/-- The scope is that of a class with the given name. -/
def ScopeTree.IsClass (tree : ScopeTree) (id : ScopeId) (name : String) : Prop :=
  ∃ s, tree.get? id = some s ∧ s.kind = .cls ∧ s.name = name

theorem ScopeTree.isClass_add (tree : ScopeTree) (name : String) (parent : Option ScopeId) :
    (tree.add { name, kind := .cls, parent }).1.IsClass tree.scopes.size name :=
  ⟨_, (Resolve.get?_add tree _).2, rfl, rfl⟩

theorem ScopeTree.IsClass.mono {tree tree' : ScopeTree} {id : ScopeId} {name : String}
    (h : tree.IsClass id name) (grows : tree.Grows tree') : tree'.IsClass id name := by
  obtain ⟨s, known, isClass, named⟩ := h
  exact ⟨s, grows _ _ known, isClass, named⟩

/-- The name of a method stands behind that of its class. -/
theorem ScopeTree.IsClass.qualify {tree : ScopeTree} {id : ScopeId} {name : String}
    (h : tree.IsClass id name) (selector : String) :
    tree.qualify (some id) selector = name ++ ">>" ++ selector := by
  obtain ⟨s, known, isClass, rfl⟩ := h
  rw [ScopeTree.qualify, Option.bind_some, known]
  exact if_neg (by simp [isClass])

/-! ## Resolving and generating is walking over the text -/

namespace Resolve

variable {tree : ScopeTree} {options : CompilerOptions}

mutual

/-- **An expression is compiled as its text.** -/
theorem expr_lexical {p : Surroundings} {chain : ScopeChain} {scope : ScopeId} {σ σ' : Resolver}
    (here : p.At σ.tree chain scope) (e : Expr) {e' : Expr}
    (h : expr p.names.fields p.selector chain e σ = .ok e' σ') (grows : σ'.tree.Grows tree)
    {g g' : Generator} (run : Emit.expr ⟨tree, options, scope⟩ e' g = .ok () g') :
    g'.draft σ'.nextBlock = Lexical.expr options p e (g.draft σ.nextBlock) := by
  cases e with
  | literal value =>
    cases h
    exact Emit.draft_constant run
  | self =>
    cases h
    exact Emit.draft_instruction run
  | ident name =>
    cases h
    exact (here.mono grows).draft_load run
  | array items =>
    obtain ⟨_, τ, hitems, ⟨⟩⟩ := EStateM.bind_eq_ok.1 h
    obtain ⟨items', rfl, count, each⟩ := exprs_lexical here items [] hitems grows
    obtain ⟨_, t, values, last⟩ := EStateM.bind_eq_ok.1 run
    obtain ⟨k, t', hk, push⟩ := EStateM.bind_eq_ok.1 last
    obtain ⟨fits, rfl⟩ := Emit.check_eq_ok.1 hk
    obtain ⟨-, rfl⟩ := Emit.short_eq_ok fits
    rw [Emit.draft_instruction push, each values, count]
    rfl
  | block head body =>
    obtain ⟨⟨head', inner⟩, τ, hopen, hbody⟩ := EStateM.bind_eq_ok.1 h
    obtain ⟨body', τ', hstats, ⟨⟩⟩ := EStateM.bind_eq_ok.1 hbody
    obtain ⟨b, s, older, opened, number, next, stop, inside, known, name, parent, vars, nargs⟩ :=
      here.openBlock hopen
    obtain ⟨_, -, taken, -⟩ := stats_scoped here.room inside.nests.around body [] hstats
    obtain ⟨_, rfl, empty, each, -⟩ := stats_lexical inside body [] hstats grows
    obtain ⟨_, t, hscope, build⟩ := EStateM.bind_eq_ok.1 run
    obtain ⟨rfl, same⟩ := Emit.scopeOf_eq_ok hscope
    obtain rfl := Option.some.inj (opened.symm.trans same)
    obtain ⟨⟨code, pool⟩, u, hin, rest⟩ := EStateM.bind_eq_ok.1 build
    obtain ⟨v, w, built, fresh, rfl, rfl, rfl⟩ := Emit.draft_inBlock hin
    obtain ⟨compiled, u, hfinish, last⟩ := EStateM.bind_eq_ok.1 rest
    -- the statements of the block, and what comes behind them
    obtain ⟨_, x, values, closing⟩ := EStateM.bind_eq_ok.1 built
    obtain ⟨y, pushed, closing⟩ := Emit.draft_unless (n := σ'.nextBlock) closing
    have drafted := Emit.draft_closing (n := σ'.nextBlock) closing
    rw [pushed, each values, fresh, next, empty, stop, Draft.add_add] at drafted
    obtain ⟨rfl, rfl⟩ :=
      Emit.finish_draft (n := σ'.nextBlock) (grows _ _ (taken.grows _ _ known)) vars nargs hfinish
    have above := (here.mono (older.trans (taken.grows.trans grows))).qualify s.name
    rw [parent, above, name, drafted] at last
    exact Emit.draft_entered (d := t.draft σ.nextBlock) last rfl number
      (congrArg (fun d => (d.table, d.next)) drafted)
  | send receiver message args position =>
    obtain ⟨receiver', τ, hreceiver, hrest⟩ := EStateM.bind_eq_ok.1 h
    obtain ⟨_, τ', hargs, ⟨⟩⟩ := EStateM.bind_eq_ok.1 hrest
    have here' := here.mono (expr_scoped here.room here.nests.around receiver hreceiver).1.grows
    obtain ⟨_, -, taken, -⟩ := exprs_scoped here.room here'.nests.around args [] hargs
    obtain ⟨args', rfl, count, each⟩ := exprs_lexical here' args [] hargs grows
    obtain ⟨_, t, value, rest⟩ := EStateM.bind_eq_ok.1 run
    obtain ⟨_, t', values, last⟩ := EStateM.bind_eq_ok.1 rest
    rw [Emit.draft_message last, each values, count,
      expr_lexical here receiver hreceiver (taken.grows.trans grows) value]
    rfl
  | superSend message args position =>
    obtain ⟨_, τ, hargs, ⟨⟩⟩ := EStateM.bind_eq_ok.1 h
    obtain ⟨args', rfl, count, each⟩ := exprs_lexical here args [] hargs grows
    obtain ⟨_, t, value, rest⟩ := EStateM.bind_eq_ok.1 run
    obtain ⟨_, t', values, last⟩ := EStateM.bind_eq_ok.1 rest
    rw [Emit.draft_message last, each values, count,
      Emit.draft_instruction value]
    rfl
termination_by structural e

theorem exprs_lexical {p : Surroundings} {chain : ScopeChain} {scope : ScopeId} {σ σ' : Resolver}
    (here : p.At σ.tree chain scope) (es done : List Expr) {es' : List Expr}
    (h : exprs p.names.fields p.selector chain es done σ = .ok es' σ')
    (grows : σ'.tree.Grows tree) :
    ∃ new, es' = done.reverse ++ new ∧ new.length = es.length
      ∧ ∀ {g g' : Generator}, Emit.exprs ⟨tree, options, scope⟩ new g = .ok () g' →
        g'.draft σ'.nextBlock = Lexical.exprs options p es (g.draft σ.nextBlock) := by
  cases es with
  | nil =>
    cases h
    refine ⟨[], (List.append_nil _).symm, rfl, fun run => ?_⟩
    cases run
    rfl
  | cons e rest =>
    obtain ⟨e', τ, he, hrest⟩ := EStateM.bind_eq_ok.1 h
    have here' := here.mono (expr_scoped here.room here.nests.around e he).1.grows
    obtain ⟨_, -, taken, -⟩ := exprs_scoped here.room here'.nests.around rest (e' :: done) hrest
    obtain ⟨new, rfl, count, later⟩ := exprs_lexical here' rest (e' :: done) hrest grows
    refine ⟨e' :: new, by simp, by simp [count], fun run => ?_⟩
    obtain ⟨_, t, first, others⟩ := EStateM.bind_eq_ok.1 run
    rw [later others, expr_lexical here e he (taken.grows.trans grows) first]
    rfl
termination_by structural es

theorem stat_lexical {p : Surroundings} {chain : ScopeChain} {scope : ScopeId} {σ σ' : Resolver}
    (here : p.At σ.tree chain scope) (s : Stat) {s' : Stat}
    (h : stat p.names.fields p.selector chain s σ = .ok s' σ') (grows : σ'.tree.Grows tree)
    {g g' : Generator} (run : Emit.stat ⟨tree, options, scope⟩ s' g = .ok () g') :
    g'.draft σ'.nextBlock = Lexical.stat options p s (g.draft σ.nextBlock) := by
  cases s with
  | expr value =>
    obtain ⟨_, τ, hvalue, ⟨⟩⟩ := EStateM.bind_eq_ok.1 h
    exact expr_lexical here value hvalue grows run
  | assign target value position =>
    obtain ⟨_, τ, hvalue, ⟨⟩⟩ := EStateM.bind_eq_ok.1 h
    have here' := here.mono (expr_scoped here.room here.nests.around value hvalue).1.grows
    obtain ⟨_, t, marked, rest⟩ := EStateM.bind_eq_ok.1 run
    obtain ⟨_, t', first, stored⟩ := EStateM.bind_eq_ok.1 rest
    rw [(here'.mono grows).draft_store stored, expr_lexical here value hvalue grows first,
      Emit.draft_mark marked]
    rfl
  | ret value position =>
    obtain ⟨_, τ, hvalue, ⟨⟩⟩ := EStateM.bind_eq_ok.1 h
    obtain ⟨_, t, first, rest⟩ := EStateM.bind_eq_ok.1 run
    rw [Emit.draft_closing rest, expr_lexical here value hvalue grows first]
    rfl
termination_by structural s

/-- **Statements are compiled as their text**, at the start of a body and behind another one. -/
theorem stats_lexical {p : Surroundings} {chain : ScopeChain} {scope : ScopeId} {σ σ' : Resolver}
    (here : p.At σ.tree chain scope) (ss done : List Stat) {ss' : List Stat}
    (h : stats p.names.fields p.selector chain ss done σ = .ok ss' σ')
    (grows : σ'.tree.Grows tree) :
    ∃ new, ss' = done.reverse ++ new ∧ new.isEmpty = ss.isEmpty
      ∧ (∀ {g g' : Generator}, Emit.stats ⟨tree, options, scope⟩ new g = .ok () g' →
        g'.draft σ'.nextBlock = Lexical.stats options p ss (g.draft σ.nextBlock))
      ∧ ∀ {previous : Option Position} {g g' : Generator},
        Emit.statsAfter ⟨tree, options, scope⟩ previous new g = .ok () g' →
          g'.draft σ'.nextBlock = Lexical.behind options p ss (g.draft σ.nextBlock) := by
  cases ss with
  | nil =>
    cases h
    refine ⟨[], (List.append_nil _).symm, rfl, fun run => ?_, fun run => ?_⟩ <;>
    · cases run
      rfl
  | cons s rest =>
    obtain ⟨s', τ, hs, hrest⟩ := EStateM.bind_eq_ok.1 h
    have here' := here.mono (stat_scoped here.room here.nests.around s hs).1.grows
    obtain ⟨_, -, taken, -⟩ := stats_scoped here.room here'.nests.around rest (s' :: done) hrest
    obtain ⟨new, rfl, -, -, later⟩ := stats_lexical here' rest (s' :: done) hrest grows
    refine ⟨s' :: new, by simp, rfl, fun run => ?_, fun run => ?_⟩
    · obtain ⟨_, t, first, others⟩ := EStateM.bind_eq_ok.1 run
      rw [later others, stat_lexical here s hs (taken.grows.trans grows) first]
      rfl
    · obtain ⟨_, t, popped, warned⟩ := EStateM.bind_eq_ok.1 run
      obtain ⟨_, t', warned, rest'⟩ := EStateM.bind_eq_ok.1 warned
      obtain ⟨_, t'', first, others⟩ := EStateM.bind_eq_ok.1 rest'
      rw [later others, stat_lexical here s hs (taken.grows.trans grows) first,
        Emit.draft_warnAfter warned, Emit.draft_instruction popped]
      rfl
termination_by structural ss

end

/-! ### Methods and main bodies -/

variable {σ σ' : Resolver} {g g' : Generator} {b : Block}

/-- What is around the statements of a method or main body. -/
theorem openCode_at {name : String} {kind : ScopeKind} {parent : ScopeId}
    {args locals fields : List String} {scope : ScopeId × List String}
    (room : fields.length ≤ maxSlots) (code : kind ≠ .global)
    (h : openCode name kind parent args locals σ = .ok scope σ') :
    Surroundings.At ⟨name, name, ⟨[args ++ locals], fields⟩⟩ σ'.tree [scope] scope.1 := by
  obtain ⟨nests, vars⟩ := openCode_nests h
  exact ⟨nests, rfl, by rw [← vars]; rfl, room, _, openCode_scope h, rfl, code⟩

theorem body_lexical (options : CompilerOptions) {p : Surroundings}
    {scope : ScopeId × List String} {b b' : Body} (here : p.At σ.tree [scope] scope.1)
    (h : body p.names.fields p.selector scope b σ = .ok b' σ') (grows : σ'.tree.Grows tree) :
    σ.tree.Grows σ'.tree ∧ b'.stop = b.stop ∧ b'.stats.isEmpty = b.stats.isEmpty
      ∧ ∀ {g g' : Generator}, (∀ n, g.draft n = { pool := options.pool, next := n }) →
        Emit.stats ⟨tree, options, scope.1⟩ b'.stats g = .ok () g' →
        g'.draft σ'.nextBlock = Lexical.stats options p b.stats { pool := options.pool } := by
  obtain ⟨_, hstats, rfl⟩ := body_eq_ok h
  have here' : p.At ({ σ with nextBlock := 0 } : Resolver).tree [scope] scope.1 := here
  obtain ⟨_, -, taken, -⟩ := stats_scoped here.room here'.nests.around b.stats [] hstats
  obtain ⟨_, rfl, empty, each, -⟩ := stats_lexical here' b.stats [] hstats grows
  exact ⟨taken.grows, rfl, empty, fun fresh run => by rw [each run, fresh]⟩

/-- **A method is compiled as its text**, whatever came before it. -/
theorem method_lexical {className : String} {classScope : ScopeId} {fields : List String}
    {seen : Std.HashMap String Unit} {m m' : Method}
    (room : fields.length ≤ maxSlots) (inClass : σ.tree.IsClass classScope className)
    (h : method className classScope fields seen m σ = .ok m' σ') (grows : σ'.tree.Grows tree)
    (made : Emit.method tree options m' g = .ok b g') :
    b = Lexical.method options className fields m := by
  have adds := (method_scoped room h).1
  have qualified := (inClass.mono (adds.grows.trans grows)).qualify m.selector
  cases method_resolves h with
  | primitive kind opens =>
    obtain ⟨_, t, ⟨⟩, hrest⟩ := EStateM.bind_eq_ok.1 made
    obtain ⟨compiled, t₁, hprimitive, hlast⟩ := EStateM.bind_eq_ok.1 hrest
    obtain ⟨_, t₂, ⟨⟩, ⟨⟩⟩ := EStateM.bind_eq_ok.1 hlast
    rw [Emit.primitiveMethod_eq_ok (grows _ _ (openCode_scope opens)) hprimitive, qualified,
      Lexical.method, kind]
  | code kind opens resolves =>
    have here := openCode_at room (by simp) opens
    have opened := openCode_scope opens
    obtain ⟨grows', stop, empty, each⟩ := body_lexical options here resolves grows
    obtain ⟨_, t, ⟨⟩, hrest⟩ := EStateM.bind_eq_ok.1 made
    obtain ⟨compiled, t₁, htable, hlast⟩ := EStateM.bind_eq_ok.1 hrest
    obtain ⟨_, t₂, hlog, ⟨⟩⟩ := EStateM.bind_eq_ok.1 hlast
    obtain ⟨t, t', build, fresh, drafted⟩ :=
      Emit.draft_withTable (grows _ _ (grows' _ _ opened)) rfl rfl htable
    obtain ⟨_, u, hstats, hrest⟩ := EStateM.bind_eq_ok.1 build
    have ended := Emit.draft_answer (n := σ'.nextBlock) hrest
    rw [each fresh hstats, empty, stop] at ended
    rw [drafted σ'.nextBlock, ended, qualified, Lexical.method, kind]
    rfl

/-- **A main body is compiled as its text.** -/
theorem mainBody_lexical {m m' : MainBody} (room : (σ.layouts.getD rootClass []).length ≤ maxSlots)
    (h : mainBody m σ = .ok m' σ') (grows : σ'.tree.Grows tree)
    (made : Emit.mainBody tree options m' g = .ok b g') :
    b = Lexical.mainBody options (σ.layouts.getD rootClass []) m := by
  obtain ⟨_, _, _, _, _, -, ⟨⟩, opens, resolves, rfl⟩ := mainBody_eq_ok h
  have here := openCode_at room (by simp) opens
  have opened := openCode_scope opens
  obtain ⟨grows', stop, empty, each⟩ := body_lexical options here resolves grows
  have added := σ.tree.isClass_add mainClass (some ScopeTree.globalId)
  have inClass := added.mono ((openCode_eq_ok opens).1.grows.trans (grows'.trans grows))
  obtain ⟨_, t, ⟨⟩, hrest⟩ := EStateM.bind_eq_ok.1 made
  obtain ⟨compiled, t₁, htable, hlast⟩ := EStateM.bind_eq_ok.1 hrest
  obtain ⟨_, t₂, hlog, ⟨⟩⟩ := EStateM.bind_eq_ok.1 hlast
  obtain ⟨t, t', build, fresh, drafted⟩ :=
    Emit.draft_withTable (grows _ _ (grows' _ _ opened)) rfl rfl htable
  obtain ⟨_, u, hvalues, hrest⟩ := EStateM.bind_eq_ok.1 build
  obtain ⟨v, pushed, hrest⟩ := Emit.draft_unless (n := σ'.nextBlock) hrest
  have ended := Emit.draft_closing (n := σ'.nextBlock) hrest
  rw [pushed, each fresh hvalues, empty, stop, Draft.add_add] at ended
  have qualified := inClass.qualify mainSelector
  rw [drafted σ'.nextBlock, ended]
  dsimp only [ScopeTree.add] at qualified ⊢
  rw [qualified]
  rfl

/-! ### Classes and programs -/

theorem methods_lexical {className : String} {classScope : ScopeId} {fields : List String}
    {seen : Std.HashMap String Unit} {ms ms' : List Method} (done : List Method) {bs : List Block}
    (room : fields.length ≤ maxSlots) (inClass : σ.tree.IsClass classScope className)
    (h : methods className classScope fields ms seen done σ = .ok (done.reverse ++ ms') σ')
    (grows : σ'.tree.Grows tree) (made : List.Forall₂ (Emit.Makes tree options) ms' bs) :
    bs = ms.map (Lexical.method options className fields) := by
  induction ms generalizing σ seen done ms' bs with
  | nil =>
    obtain rfl : ms' = [] := by
      have same : done.reverse = done.reverse ++ ms' := (EStateM.Result.ok.inj h).1
      simpa using same
    cases made
    rfl
  | cons m rest ih =>
    obtain ⟨m', τ, hm, hrest⟩ := EStateM.bind_eq_ok.1 h
    obtain ⟨adds, new, same, -⟩ := methods_scoped room hrest
    obtain rfl : ms' = m' :: new := by simpa using same
    rw [same] at hrest
    cases made with
    | cons first others =>
      obtain ⟨g, g', first⟩ := first
      have inClass' := inClass.mono (method_scoped room hm).1.grows
      rw [method_lexical room inClass hm (adds.grows.trans grows) first,
        ih (m' :: done) inClass' hrest others]
      rfl

/-- **A class is compiled as its text**, given the fields of the classes before it. -/
theorem cls_lexical {c c' : ClassDef} {C : CompiledClass} {before : List ClassDef}
    (knows : Knows σ before) (h : cls c σ = .ok c' σ') (grows : σ'.tree.Grows tree)
    (code : ClassCode (Emit.Makes tree options) c' C) :
    C = Lexical.cls options (c.inheritedFields before) c := by
  have all : c.inheritedFields before ++ c.fields = ClassDef.allFields (c :: before) c.name := by
    rw [ClassDef.allFields, if_pos rfl]
    rfl
  obtain ⟨knows', -, -, -, room, -⟩ := cls_knows knows h
  have layout := knows' c.name
  obtain ⟨_, _, ⟨⟩, hcls⟩ := EStateM.bind_eq_ok.1 h
  split at hcls
  · obtain ⟨_, _, ⟨⟩, _⟩ := EStateM.bind_eq_ok.1 hcls
  obtain ⟨inherited, _, hinherited, hfields⟩ := EStateM.bind_eq_ok.1 hcls
  obtain ⟨-, rfl⟩ := check_eq_ok.1 hinherited
  obtain ⟨fields, ρ, hadd, hscope⟩ := EStateM.bind_eq_ok.1 hfields
  obtain ⟨-, rfl⟩ := check_eq_ok.1 hadd
  split at hscope
  · obtain ⟨_, _, ⟨⟩, _⟩ := EStateM.bind_eq_ok.1 hscope
  obtain ⟨scope, τ, ⟨⟩, hmethods⟩ := EStateM.bind_eq_ok.1 hscope
  obtain ⟨ms, τ', hall, hlast⟩ := EStateM.bind_eq_ok.1 hmethods
  obtain ⟨_, _, ⟨⟩, ⟨⟩⟩ := EStateM.bind_eq_ok.1 hlast
  rw [Std.HashMap.getD_insert_self, ← all] at layout
  rw [← all] at room
  subst layout
  obtain ⟨name, superclass, fields, each⟩ := code
  have inClass := ρ.tree.isClass_add c.name (some ScopeTree.globalId)
  have made := methods_lexical [] room inClass hall grows each
  cases C
  simp_all [Lexical.cls]

theorem classes_lexical {cs done cs' before : List ClassDef} {Cs : List CompiledClass}
    (knows : Knows σ before) (h : classes cs done σ = .ok (done.reverse ++ cs') σ')
    (grows : σ'.tree.Grows tree)
    (code : List.Forall₂ (ClassCode (Emit.Makes tree options)) cs' Cs) :
    Cs = Lexical.classes options before cs := by
  induction cs generalizing σ done before cs' Cs with
  | nil =>
    obtain rfl : cs' = [] := by
      have same : done.reverse = done.reverse ++ cs' := (EStateM.Result.ok.inj h).1
      simpa using same
    cases code
    rfl
  | cons c rest ih =>
    obtain ⟨c', τ, hc, hrest⟩ := EStateM.bind_eq_ok.1 h
    obtain ⟨grows', -, new, same, -⟩ := classes_scoped hrest
    obtain rfl : cs' = c' :: new := by simpa using same
    rw [same] at hrest
    cases code with
    | cons first others =>
      rw [cls_lexical knows hc (grows'.trans grows) first,
        ih (cls_knows knows hc).1 hrest others]
      rfl

theorem program_lexical {p p' : Program} {cs : List CompiledClass} (h : program p {} = .ok p' σ)
    (generated : Emit.program σ.tree options p' g = .ok cs g') :
    cs = Lexical.program options p := by
  have start : Knows {} [] := fun name => Std.HashMap.getD_empty
  obtain ⟨compiled, code, without, with_⟩ := Emit.program_makes generated
  cases program_resolves h with
  | bare hm hclasses =>
    rw [without rfl, Lexical.program, hm, classes_lexical start hclasses (.refl _) code]
    exact (List.append_nil _).symm
  | main hm hclasses hbody =>
    have room := room_of_classes hclasses
    have grows := (mainBody_scoped hbody room).1
    obtain ⟨b, t, t', made, rfl⟩ := with_ _ rfl
    have knows := (classes_show (R := fun _ _ _ => True) (fun _ _ _ => trivial) start hclasses
      (.refl _)).1 rootClass
    rw [List.append_nil] at knows
    rw [Lexical.program, hm, classes_lexical start hclasses grows code,
      mainBody_lexical room hbody (.refl _) made, knows]
    rfl

end Resolve

/-- **An accepted program is compiled as its text.** -/
theorem compileBare_lexical {options : CompilerOptions} {p : Program} {log : Log}
    {compiled : CompiledProgram} (accepted : compileBare options p = (log, .ok compiled)) :
    compiled.classes = Lexical.program options p := by
  obtain ⟨_, _, _, _, hp, hcs, rfl⟩ := Direct.compileBare_phases accepted
  exact Resolve.program_lexical hp hcs

end Colloquy
