import Colloquy.Proofs.Compile.Layout
import Colloquy.Proofs.Compile.Warnings
import Colloquy.Proofs.Direct.Sessions
import Colloquy.Proofs.Trimmed.Steps

/-!
# Statements behind a return

A program is compiled as it is and with one body cut off behind a return.  The compiler warns of
what stands behind returns, and nothing else is lost: the code of the body is the same as far as it
is ever carried out, and a host that holds the same session with both programs is told the same.
Only traces and the numbers of nested blocks, which are in their names, may be others.

Main statement: `statements_behind_returns_are_dead`.  Identity hashes have to be left out of it:
`hashes_tell_of_dead_statements`.
-/

namespace Colloquy

/-! ## Programs behind the class library -/

/-- The place of code in a program, once the methods of some classes come before its own. -/
def BlockId.behind (front : List ClassDef) (id : BlockId) : BlockId :=
  { id with method := (front.flatMap (·.methods)).length + id.method }

namespace Program

variable {x : DeadEnd} {p p' : Program} {place : BlockId}

/-- **The same body** of the program behind the class library is cut off. -/
theorem Cut.onLibrary (h : p.Cut x place p') :
    p.onLibrary.Cut x (place.behind Library.classes) p'.onLibrary := by
  cases h with
  | @method path before after c ms ms' m m' classes methods h =>
    have split : p.onLibrary.classes = (Library.classes ++ before) ++ c :: after := by
      rw [Program.onLibrary, classes, List.append_assoc]
    have cut := Cut.method split methods h
    rw [List.flatMap_append, List.length_append, Nat.add_assoc, List.append_assoc] at cut
    exact cut
  | @main path m stats found h =>
    have cut := Cut.main (p := p.onLibrary) found h
    rw [show p.onLibrary.classes = Library.classes ++ p.classes from rfl, List.flatMap_append,
      List.length_append] at cut
    exact cut

/-- There are no returns in the class library. -/
theorem strays_onLibrary (p : Program) : p.onLibrary.strays = p.strays := by
  have library : ((Library.classes.flatMap (·.methods.flatMap Method.bodies)).map
      Stat.strays).sum = 0 := by decide
  simp only [strays, bodies, Program.onLibrary, List.flatMap_append, List.map_append,
    List.sum_append, library, Nat.zero_add]

end Program

/-! ## Main result -/

/-- The second program comes of the first one by leaving out statements behind a return in the body
at the given place. -/
structure CompiledProgram.Shortens (options : CompilerOptions) (place : BlockId)
    (p p' : CompiledProgram) : Prop where
  /-- The body has the same code up to the return, and no literals but the first ones. -/
  body : ∃ b b' ending, codeAt p.methods place = some b ∧ codeAt p'.methods place = some b'
    ∧ b.CutTo options ending b'
  /-- No host can tell the programs apart, but by the names of blocks. -/
  indistinct : ∃ σ, Function.Injective σ
    ∧ p.IndistinctUpTo (p.trimming p' place.method σ).correspondence p'

namespace CompiledProgram.CutAt

variable {options : CompilerOptions} {place : BlockId} {σ : Nat → Nat} {p p' : CompiledProgram}

theorem shortens (h : p.CutAt options place σ p') : p.Shortens options place p' := by
  obtain ⟨m, m', here, here', cut⟩ := h.method
  refine ⟨?_, σ, cut.injective, ?_⟩
  · obtain ⟨b, b', ending, inner, inner', code⟩ := cut.body
    refine ⟨b, b', ending, ?_, ?_, code⟩
    · rw [codeAt, blockAt_eq, here]
      exact inner
    · rw [codeAt, blockAt_eq, here']
      exact inner'
  · exact CompiledProgram.indistinctUpTo h.sound.lawful h.load h.sound.inStep

end CompiledProgram.CutAt

/-- If methods that something has been left out of take no identity hashes, neither did they
before. -/
theorem Trimming.Sound.hashless {T : Trimming} (sound : T.Sound) (none : Hashless T.short) :
    Hashless T.full := by
  intro b hb
  obtain ⟨n, here⟩ := List.getElem?_of_mem hb
  have methods := sound.methods n
  rw [here] at methods
  generalize short : T.short[n]? = o at methods
  cases methods with
  | @some _ b' trims =>
    rw [← trims.trims.primitive]
    exact none b' (List.mem_of_getElem? short)

/-- **What is left of a program** is accepted and shortens it. -/
theorem compileBare_shortens {options : CompilerOptions} {x : DeadEnd} {p p' : Program}
    {place : BlockId} {log : Log} {compiled : CompiledProgram} (h : p.Cut x place p')
    (accepted : compileBare options p = (log, .ok compiled)) :
    ∃ log' compiled', compileBare options p' = (log', .ok compiled')
      ∧ compiled.Shortens options place compiled' := by
  obtain ⟨log', compiled', accepted'⟩ := h.accepted accepted
  obtain ⟨σ, cut⟩ := compileBare_cut h accepted accepted'
  exact ⟨log', compiled', accepted', cut.shortens⟩

/-! ### A program -/

/-- A main body that goes on behind the value of a block: it asks another block to return. -/
def deadValue : DeadEnd where
  before := [.assign { name := "x" } (.literal (.int 3)) {}]
  result := .send (.block {} [.expr (.ident { name := "x" })]) "value" [] {}
  position := {}
  after := [.expr (.send (.block {} [.ret (.ident { name := "x" }) {}]) "value" [] {})]

def deadValueProgram : Program :=
  { Direct.blockProgram with
    main := some { locals := ["x"], body := { stats := deadValue.whole } } }

theorem deadValueProgram_cut : deadValueProgram.Cut deadValue ⟨1, []⟩ Direct.blockProgram :=
  @Program.Cut.main deadValue deadValueProgram [] _ _ rfl .own

theorem deadValueProgram_compiles :
    ∃ log compiled, compileBare {} deadValueProgram = (log, .ok compiled) := by
  obtain ⟨log, compiled, accepted, -⟩ := Direct.blockProgram_compiles true
  obtain ⟨formed, generable⟩ := Program.accepted_iff.1 ⟨log, compiled, accepted⟩
  -- the classes are those of the other program
  refine Program.accepted_iff.2 ⟨⟨formed.distinct, fun _ => formed.mainName rfl, formed.root,
    formed.superclass, formed.classes, ?_⟩, generable.methods, ?_⟩
  · rintro _ ⟨⟩
    have plain : Declarable [] [] := ⟨by decide, by decide⟩
    exact ⟨⟨by decide, by decide⟩, List.forall_mem_cons.2 ⟨plain, List.forall_mem_cons.2
      ⟨plain, List.forall_mem_nil _⟩⟩, by decide⟩
  · rintro _ ⟨⟩ _ ⟨⟩
    refine ⟨⟨?_, by decide⟩, List.forall_mem_cons.2 ⟨⟨?_, by decide⟩,
      List.forall_mem_cons.2 ⟨⟨?_, by decide⟩, List.forall_mem_nil _⟩⟩⟩
    · have known : Names.find ⟨[["x"]], deadValueProgram.fieldsOf rootClass⟩ "x" ≠ .global := by
        decide
      simpa [deadValue, DeadEnd.whole, DeadEnd.upTo, Stat.itemsAll, Stat.items, Expr.items,
        Expr.itemsAll, Item.Fits] using known
    · simp [Stat.itemsAll, Stat.items, Expr.items, Item.Fits]
    · simp [Stat.itemsAll, Stat.items, Expr.items, Item.Fits]

/-! ### All programs -/

/-- **Statements behind a return are dead, and the compiler says so.**  A program that is accepted,
with the class library in front of it or without, comes with one warning for each return that is not
the last statement of its body.  What is left of it is accepted too when a body, be it of a method,
of a block literal or the main body, is cut off behind a return.  The code of that body is the same
up to and including the return, and its literals are the first ones that it had.  No host can tell
the programs apart, but by traces and by the names of blocks in faults, as long as no identity hash
of an object is taken. -/
theorem statements_behind_returns_are_dead
    {entry : CompilerOptions → Program → Log × Except CompileError CompiledProgram}
    {front : List ClassDef}
    (which : entry = compile ∧ front = Library.classes ∨ entry = compileBare ∧ front = [])
    {options : CompilerOptions} {p : Program} {log : Log} {compiled : CompiledProgram}
    (accepted : entry options p = (log, .ok compiled)) :
    compiled.warnings.length = p.strays
      ∧ ∀ x place p', p.Cut x place p' →
        ∃ log' compiled', entry options p' = (log', .ok compiled')
          ∧ compiled.Shortens options (place.behind front) compiled' := by
  rcases which with ⟨rfl, rfl⟩ | ⟨rfl, rfl⟩
  · have accepted : compileBare options p.onLibrary = (log, .ok compiled) := accepted
    refine ⟨(compileBare_warnings accepted).trans p.strays_onLibrary, fun x place p' cut => ?_⟩
    exact compileBare_shortens cut.onLibrary accepted
  · refine ⟨compileBare_warnings accepted, fun x place p' cut => ?_⟩
    have same : place.behind [] = place := congrArg (BlockId.mk · place.path) (Nat.zero_add _)
    rw [same]
    exact compileBare_shortens cut accepted

/-- The main body is run twice as it is and cut off behind its return, with a message in between
that an integer does not understand. -/
theorem statements_behind_returns_are_dead_value :
    ∃ log log' compiled compiled', compileBare {} deadValueProgram = (log, .ok compiled)
      ∧ compileBare {} Direct.blockProgram = (log', .ok compiled')
      ∧ compiled.warnings.length = 1
      ∧ ∃ σ, ∃ (machine machine' : Machine) (store store' : Store),
        compiled.load = .ok (machine.image, store) ∧ compiled'.load = .ok (machine'.image, store')
        ∧ machine.QuietSession { memory := { store, transcript := {}, logging := false } } []
          [.main, .send 0 "value" [], .main]
        ∧ List.Forall₂ (Machine.Outcome.Matches (compiled.trimming compiled' 1 σ).correspondence)
          (machine.session { memory := { store, transcript := {}, logging := false } } []
            [.main, .send 0 "value" [], .main])
          (machine'.session { memory := { store := store', transcript := {}, logging := true } } []
            [.main, .send 0 "value" [], .main]) := by
  obtain ⟨log, compiled, accepted⟩ := deadValueProgram_compiles
  obtain ⟨_, short, accepted', ⟨_, image', store', loaded'⟩, hashless⟩ :=
    Direct.blockProgram_compiles true
  have accepted' : compileBare {} Direct.blockProgram = (_, .ok short) := accepted'
  have loaded' : short.load = .ok (image', store') := congrArg Prod.snd loaded'
  obtain ⟨warned, cuts⟩ := statements_behind_returns_are_dead (.inr ⟨rfl, rfl⟩) accepted
  obtain ⟨log', compiled', again, -, σ, -, same⟩ := cuts _ _ _ deadValueProgram_cut
  obtain ⟨rfl, ⟨⟩⟩ := Prod.mk.inj (accepted'.symm.trans again)
  obtain ⟨⟨image, store⟩, loaded⟩ : ∃ r, compiled.load = .ok r := by
    rcases same.loads.cases with ⟨r, _, loaded, -⟩ | ⟨_, -, failed⟩
    · exact ⟨r, loaded⟩
    · cases loaded'.symm.trans failed
  -- neither program has a method that takes identity hashes
  obtain ⟨_, cut⟩ := compileBare_cut deadValueProgram_cut accepted accepted'
  have none : Hashless compiled.methods := by
    refine cut.sound.hashless fun b hb => ?_
    obtain ⟨c, hc, hb⟩ := List.mem_flatMap.1 hb
    exact hashless c hc b hb
  have follows := @compileBare_follows {} { debugInfo := false } rfl deadValueProgram
  rw [accepted] at follows
  generalize (compileBare { debugInfo := false } deadValueProgram).2 = r at follows
  cases follows with
  | @ok _ plain warnings classes =>
    have quiet := @CompiledProgram.quietSession_of_hashless { image } compiled plain classes none
      store loaded {} false [.main, .send 0 "value" [], .main]
    exact ⟨log, _, compiled, short, accepted, accepted', warned, σ, { image }, { image := image' },
      store, store', loaded, loaded', quiet, @CompiledProgram.IndistinctUpTo.sessions _ _ _ same
        { image } { image := image' } store store' loaded loaded' rfl {} false true _ quiet⟩

/-! ### Identity hashes -/

/-- A body that takes the identity hash of a literal. -/
def hashingBody : List Stat := [.expr (.send (.literal (.string "a")) "hash" [] {})]

/-- A block that returns, and has another block behind the return. -/
def hiddenBlock : DeadEnd where
  before := []
  result := .literal (.int 1)
  position := {}
  after := [.expr (.block {} [.expr (.literal (.int 2))])]

/-- A main body that makes a block, and returns the value of the next one: the identity hash of a
literal. -/
def hashingProgram (body : List Stat) : Program :=
  { classes :=
      ["Object", "UndefinedObject", "Boolean", "Integer", "Float", "Character", "Array",
        "TranscriptStream"].map (fun name => { name })
        ++ [{ name := "String"
              methods := [{ selector := "hash", kind := .primitive "Object_HASH" }] },
            { name := "BlockDescriptor"
              methods := [{ selector := "value", kind := .primitive "BlockDescriptor_VALUE" }] }]
    main := some { body := { stats := [.expr (.block {} body),
      .ret (.send (.block {} hashingBody) "value" [] {}) {}] } } }

theorem hashingProgram_cut :
    (hashingProgram hiddenBlock.whole).Cut hiddenBlock ⟨2, [0]⟩
      (hashingProgram hiddenBlock.upTo) :=
  @Program.Cut.main hiddenBlock (hashingProgram hiddenBlock.whole) [0] _ _ rfl
    (.inside (.head _ (.expr (.body {}))))

namespace Direct

/-- What evaluation finds of such a main body, whose second statement has block `k` of the method in
it. -/
@[mk_iff]
structure Setting.Hashing (x : Setting) (k : UInt16) (main : Class) (entry first inner : Code) :
    Prop where
  main : x.image.byName[mainClass]? = some main ∧ main.lookup mainSelector = some entry
  value : ∃ code, x.image.known.block.lookup "value" = some code
    ∧ code.block.primitive = some .blockValue ∧ code.block.classSide = false
  hash : ∃ code, x.image.known.string.lookup "hash" = some code
    ∧ code.block.primitive = some .objectHash ∧ code.block.classSide = false
  code : entry.block.primitive = none ∧ entry.block.nargs = 0 ∧ inner.block.nargs = 0
  nested : entry.nested? 0 = some first ∧ entry.nested? k.toNat = some inner
  literal : inner.block.literals.toList.idxOf "a" = 0
  source : ∃ scope head head' body, x.program.source? entry.id
    = some ⟨scope, [.expr (.block head body),
        .ret (.send (.block head' hashingBody) "value" [] {}) {}], .main⟩
      ∧ head.index = 0 ∧ head'.index = k
  innerSource : ∃ scope, x.program.source? inner.id = some ⟨scope, hashingBody, .block⟩

namespace Setting.Hashing

variable {x : Setting} {k : UInt16} {main : Class} {entry first inner : Code} {w : World}

/-- A block is asked for its value. -/
theorem dispatch_value (h : x.Hashing k main entry first inner) (call : Callee → Eval Value)
    {c : Closure Value} (nargs : c.code.block.nargs = 0) :
    dispatch x call (x.image.method (.block c) "value") (.block c) [] w = call (.block c []) w := by
  obtain ⟨code, found, primitive, side⟩ := h.value
  have method : x.image.method (.block c) "value" = .ok code := by
    simp [Image.method, Image.methodFrom, Image.classOf, found, side, Value.isClass]
  have replies : invoke x.image w.memory (.block c) code [] = .enter (.block c []) w.memory := by
    simp [invoke, Code.arity, primitive, Primitive.arity, Primitive.apply, Primitive.enter,
      Primitive.blockToEnter, Primitive.expectBlock, Primitive.matching, nargs, bind, Except.bind]
  simp [dispatch, method, replies, conclude, bind, EStateM.bind, EStateM.get_apply, modify,
    EStateM.modifyGet_apply]

/-- A string is asked for its hash. -/
theorem dispatch_hash (h : x.Hashing k main entry first inner) (call : Callee → Eval Value)
    (id : StringId) (text : String) :
    dispatch x call (x.image.method (.string id text) "hash") (.string id text) [] w
      = .ok (.int (Value.string id text).identityHash) w := by
  obtain ⟨code, found, primitive, side⟩ := h.hash
  have method : x.image.method (.string id text) "hash" = .ok code := by
    simp [Image.method, Image.methodFrom, Image.classOf, found, side, Value.isClass]
  have replies : invoke x.image w.memory (.string id text) code []
      = .answer (.int (Value.string id text).identityHash) w.memory := by
    simp [invoke, Code.arity, primitive, Primitive.arity, Primitive.apply]
  simp [dispatch, method, replies, conclude, bind, EStateM.bind, EStateM.get_apply, modify,
    EStateM.modifyGet_apply, pure, EStateM.pure]

/-- The value of the block is the hash of the literal in it. -/
theorem enter_block (h : x.Hashing k main entry first inner) (room : Nat) (active : List Nat)
    {c : Closure Value} (code : c.code = inner) :
    ∃ a, enter x (room + 1) active (.block c []) w
      = .ok (.int (Value.string (.literal inner.id 0) "a").identityHash)
        { w with activations := w.activations.push a } := by
  obtain ⟨scope, source⟩ := h.innerSource
  refine ⟨w.activationOf x ⟨scope, hashingBody, .block⟩ w.activations.size (.block c []), ?_⟩
  simp [enter, Callee.code, code, source, catching, hashingBody, stats, stat, expr, exprs, constant,
    h.literal, h.dispatch_hash, World.begin, World.activation, World.activationOf, World.answer,
    bind, EStateM.bind, pure, EStateM.pure, EStateM.get_apply, modify, EStateM.modifyGet_apply]

/-- The main body answers the hash. -/
theorem runMain_eq (h : x.Hashing k main entry first inner) (room : Nat) (memory : Memory) :
    (runMain x (room + 2) { memory }).1
      = .ok (.int (Value.string (.literal inner.id 0) "a").identityHash) := by
  obtain ⟨scope, head, head', body, source, index, index'⟩ := h.source
  have entered (w : World) (active : List Nat) (c : Closure Value) (code : c.code = inner) :=
    h.enter_block room active (w := w) code
  choose a entered using entered
  simp only [runMain, h.main, perform, invoke, Code.arity, h.code, List.length_nil, ne_eq,
    not_true_eq_false, if_false, conclude]
  -- only the main body is looked into: what the block comes to is known
  rw [enter]
  simp [Callee.code, source, catching, stats, stat, expr, exprs, index, index',
    h.nested, h.dispatch_value, h.code, entered, giveBack, settle, instantiate, World.newClosure,
    World.begin, World.activation, World.activationOf, bind, EStateM.bind, pure, EStateM.pure,
    EStateM.get_apply, modify, EStateM.modifyGet_apply, EStateM.throw_apply]

end Setting.Hashing

end Direct

/-- The program is accepted with the other block and without it, and can be loaded. -/
theorem hashingProgram_loads {body : List Stat} {k : UInt16}
    (h : body = hiddenBlock.whole ∧ k = 2 ∨ body = hiddenBlock.upTo ∧ k = 1) :
    ∃ log compiled log' image store log'' r main entry first inner,
      compileBare { debugInfo := false } (hashingProgram body) = (log, .ok compiled)
        ∧ Image.load (LoadClass.ofProgram compiled.classes 0).1 = (log', .ok (image, store))
        ∧ resolve (hashingProgram body) = (log'', .ok r) ∧ inner.id = ⟨2, [k.toNat]⟩
        ∧ Direct.Setting.Hashing ⟨r.program, r.tree, image⟩ k main entry first inner := by
  have value : Primitive.ofTag? "BlockDescriptor_VALUE" = some .blockValue := by decide
  have hash : Primitive.ofTag? "Object_HASH" = some .objectHash := by decide
  have number₀ : "main-block" ++ Nat.repr 0 = "main-block0" := by decide
  have number₁ : "main-block" ++ Nat.repr 1 = "main-block1" := by decide
  have number₂ : "main-block" ++ Nat.repr 2 = "main-block2" := by decide
  have places : Array.replicate 2 (none : Option Block) = #[none, none] := rfl
  rcases h with ⟨rfl, rfl⟩ | ⟨rfl, rfl⟩ <;>
    simp [hashingProgram, hiddenBlock, DeadEnd.whole, DeadEnd.upTo, hashingBody, value, hash,
      number₀, number₁, number₂, places, compileBare, resolve, Resolve.program, Resolve.classes,
      Resolve.cls, Resolve.methods, Resolve.method, Resolve.inheritedFields, Resolve.superclassOf,
      Resolve.addFields, Resolve.check, Resolve.addScope, Resolve.openCode, Resolve.checkVars,
      Resolve.mainBody, Resolve.body, Resolve.stats, Resolve.stat, Resolve.expr, Resolve.exprs,
      Resolve.openBlock, Resolve.takeBlockIndex, Resolve.maxSlots, mainClass, mainSelector,
      rootClass, ScopeTree.globalId, ScopeTree.add, ScopeTree.empty, generate, Emit.program,
      Emit.cls, Emit.method, Emit.scopeOf, Emit.qualifiedName, Emit.report, Emit.withTable,
      Emit.inBlock, Emit.primitiveMethod, Emit.mainAsClass, Emit.mainBody, Emit.exprs, Emit.enter,
      Emit.growTo, Emit.warn, Emit.stats, Emit.stat, Emit.mark, Emit.expr, Emit.constant,
      Emit.literal, Emit.instruction, Emit.statsAfter, Emit.warnAfter, Emit.returnPosition,
      Emit.finish, Emit.takeBlocks, Emit.tableBlocks, Emit.check, short, Primitive.arity,
      LiteralPool.insert, LiteralPool.capacity, ScopeTree.qualifiedName, ScopeTree.get?,
      LoadClass.ofProgram, LoadClass.ofCompiled, Image.load, Image.installAll, Image.install,
      Image.inherited, Image.linkAll, Image.link, Image.finish, Image.knownClasses, Image.required,
      Class.lookup, Class.chain, Direct.Setting.hashing_iff, Program.source?,
      Program.methodSource?, Program.sources, Method.source, MainBody.source, blockSource,
      Stat.blocksAll, Stat.blocks, Expr.blocks, Expr.blocksAll, Code.nested?,
      Std.HashMap.getElem_insert, bind, EStateM.bind, pure, EStateM.pure, EStateM.get_apply, modify,
      EStateM.modifyGet_apply, throw, throwThe, MonadExceptOf.throw, Except.bind, Except.pure]

/-- The main body answers the hash of the literal in block `k` of the method. -/
theorem hashingProgram_answers {body : List Stat} {k : UInt16}
    (h : body = hiddenBlock.whole ∧ k = 2 ∨ body = hiddenBlock.upTo ∧ k = 1) :
    ∃ log compiled, ∃ (machine : Machine) (store : Store) (s : State),
      compileBare { debugInfo := false } (hashingProgram body) = (log, .ok compiled)
        ∧ compiled.load = .ok (machine.image, store)
        ∧ machine.runMain (Machine.start store {})
          = .value (.int (Value.string (.literal ⟨2, [k.toNat]⟩ 0) "a").identityHash) s := by
  obtain ⟨log, compiled, log', image, store, log'', r, main, entry, first, inner, accepted, loaded,
    resolved, place, hashing⟩ := hashingProgram_loads h
  have loads : Direct.Loads { image } store { debugInfo := false } (hashingProgram body) :=
    ⟨compiled, log', .bare accepted, loaded⟩
  obtain ⟨_, _, resolved', sound⟩ := loads.sound
  cases resolved.symm.trans resolved'
  have tells := @Direct.main_tells { image } _ _ _ rfl sound
    (Direct.holds_start sound loaded {} false).shows
  obtain ⟨s, ran⟩ := tells.int (hashing.runMain_eq 9998 { store })
  rw [place] at ran
  exact ⟨log, compiled, { image }, store, s, accepted, congrArg Prod.snd loaded, ran⟩

/-- **A hash tells of dead statements.**  With the block behind the return the hash is that of a
literal in block `2` of the main body, and without it that of one in block `1`: these are different
objects, and the main body answers different integers. -/
theorem hashes_tell_of_dead_statements : ∃ (log log' : Log) (compiled compiled' : CompiledProgram)
    (machine machine' : Machine) (store store' : Store) (a b : Int32) (s s' : State),
    (hashingProgram hiddenBlock.whole).Cut hiddenBlock ⟨2, [0]⟩ (hashingProgram hiddenBlock.upTo)
      ∧ compileBare { debugInfo := false } (hashingProgram hiddenBlock.whole) = (log, .ok compiled)
      ∧ compileBare { debugInfo := false } (hashingProgram hiddenBlock.upTo) = (log', .ok compiled')
      ∧ compiled.load = .ok (machine.image, store)
      ∧ compiled'.load = .ok (machine'.image, store')
      ∧ machine.runMain (Machine.start store {}) = .value (.int a) s
      ∧ machine'.runMain (Machine.start store' {}) = .value (.int b) s' ∧ a ≠ b := by
  obtain ⟨log, compiled, machine, store, s, accepted, loaded, answers⟩ :=
    hashingProgram_answers (.inl ⟨rfl, rfl⟩)
  obtain ⟨log', compiled', machine', store', s', accepted', loaded', answers'⟩ :=
    hashingProgram_answers (.inr ⟨rfl, rfl⟩)
  exact ⟨log, log', compiled, compiled', machine, machine', store, store', _, _, s, s',
    hashingProgram_cut, accepted, accepted', loaded, loaded', answers, answers', by decide⟩

end Colloquy
