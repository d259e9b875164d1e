import Colloquy.Proofs.Compile.Loading
import Colloquy.Proofs.Compile.Sealing

/-!
# Compiled code can be verified

A check of compiled code that knows nothing of the tree that it came from: all of the code can be
read, every operand refers to something that is there, no instruction finds too few operands on the
stack, and the last instruction ends the call (`Block.Verified`).  What a `block` instruction refers
to is code that stands inside the code around it (`Nested`); the frames that it can reach are those
of the code around it.

Main statement: everything that the compiler makes of a program passes (`compiled_code_verifies`).
-/

namespace Colloquy

open Instruction (Reads stored)

/-! ## The check -/

namespace Instruction

/-- How many operands an instruction finds on the stack. -/
def takes : Instruction → Nat
  | pushArray size => size.toNat
  | pop | storeField _ | storeLocal _ _ | ret | blockReturn => 1
  | send argc _ | sendSuper argc _ => argc.toNat + 1
  | _ => 0

/-- How many operands an instruction leaves in their place; a return leaves its value. -/
def leaves : Instruction → Nat
  | pop | debug _ _ => 0
  | _ => 1

/-- The height of the stack after a straight line of instructions; nothing if one of them finds too
few operands. -/
def height : List Instruction → Nat → Option Nat
  | [], h => some h
  | i :: rest, h => if i.takes ≤ h then height rest (h - i.takes + i.leaves) else none

/-- What instructions may refer to. -/
structure Limits where
  /-- Whether source positions are recorded. -/
  debugInfo : Bool
  /-- The number of literals of the block. -/
  literals : Nat
  /-- The number of blocks nested in the method. -/
  blocks : Nat
  /-- The sizes of the frames that can be reached, the block's own first. -/
  frames : List Nat
  /-- The number of fields of the class. -/
  fields : Nat

/-- The operands refer to something that is there. -/
def Fits (limits : Limits) : Instruction → Prop
  | pushLiteral n | pushGlobal n | send _ n | sendSuper _ n => n.toNat < limits.literals
  | debug file _ =>
    limits.debugInfo = true ∧ file = Emit.fileLiteral ∧ file.toNat < limits.literals
  | pushChar code => (charOfShort? code).isSome
  | block k => k.toNat < limits.blocks
  | pushLocal depth slot | storeLocal depth slot =>
    ∃ size, limits.frames[depth.toNat]? = some size ∧ slot.toNat < size
  | pushField n | storeField n => n.toNat < limits.fields
  | _ => True

end Instruction

/-- The block, which is code of method `m` or of a block nested in it, with the code `around` it,
passes the check and ends with the instruction `last`. -/
structure Block.Verified (options : CompilerOptions) (m : Block) (fields : Nat)
    (last : Instruction) (around : List Block) (b : Block) : Prop where
  readable : (Instruction.decodeFrom b.bytecode 0).error = none
  whole : (Instruction.decodeFrom b.bytecode 0).stop = b.bytecode.size
  file : FileFirst options b.literals
  operands : ∀ i ∈ b.instructions, i.Fits
    { debugInfo := options.debugInfo, literals := b.literals.size, blocks := m.blocks.size,
      frames := (b :: around).map Block.frameSize, fields }
  ends : ∃ before h, b.instructions = before ++ [last]
    ∧ Instruction.height before 0 = some (h + 1)

/-- A block of method `m` with the code around it, innermost first. -/
inductive Nested (m : Block) : List Block → Prop where
  | outermost : Nested m [m]
  | inside {outer b : Block} {rest : List Block} {k : UInt16} (around : Nested m (outer :: rest))
      (made : .block k ∈ outer.instructions) (entry : m.blocks[k.toNat]? = some b) :
      Nested m (b :: outer :: rest)

/-- The number of fields of a class with the given name, all inherited ones included; `classes` are
the classes so far, the last one first. -/
def fieldCount : (classes : List CompiledClass) → Option String → Nat
  | [], _ => 0
  | _ :: _, none => 0
  | c :: earlier, some name =>
    if c.name = name then c.fields.length + fieldCount earlier c.superclass
    else fieldCount earlier (some name)

/-- The number of fields of a class that comes after the classes `before`. -/
def CompiledClass.fieldCount (before : List CompiledClass) (c : CompiledClass) : Nat :=
  c.fields.length + Colloquy.fieldCount before.reverse c.superclass

/-- A method of a class with the given number of fields passes the check, with every block nested in
it; and every entry of its table is nested in it. -/
structure Block.Passes (options : CompilerOptions) (fields : Nat) (m : Block) : Prop where
  primitive : ∀ p, m.primitive = some p → m.IsPrimitive p
  method : m.primitive = none → Block.Verified options m fields .ret [] m
  block : m.primitive = none → ∀ b outer rest, Nested m (b :: outer :: rest) →
    Block.Verified options m fields .blockReturn (outer :: rest) b
  nested : m.primitive = none → ∀ b ∈ m.blocks, ∃ outer rest, Nested m (b :: outer :: rest)

/-! ## Heights -/

namespace Instruction

variable {is js : List Instruction} {a b c : Nat}

theorem height_append (is js : List Instruction) (h : Nat) :
    height (is ++ js) h = (height is h).bind (height js) := by
  induction is generalizing h with
  | nil => rfl
  | cons i rest ih =>
    rw [List.cons_append, height, height]
    split
    · exact ih _
    · rfl

/-- Instructions that find `a` operands and leave `b` in their place. -/
def Raises (is : List Instruction) (a b : Nat) : Prop := ∀ h, height is (h + a) = some (h + b)

theorem Raises.append (first : Raises is a b) (later : Raises js b c) : Raises (is ++ js) a c := by
  intro h
  rw [height_append, first h, Option.bind_some, later h]

theorem raises_nil (a : Nat) : Raises [] a a := fun _ => rfl

theorem raises_one (i : Instruction) : Raises [i] i.takes i.leaves := by
  intro h
  rw [height, if_pos (Nat.le_add_left _ _), Nat.add_sub_cancel]
  rfl

/-- What lies below stays where it is. -/
theorem Raises.above (h : Raises is a b) (n : Nat) : Raises is (n + a) (n + b) := by
  intro k
  rw [← Nat.add_assoc, h, Nat.add_assoc]

theorem raises_marks {ks : List Instruction} (marks : Marks ks) (n : Nat) : Raises ks n n := by
  rcases marks with rfl | ⟨file, position, rfl⟩
  · exact raises_nil n
  · exact (raises_one (.debug file position)).above n

end Instruction

open Instruction (Raises raises_nil raises_one raises_marks)

/-! ## Where instructions stand -/

/-- The block is code for a body, and the scopes around the body are the given ones. -/
structure Stands (x : Site) (blocks : Array Block) (source : Source) (around : List ScopeId)
    (b : Block) : Prop where
  compiled : BodyCode x.tree blocks source b
  resolved : ∀ s ∈ source.stats, Stat.Scoped x (source.scope :: around) s
  slots : ∃ s, x.tree.get? source.scope = some s ∧ s.nargs ≤ s.vars.length
  linked : x.tree.Linked (source.scope :: around)

/-- What the operands of an instruction refer to, for code with the given scopes around it,
innermost first. -/
def Instruction.Sits (x : Site) (blocks : Array Block) (chain : List ScopeId)
    (lits : Array String) : Instruction → Prop
  | pushLiteral n | pushGlobal n | send _ n | sendSuper _ n => n.toNat < lits.size
  | pushChar code => (charOfShort? code).isSome
  | pushField n | storeField n => n.toNat < x.fields
  | pushLocal depth slot | storeLocal depth slot =>
    ∃ id s, chain[depth.toNat]? = some id ∧ x.tree.get? id = some s ∧ slot.toNat < s.vars.length
  | block k => ∃ scope stats b, blocks[k.toNat]? = some b
    ∧ Stands x blocks ⟨scope, stats, .block⟩ chain b
  | _ => True

/-- Instructions whose operands are in order, and that raise the stack as given. -/
structure Flows (x : Site) (blocks : Array Block) (chain : List ScopeId) (lits : Array String)
    (is : List Instruction) (a b : Nat) : Prop where
  sits : ∀ i ∈ is, i.Sits x blocks chain lits
  raises : Raises is a b

section Code

variable {x : Site} {blocks : Array Block} {scope : ScopeId} {around : List ScopeId}
  {chain : List ScopeId} {lits : Array String} {is js ks : List Instruction} {i : Instruction}
  {a b c n : Nat}

theorem Flows.append (first : Flows x blocks chain lits is a b)
    (later : Flows x blocks chain lits js b c) : Flows x blocks chain lits (is ++ js) a c :=
  ⟨List.forall_mem_append.2 ⟨first.sits, later.sits⟩, first.raises.append later.raises⟩

theorem flows_nil (a : Nat) : Flows x blocks chain lits [] a a :=
  ⟨List.forall_mem_nil _, raises_nil a⟩

theorem flows_one (hi : i.Sits x blocks chain lits) (takes : i.takes = a) (leaves : i.leaves = b) :
    Flows x blocks chain lits [i] a b :=
  ⟨List.forall_mem_singleton.2 hi, takes ▸ leaves ▸ raises_one i⟩

theorem Flows.above (h : Flows x blocks chain lits is a b) (n : Nat) :
    Flows x blocks chain lits is (n + a) (n + b) := ⟨h.sits, h.raises.above n⟩

theorem flows_marks (marks : Marks ks) (n : Nat) : Flows x blocks chain lits ks n n := by
  refine ⟨?_, raises_marks marks n⟩
  rcases marks with rfl | ⟨file, position, rfl⟩
  · exact List.forall_mem_nil _
  · exact List.forall_mem_singleton.2 trivial

theorem flows_constant {value : Literal} (h : ConstantCode lits value i) :
    Flows x blocks chain lits [i] 0 1 := by
  refine flows_one ?_ (by cases h <;> rfl) (by cases h <;> rfl)
  cases h with
  | char ch short =>
    have same : ch.toNat.toUInt16.toUInt32 = ch.val := by
      apply UInt32.toNat_inj.1
      rw [UInt16.toNat_toUInt32, Nat.toUInt16_eq, UInt16.toNat_ofNat', Nat.mod_eq_of_lt short]
      rfl
    have valid : ch.toNat.toUInt16.toUInt32.isValidChar := same ▸ ch.valid
    simp [Instruction.Sits, Instruction.charOfShort?, valid]
  | string literal => exact (Array.getElem?_eq_some_iff.1 literal).1
  | _ => trivial

/-- A variable is found as many hops out as its scope is. -/
theorem slot_sits {owner : ScopeId} {slot : UInt16} {depth : Nat}
    (linked : x.tree.Linked (scope :: around))
    (hops : x.tree.relativeDepth scope owner = some depth)
    (visible : (Symbol.slot owner slot).Visible x (scope :: around)) :
    ∃ id s, (scope :: around)[depth.toUInt16.toNat]? = some id ∧ x.tree.get? id = some s
      ∧ slot.toNat < s.vars.length := by
  obtain ⟨inside, s, here, fits⟩ := visible
  have place := ScopeTree.climb_eq linked inside hops
  have short := ScopeTree.climb_lt (Nat.zero_lt_succ _) hops
  refine ⟨owner, s, ?_, here, fits⟩
  rw [Nat.toUInt16_eq, UInt16.toNat_ofNat', Nat.mod_eq_of_lt short, place, Nat.zero_add]
  exact List.getElem?_idxOf inside

theorem flows_load {name : Ident} (linked : x.tree.Linked (scope :: around))
    (h : LoadCode x.tree scope lits name i) (visible : name.Visible x (scope :: around)) :
    Flows x blocks (scope :: around) lits [i] 0 1 := by
  obtain ⟨symbol, hs, visible⟩ := visible
  refine flows_one ?_ (by cases h <;> rfl) (by cases h <;> rfl)
  cases h with
  | field known =>
    cases known.symm.trans hs
    exact visible
  | slot known hops =>
    cases known.symm.trans hs
    exact slot_sits linked hops visible
  | global _ literal => exact (Array.getElem?_eq_some_iff.1 literal).1

theorem flows_store {name : Ident} (linked : x.tree.Linked (scope :: around))
    (h : StoreCode x.tree scope name i) (visible : name.Visible x (scope :: around)) :
    Flows x blocks (scope :: around) lits [i] 1 1 := by
  obtain ⟨symbol, hs, visible⟩ := visible
  refine flows_one ?_ (by cases h <;> rfl) (by cases h <;> rfl)
  cases h with
  | field known =>
    cases known.symm.trans hs
    exact visible
  | slot known hops =>
    cases known.symm.trans hs
    exact slot_sits linked hops visible

/-- A message leaves one value in the place of the receiver and the arguments. -/
theorem flows_message {args : List Expr} {l : UInt16} {selector : String}
    (short : args.length < 65536) (literal : lits[l.toNat]? = some selector)
    (hi : i = .send args.length.toUInt16 l ∨ i = .sendSuper args.length.toUInt16 l) :
    Flows x blocks chain lits [i] (1 + args.length) 1 := by
  have fits := (Array.getElem?_eq_some_iff.1 literal).1
  have count : args.length.toUInt16.toNat + 1 = 1 + args.length := by
    rw [Nat.toUInt16_eq, UInt16.toNat_ofNat', Nat.mod_eq_of_lt short, Nat.add_comm]
  rcases hi with rfl | rfl
  · exact flows_one fits count rfl
  · exact flows_one fits count rfl

end Code

mutual

/-- **An expression pushes one value.** -/
theorem expr_flows {x : Site} {blocks : Array Block} {source : Source} {around : List ScopeId}
    {b : Block} {is : List Instruction} (linked : x.tree.Linked (source.scope :: around))
    (e : Expr) (compiled : ExprCode x.tree blocks source.scope b.literals e is)
    (resolved : Expr.Scoped x (source.scope :: around) e) :
    Flows x blocks (source.scope :: around) b.literals is 0 1 := by
  cases compiled with
  | literal constant => exact flows_constant constant
  | self => exact flows_one trivial rfl rfl
  | ident load =>
    cases resolved with
    | ident visible => exact flows_load linked load visible
  | @array _ _ items is each short =>
    cases resolved with
    | array eachResolved =>
      refine (exprs_flows linked items each eachResolved).append (flows_one trivial ?_ rfl)
      exact Nat.mod_eq_of_lt short
  | block opened entry code =>
    cases resolved with
    | block opens known eachResolved =>
      cases opened.symm.trans opens.scope
      exact flows_one ⟨_, _, _, entry, code, eachResolved, opens.slots,
        List.isChain_cons_cons.2 ⟨opens.inside, linked⟩⟩ rfl rfl
  | @send _ _ receiver _ args _ _ _ _ _ first each marks short literal =>
    cases resolved with
    | send firstResolved eachResolved =>
      exact (expr_flows linked receiver first firstResolved).append
        (((exprs_flows linked args each eachResolved).above 1).append
          ((flows_marks marks _).append (flows_message short literal (.inl rfl))))
  | @superSend _ _ _ args _ _ _ _ each marks short literal =>
    cases resolved with
    | superSend eachResolved =>
      exact (flows_one (i := .pushSelf) trivial rfl rfl).append
        (((exprs_flows linked args each eachResolved).above 1).append
          ((flows_marks marks _).append (flows_message short literal (.inr rfl))))

theorem exprs_flows {x : Site} {blocks : Array Block} {source : Source} {around : List ScopeId}
    {b : Block} {is : List Instruction} (linked : x.tree.Linked (source.scope :: around))
    (es : List Expr) (compiled : ExprsCode x.tree blocks source.scope b.literals es is)
    (resolved : ∀ e ∈ es, Expr.Scoped x (source.scope :: around) e) :
    Flows x blocks (source.scope :: around) b.literals is 0 es.length := by
  cases compiled with
  | nil => exact flows_nil 0
  | @cons _ _ e rest _ _ first later =>
    obtain ⟨firstResolved, laterResolved⟩ := List.forall_mem_cons.1 resolved
    have last := (exprs_flows linked rest later laterResolved).above 1
    rw [Nat.add_comm 1 rest.length] at last
    exact (expr_flows linked e first firstResolved).append last

theorem stat_flows {x : Site} {blocks : Array Block} {source : Source} {around : List ScopeId}
    {b : Block} {is : List Instruction} (linked : x.tree.Linked (source.scope :: around))
    (s : Stat) (compiled : StatCode x.tree blocks source.scope b.literals s is)
    (resolved : Stat.Scoped x (source.scope :: around) s) :
    Flows x blocks (source.scope :: around) b.literals is 0 1 := by
  cases compiled with
  | @expr _ _ value _ first =>
    cases resolved with
    | expr firstResolved => exact expr_flows linked value first firstResolved
  | @assign _ _ _ value _ _ _ _ marks first store =>
    cases resolved with
    | assign firstResolved visible =>
      exact (flows_marks marks 0).append ((expr_flows linked value first firstResolved).append
        (flows_store linked store visible))
  | @ret _ _ value _ _ _ first marks =>
    cases resolved with
    | ret firstResolved =>
      exact (expr_flows linked value first firstResolved).append
        ((flows_marks marks 1).append (flows_one (i := .ret) trivial rfl rfl))

/-- **Statements leave the value of the last one**, if there is one. -/
theorem stats_flows {x : Site} {blocks : Array Block} {source : Source} {around : List ScopeId}
    {b : Block} {is : List Instruction} (linked : x.tree.Linked (source.scope :: around))
    (ss : List Stat) (compiled : StatsCode x.tree blocks source.scope b.literals ss is)
    (resolved : ∀ s ∈ ss, Stat.Scoped x (source.scope :: around) s) :
    Flows x blocks (source.scope :: around) b.literals is 0 (if ss.isEmpty then 0 else 1) := by
  cases compiled with
  | nil => exact flows_nil 0
  | @last _ _ s _ first => exact stat_flows linked s first (resolved s List.mem_cons_self)
  | @cons _ _ s next rest _ _ first later =>
    obtain ⟨firstResolved, laterResolved⟩ := List.forall_mem_cons.1 resolved
    exact (stat_flows linked s first firstResolved).append
      ((flows_one (i := .pop) trivial rfl rfl).append
        (stats_flows linked (next :: rest) later laterResolved))

end

/-! ## Bodies -/

/-- The instruction that ends the code of a body. -/
def Ending.last : Ending → Instruction
  | .block => .blockReturn
  | .method | .main => .ret

/-- The block has a slot for each variable of the scope. -/
def Site.Sized (x : Site) (scope : ScopeId) (b : Block) : Prop :=
  ∃ s, x.tree.get? scope = some s ∧ b.frameSize = s.vars.length

section Bodies

variable {x : Site} {blocks : Array Block} {source : Source} {around : List ScopeId}
  {options : CompilerOptions} {m b outer : Block} {rest chain : List Block}

theorem Stands.sized (h : Stands x blocks source around b) : x.Sized source.scope b := by
  obtain ⟨s, here, nargs, nlocals⟩ := h.compiled.fits.frame
  obtain ⟨s', here', fits⟩ := h.slots
  cases here.symm.trans here'
  refine ⟨s, here, ?_⟩
  rw [Block.frameSize, nargs, nlocals]
  omega

/-- **The code of a body** ends with one value on the stack. -/
theorem Stands.flows (h : Stands x blocks source around b) :
    ∃ before, Reads b.bytecode 0 (before ++ [source.ending.last]) b.bytecode.size
      ∧ Flows x blocks (source.scope :: around) b.literals before 0 1 := by
  obtain ⟨compiled, resolved, -, linked⟩ := h
  cases compiled with
  | @method scope stats _ is ks fits each marks reads =>
    have first := stats_flows linked stats each resolved
    have dropped : Flows x blocks (scope :: around) b.literals
        (if stats.isEmpty then [] else [.pop]) (if stats.isEmpty then 0 else 1) 0 := by
      split
      · exact flows_nil 0
      · exact flows_one trivial rfl rfl
    refine ⟨is ++ (ks ++ ((if stats.isEmpty then [] else [.pop]) ++ [.pushSelf])), ?_,
      first.append ((flows_marks marks _).append
        (dropped.append (flows_one (i := .pushSelf) trivial rfl rfl)))⟩
    simpa [Ending.last] using reads
  | @block scope stats _ is ks fits each marks reads =>
    refine ⟨is ++ ((if stats.isEmpty then [.pushNil] else []) ++ ks),
      by simpa [Ending.last] using reads,
      (stats_flows linked stats each resolved).append (.append ?_ (flows_marks marks 1))⟩
    split
    · exact flows_one trivial rfl rfl
    · exact flows_nil 1
  | @main scope stats _ is ks fits each marks reads =>
    refine ⟨is ++ ((if stats.isEmpty then [.pushSelf] else []) ++ ks),
      by simpa [Ending.last] using reads,
      (stats_flows linked stats each resolved).append (.append ?_ (flows_marks marks 1))⟩
    split
    · exact flows_one trivial rfl rfl
    · exact flows_nil 1

theorem Stands.sits (h : Stands x blocks source around b) :
    ∀ i ∈ b.instructions, i.Sits x blocks (source.scope :: around) b.literals := by
  obtain ⟨before, reads, flows⟩ := h.flows
  rw [Block.instructions_eq reads]
  refine List.forall_mem_append.2 ⟨flows.sits, List.forall_mem_singleton.2 ?_⟩
  cases source.ending <;> trivial

/-- What stands in its place is within the limits. -/
theorem Instruction.Sits.fits {i : Instruction} {scopes : List ScopeId}
    (h : i.Sits x m.blocks scopes b.literals) (placed : i.Placed options)
    (file : FileFirst options b.literals) (sizes : List.Forall₂ x.Sized scopes chain) :
    i.Fits
      { debugInfo := options.debugInfo, literals := b.literals.size, blocks := m.blocks.size,
        frames := chain.map Block.frameSize, fields := x.fields } := by
  have slot {depth slot : UInt16}
      (h : ∃ id s, scopes[depth.toNat]? = some id ∧ x.tree.get? id = some s
        ∧ slot.toNat < s.vars.length) :
      ∃ size, (chain.map Block.frameSize)[depth.toNat]? = some size ∧ slot.toNat < size := by
    obtain ⟨id, s, found, here, fits⟩ := h
    obtain ⟨hlt, rfl⟩ := List.getElem?_eq_some_iff.1 found
    obtain ⟨s', here', size⟩ := sizes.get hlt (sizes.length_eq ▸ hlt)
    cases here.symm.trans here'
    refine ⟨s.vars.length, ?_, fits⟩
    rw [List.getElem?_map, List.getElem?_eq_getElem (sizes.length_eq ▸ hlt), Option.map_some]
    exact congrArg some size
  cases i with
  | pushLocal => exact slot h
  | storeLocal => exact slot h
  | block k =>
    obtain ⟨_, _, _, entry, -⟩ := h
    exact (Array.getElem?_eq_some_iff.1 entry).1
  | debug f position =>
    obtain ⟨wanted, rfl⟩ := placed
    exact ⟨wanted, rfl, (Array.getElem?_eq_some_iff.1 (file wanted)).1⟩
  | _ => exact h

/-- **The code of a body passes the check.** -/
theorem Stands.verified (h : Stands x m.blocks source around b) (clean : b.Sealed options)
    (sizes : List.Forall₂ x.Sized (source.scope :: around) (b :: rest)) :
    Block.Verified options m x.fields source.ending.last rest b := by
  obtain ⟨before, reads, flows⟩ := h.flows
  obtain ⟨readable, whole, -⟩ := (Instruction.decodeFrom_lists _ 0).of_reads reads
  refine ⟨readable, whole, clean.file, fun i hi => ?_, before, 0, Block.instructions_eq reads, ?_⟩
  · exact (h.sits i hi).fits (clean.placed i hi) clean.file sizes
  · exact flows.raises 0

/-! ## Nested blocks -/

/-- **Nested blocks stand in the scopes around them.**  By induction on the way in. -/
theorem Nested.stands (start : Stands x m.blocks source [] m) (h : Nested m chain) :
    ∃ b rest source around, chain = b :: rest ∧ Stands x m.blocks source around b
      ∧ List.Forall₂ x.Sized (source.scope :: around) chain
      ∧ (rest ≠ [] → source.ending = .block) := by
  induction h with
  | outermost =>
    exact ⟨m, [], source, [], rfl, start, .cons start.sized .nil, fun h => absurd rfl h⟩
  | @inside outer b rest k _ made entry ih =>
    obtain ⟨_, _, source', around, ⟨⟩, stands, sizes, -⟩ := ih
    obtain ⟨scope, stats, b', entry', inner⟩ := stands.sits _ made
    cases entry.symm.trans entry'
    exact ⟨b, _, _, _, rfl, inner, .cons inner.sized sizes, fun _ => rfl⟩

/-- The block with a given number is nested in the method. -/
def Reached (m : Block) (k : Nat) : Prop :=
  ∃ b outer rest, m.blocks[k]? = some b ∧ Nested m (b :: outer :: rest)

end Bodies

mutual

/-- **Every block literal is nested in the code around it.** -/
theorem expr_reached {tree : ScopeTree} {m outer : Block} {rest : List Block} {source : Source}
    {is : List Instruction} (around : Nested m (outer :: rest)) (e : Expr)
    (compiled : ExprCode tree m.blocks source.scope outer.literals e is)
    (inside : is ⊆ outer.instructions) : ∀ p ∈ e.blocks, Reached m p.1.index.toNat := by
  cases compiled with
  | literal => exact List.forall_mem_nil _
  | self => exact List.forall_mem_nil _
  | ident => exact List.forall_mem_nil _
  | @array _ _ items _ each =>
    exact exprs_reached around items each (List.append_subset.1 inside).1
  | @block _ b _ head body compiled opened entry code =>
    have nested := around.inside (inside List.mem_cons_self) entry
    refine List.forall_mem_cons.2 ⟨⟨compiled, outer, rest, entry, nested⟩, ?_⟩
    cases code with
    | block fits each marks reads =>
      refine @stats_reached tree m compiled (outer :: rest) ⟨b, body, .block⟩ _ nested body each ?_
      rw [Block.instructions_eq reads]
      exact List.subset_append_left _ _
  | @send _ _ receiver _ args _ _ _ _ _ first each =>
    obtain ⟨insideFirst, insideEach⟩ := List.append_subset.1 inside
    exact List.forall_mem_append.2 ⟨expr_reached around receiver first insideFirst,
      exprs_reached around args each (List.append_subset.1 insideEach).1⟩
  | @superSend _ _ _ args _ _ _ _ each =>
    obtain ⟨-, insideEach⟩ := List.cons_subset.1 inside
    exact exprs_reached around args each (List.append_subset.1 insideEach).1

theorem exprs_reached {tree : ScopeTree} {m outer : Block} {rest : List Block} {source : Source}
    {is : List Instruction} (around : Nested m (outer :: rest)) (es : List Expr)
    (compiled : ExprsCode tree m.blocks source.scope outer.literals es is)
    (inside : is ⊆ outer.instructions) :
    ∀ p ∈ Expr.blocksAll es, Reached m p.1.index.toNat := by
  cases compiled with
  | nil => exact List.forall_mem_nil _
  | @cons _ _ e es _ _ first later =>
    obtain ⟨insideFirst, insideLater⟩ := List.append_subset.1 inside
    exact List.forall_mem_append.2 ⟨expr_reached around e first insideFirst,
      exprs_reached around es later insideLater⟩

theorem stat_reached {tree : ScopeTree} {m outer : Block} {rest : List Block} {source : Source}
    {is : List Instruction} (around : Nested m (outer :: rest)) (s : Stat)
    (compiled : StatCode tree m.blocks source.scope outer.literals s is)
    (inside : is ⊆ outer.instructions) : ∀ p ∈ s.blocks, Reached m p.1.index.toNat := by
  cases compiled with
  | @expr _ _ value _ first => exact expr_reached around value first inside
  | @assign _ _ _ value _ _ _ _ marks first =>
    obtain ⟨-, insideFirst⟩ := List.append_subset.1 inside
    exact expr_reached around value first (List.append_subset.1 insideFirst).1
  | @ret _ _ value _ _ _ first =>
    exact expr_reached around value first (List.append_subset.1 inside).1

theorem stats_reached {tree : ScopeTree} {m outer : Block} {rest : List Block} {source : Source}
    {is : List Instruction} (around : Nested m (outer :: rest)) (ss : List Stat)
    (compiled : StatsCode tree m.blocks source.scope outer.literals ss is)
    (inside : is ⊆ outer.instructions) :
    ∀ p ∈ Stat.blocksAll ss, Reached m p.1.index.toNat := by
  cases compiled with
  | nil => exact List.forall_mem_nil _
  | @last _ _ s _ first =>
    exact List.forall_mem_append.2 ⟨stat_reached around s first inside, List.forall_mem_nil _⟩
  | @cons _ _ s next more _ _ first later =>
    obtain ⟨insideFirst, insideLater⟩ := List.append_subset.1 inside
    exact List.forall_mem_append.2 ⟨stat_reached around s first insideFirst,
      stats_reached around (next :: more) later (List.cons_subset.1 insideLater).2⟩

end

/-! ## Methods -/

section Methods

variable {options : CompilerOptions} {tree : ScopeTree} {b : Block}

/-- **The code of a method or main body passes**, with the blocks nested in it. -/
theorem passes_of_body {scope : ScopeId} {stats : List Stat} {ending : Ending} {fields : Nat}
    (code : BodyCode tree b.blocks ⟨scope, stats, ending⟩ b) (outermost : ending.last = .ret)
    (slots : ∃ s, tree.get? scope = some s ∧ s.nargs ≤ s.vars.length)
    (resolved : BodyScoped tree fields scope stats)
    (whole : Emit.Whole options (Emit.indices (Stat.blocksAll stats)) b) :
    b.Passes options fields := by
  have stands : Stands
      ⟨tree, fields, fun head body => (Stat.blocksAll stats)[head.index.toNat]? = some (head, body)⟩
      b.blocks ⟨scope, stats, ending⟩ [] b :=
    ⟨code, resolved, slots, List.isChain_singleton _⟩
  refine ⟨fun p hp => ?_, fun _ => ?_, fun _ b' outer rest hb => ?_, fun _ b' hb => ?_⟩
  · rw [code.fits.plain] at hp
    cases hp
  · rw [← outermost]
    exact stands.verified whole.outer (.cons stands.sized .nil)
  · obtain ⟨_, _, source, around, ⟨⟩, inner, sizes, isBlock⟩ := hb.stands stands
    have ends : source.ending.last = .blockReturn := by rw [isBlock (List.cons_ne_nil _ _)]; rfl
    rw [← ends]
    refine inner.verified ?_ sizes
    cases hb with
    | inside _ _ entry => exact (whole.nested _ _ entry).1.toSealed
  · obtain ⟨k, hk, rfl⟩ := Array.mem_iff_getElem.1 hb
    have entry : b.blocks[k]? = some b.blocks[k] := Array.getElem?_eq_getElem hk
    obtain ⟨p, hp, hpk⟩ := List.mem_map.1 (whole.nested k _ entry).2
    have reached : ∀ p ∈ Stat.blocksAll stats, Reached b p.1.index.toNat := by
      cases code with
      | @block =>
        cases outermost
      | method fits each marks reads =>
        refine @stats_reached tree b b [] ⟨scope, stats, .method⟩ _ .outermost stats each ?_
        rw [Block.instructions_eq reads]
        exact List.subset_append_left _ _
      | main fits each marks reads =>
        refine @stats_reached tree b b [] ⟨scope, stats, .main⟩ _ .outermost stats each ?_
        rw [Block.instructions_eq reads]
        exact List.subset_append_left _ _
    obtain ⟨b', outer, rest, found, nested⟩ := reached p hp
    rw [hpk] at found
    cases entry.symm.trans found
    exact ⟨outer, rest, nested⟩

theorem passes_of_method {m : Method} {fields : Nat} (resolved : MethodScoped tree fields m)
    (made : Emit.Makes tree options m b) : b.Passes options fields := by
  obtain ⟨g, g', h⟩ := made
  obtain ⟨scope, opened, primitive, code⟩ := Emit.method_code h
  cases hk : m.kind with
  | primitive tag =>
    obtain ⟨p, hp⟩ := primitive tag hk
    have never (h : b.primitive = none) {P : Prop} : P := by
      rw [hp.primitive] at h
      cases h
    refine ⟨fun q hq => ?_, fun h => never h, fun h => never h, fun h => never h⟩
    cases hp.primitive.symm.trans hq
    exact hp
  | code body =>
    obtain ⟨id, s, hid, here, fits⟩ := resolved.scope
    cases opened.symm.trans hid
    exact passes_of_body (code body hk) rfl ⟨s, here, fits⟩ (resolved.body scope body opened hk)
      (Emit.method_whole hk h)

theorem passes_of_main {m : MainBody} {fields : Nat} {g g' : Generator}
    (resolved : MainScoped tree fields m) (h : Emit.mainBody tree options m g = .ok b g') :
    b.Passes options fields := by
  obtain ⟨scope, opened, code⟩ := Emit.mainBody_code h
  obtain ⟨id, s, hid, here, none⟩ := resolved.scope
  cases opened.symm.trans hid
  exact passes_of_body code rfl ⟨s, here, none ▸ Nat.zero_le _⟩ (resolved.body scope opened)
    (Emit.mainBody_whole h)

end Methods

/-! ## Programs -/

section Programs

variable {options : CompilerOptions} {tree : ScopeTree} {layouts layouts' : Layouts}
  {before : List CompiledClass}

theorem fieldCount_none (classes : List CompiledClass) : fieldCount classes none = 0 := by
  cases classes <;> rfl

/-- The fields of every class so far are as many as its definition and those above it add up to. -/
def Counts (layouts : Layouts) (before : List CompiledClass) : Prop :=
  ∀ name, (layouts.getD name []).length = fieldCount before.reverse (some name)

theorem counts_empty : Counts {} [] := fun name => by simp [fieldCount]

theorem Counts.fields {c : ClassDef} {c' : CompiledClass} {good : Method → Block → Prop}
    {fields : List String} (counts : Counts layouts before) (code : ClassCode good c c')
    (resolved : ClassScoped tree layouts c fields) : fields.length = c'.fieldCount before := by
  rw [CompiledClass.fieldCount, code.fields, code.superclass]
  cases hs : c.superclass with
  | none => rw [resolved.root hs, fieldCount_none, Nat.add_zero]
  | some above =>
    obtain ⟨inherited, hl, rfl⟩ := resolved.inherits above hs
    rw [← counts, Std.HashMap.getD_eq_getD_getElem?, hl, Option.getD_some, List.length_append,
      Nat.add_comm]

theorem Counts.insert {c : CompiledClass} {fields : List String} (counts : Counts layouts before)
    (h : fields.length = c.fieldCount before) :
    Counts (layouts.insert c.name fields) (before ++ [c]) := by
  intro name
  rw [Std.HashMap.getD_insert, List.reverse_append]
  change _ = if c.name = name then _ else _
  by_cases he : c.name = name
  · rw [if_pos he, if_pos (by simpa using he), h]
    rfl
  · rw [if_neg he, if_neg (by simpa using he), counts name]
    rfl

/-- **Classes pass one after another**, each with the fields that it has by then. -/
theorem classes_pass {cs : List ClassDef} {cs' : List CompiledClass}
    (resolved : ClassesScoped tree layouts cs layouts')
    (made : List.Forall₂ (ClassCode (Emit.Makes tree options)) cs cs')
    (counts : Counts layouts before) :
    Counts layouts' (before ++ cs') ∧ ∀ mid c after, cs' = mid ++ c :: after →
      ∀ m ∈ c.methods, m.Passes options (c.fieldCount (before ++ mid)) := by
  induction resolved generalizing cs' before with
  | nil =>
    cases made
    refine ⟨by rwa [List.append_nil], fun mid c after he => ?_⟩
    simp at he
  | @cons layouts layouts' c rest fields first _ ih =>
    cases made with
    | @cons _ c' _ rest' head tail =>
      have count := counts.fields head first
      have counts' := counts.insert count
      rw [head.name] at counts'
      obtain ⟨last, later⟩ := ih tail counts'
      rw [List.append_assoc, List.singleton_append] at last
      refine ⟨last, fun mid d after he m hm => ?_⟩
      rcases mid with _ | ⟨d', mid⟩
      · obtain ⟨rfl, -⟩ := List.cons.inj he
        rw [List.append_nil, ← count]
        obtain ⟨k, hk, rfl⟩ := List.mem_iff_getElem.1 hm
        have hk' : k < c.methods.length := head.methods.length_eq ▸ hk
        exact passes_of_method (first.methods _ (List.getElem_mem hk')) (head.methods.get hk' hk)
      · obtain ⟨rfl, rest⟩ := List.cons.inj he
        have := later mid d after rest m hm
        rwa [List.append_assoc, List.singleton_append] at this

/-- **Everything the compiler makes can be verified.**  For every program that it accepts, with any
options: every method of every class, and the main body, is a primitive without code or passes the
check; so does every block nested in it, with the code around it; and the table of a method has no
other blocks than those. -/
theorem compiled_code_verifies {p : Program} {log : Log} {compiled : CompiledProgram}
    (accepted : compileBare options p = (log, .ok compiled)) :
    ∀ before c after, compiled.classes = before ++ c :: after →
      ∀ m ∈ c.methods, m.Passes options (c.fieldCount before) := by
  obtain ⟨_, _, r, resolved, generated⟩ := Direct.compileBare_eq_ok accepted
  obtain ⟨layouts, classes, main⟩ := resolve_scoped resolved
  obtain ⟨cs, g, hcs, rfl⟩ := Direct.generate_eq_ok generated
  obtain ⟨made, each, without, with_⟩ := Emit.program_makes hcs
  obtain ⟨counts, pass⟩ := classes_pass classes each counts_empty
  cases hmain : r.program.main with
  | none =>
    cases without hmain
    exact pass
  | some body =>
    obtain ⟨b, _, _, hb, rfl⟩ := with_ body hmain
    intro before c after he m hm
    rcases List.eq_nil_or_concat after with rfl | ⟨after, last, rfl⟩
    · obtain ⟨rfl, hc⟩ := List.append_inj' he rfl
      cases hc
      obtain rfl := List.mem_singleton.1 hm
      have fields := counts rootClass
      rw [List.nil_append] at fields
      rw [CompiledClass.fieldCount, Emit.classOfMain, ← fields]
      simpa using passes_of_main (main body hmain) hb
    · rw [List.concat_eq_append, ← List.cons_append, ← List.append_assoc] at he
      obtain ⟨rfl, -⟩ := List.append_inj' he rfl
      exact pass before c after rfl m hm

/-- A main body with a block that uses a variable of the main body, with source positions. -/
theorem compiled_code_verifies_block :
    ∃ log compiled, compileBare {} Direct.blockProgram = (log, .ok compiled)
      ∧ ∀ before c after, compiled.classes = before ++ c :: after →
        ∀ m ∈ c.methods, m.Passes {} (c.fieldCount before) := by
  obtain ⟨log, compiled, accepted, -⟩ := Direct.blockProgram_compiles true
  exact ⟨log, compiled, accepted, compiled_code_verifies accepted⟩

end Programs

end Colloquy
