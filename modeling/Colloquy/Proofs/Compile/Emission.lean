import Colloquy.Proofs.Compile.Reading
import Colloquy.Proofs.Compile.Scoping

/-!
# What code is generated

The code of a tree as a relation: `ExprCode`, `StatCode` and `BodyCode` say which instructions
belong to an expression, a statement and a body.  Literals are found by their numbers in the pool of
the finished block, and nested blocks in the finished table of the method.

Main statements: the code of a method or main body is related to its tree
(`Emit.method_code`, `Emit.mainBody_code`).
-/

namespace Colloquy

open Instruction (Reads stored)

/-! ## Trees and their code -/

/-- At most one source position. -/
def Marks (is : List Instruction) : Prop := is = [] ∨ ∃ file position, is = [.debug file position]

/-- The instruction pushes a constant, given the literals of the block. -/
inductive ConstantCode (lits : Array String) : Literal → Instruction → Prop where
  | nil : ConstantCode lits .nil .pushNil
  | true : ConstantCode lits (.bool true) .pushTrue
  | false : ConstantCode lits (.bool false) .pushFalse
  | int (n : Int32) : ConstantCode lits (.int n) (.pushInt n)
  | float (x : Single) : ConstantCode lits (.float x) (.pushFloat x)
  | char (c : Char) (short : c.toNat < 65536) :
      ConstantCode lits (.char c) (.pushChar c.toNat.toUInt16)
  | string {s : String} {l : UInt16} (literal : lits[l.toNat]? = some s) :
      ConstantCode lits (.string s) (.pushLiteral l)

/-- The instruction pushes the value of a name in a given scope. -/
inductive LoadCode (tree : ScopeTree) (scope : ScopeId) (lits : Array String) (name : Ident) :
    Instruction → Prop where
  | field {i : UInt16} (symbol : name.symbol = some (.field i)) :
      LoadCode tree scope lits name (.pushField i)
  | slot {owner : ScopeId} {i : UInt16} {depth : Nat} (symbol : name.symbol = some (.slot owner i))
      (hops : tree.relativeDepth scope owner = some depth) :
      LoadCode tree scope lits name (.pushLocal depth.toUInt16 i)
  | global {l : UInt16} (symbol : name.symbol = some .global ∨ name.symbol = none)
      (literal : lits[l.toNat]? = some name.name) : LoadCode tree scope lits name (.pushGlobal l)

/-- The instruction stores the top value under a name in a given scope. -/
inductive StoreCode (tree : ScopeTree) (scope : ScopeId) (name : Ident) : Instruction → Prop where
  | field {i : UInt16} (symbol : name.symbol = some (.field i)) :
      StoreCode tree scope name (.storeField i)
  | slot {owner : ScopeId} {i : UInt16} {depth : Nat} (symbol : name.symbol = some (.slot owner i))
      (hops : tree.relativeDepth scope owner = some depth) :
      StoreCode tree scope name (.storeLocal depth.toUInt16 i)

/-- The block is code for a scope: it has its name, a slot for each variable, and no literal
twice. -/
structure CodeFor (tree : ScopeTree) (scope : ScopeId) (b : Block) : Prop where
  named : ∀ s, tree.get? scope = some s → b.name = s.name
  frame : ∃ s, tree.get? scope = some s ∧ b.nargs = s.nargs ∧ b.nlocals = s.vars.length - s.nargs
  distinct : b.literals.toList.Nodup
  plain : b.primitive = none

/-- The block is a method that the machine carries out itself: it takes as many arguments as the
machine expects, and has no code. -/
structure Block.IsPrimitive (b : Block) (p : Primitive) : Prop where
  primitive : b.primitive = some p
  nargs : b.nargs = p.arity
  bytecode : b.bytecode = #[]
  literals : b.literals = #[]
  blocks : b.blocks = #[]

mutual

/-- The code of an expression in a given scope, with the literals of its block.  `blocks` are the
blocks nested in the method. -/
inductive ExprCode (tree : ScopeTree) (blocks : Array Block) :
    ScopeId → Array String → Expr → List Instruction → Prop where
  | literal {scope : ScopeId} {lits : Array String} {value : Literal} {i : Instruction}
      (constant : ConstantCode lits value i) : ExprCode tree blocks scope lits (.literal value) [i]
  | self {scope : ScopeId} {lits : Array String} :
      ExprCode tree blocks scope lits .self [.pushSelf]
  | ident {scope : ScopeId} {lits : Array String} {name : Ident} {i : Instruction}
      (load : LoadCode tree scope lits name i) : ExprCode tree blocks scope lits (.ident name) [i]
  | array {scope : ScopeId} {lits : Array String} {items : List Expr} {is : List Instruction}
      (each : ExprsCode tree blocks scope lits items is) (short : items.length < 65536) :
      ExprCode tree blocks scope lits (.array items) (is ++ [.pushArray items.length.toUInt16])
  | block {scope b : ScopeId} {lits : Array String} {head : BlockHead} {body : List Stat}
      {compiled : Block} (opened : head.scope = some b)
      (entry : blocks[head.index.toNat]? = some compiled)
      (code : BodyCode tree blocks ⟨b, body, .block⟩ compiled) (leaf : compiled.blocks = #[]) :
      ExprCode tree blocks scope lits (.block head body) [.block head.index]
  | send {scope : ScopeId} {lits : Array String} {receiver : Expr} {selector : String}
      {args : List Expr} {position : Position} {is js ks : List Instruction} {l : UInt16}
      (first : ExprCode tree blocks scope lits receiver is)
      (each : ExprsCode tree blocks scope lits args js) (marks : Marks ks)
      (short : args.length < 65536) (literal : lits[l.toNat]? = some selector) :
      ExprCode tree blocks scope lits (.send receiver selector args position)
        (is ++ (js ++ (ks ++ [.send args.length.toUInt16 l])))
  | superSend {scope : ScopeId} {lits : Array String} {selector : String} {args : List Expr}
      {position : Position} {js ks : List Instruction} {l : UInt16}
      (each : ExprsCode tree blocks scope lits args js) (marks : Marks ks)
      (short : args.length < 65536) (literal : lits[l.toNat]? = some selector) :
      ExprCode tree blocks scope lits (.superSend selector args position)
        (.pushSelf :: (js ++ (ks ++ [.sendSuper args.length.toUInt16 l])))

/-- The code of expressions one after another. -/
inductive ExprsCode (tree : ScopeTree) (blocks : Array Block) :
    ScopeId → Array String → List Expr → List Instruction → Prop where
  | nil {scope : ScopeId} {lits : Array String} : ExprsCode tree blocks scope lits [] []
  | cons {scope : ScopeId} {lits : Array String} {e : Expr} {rest : List Expr}
      {is js : List Instruction} (first : ExprCode tree blocks scope lits e is)
      (later : ExprsCode tree blocks scope lits rest js) :
      ExprsCode tree blocks scope lits (e :: rest) (is ++ js)

/-- The code of a statement. -/
inductive StatCode (tree : ScopeTree) (blocks : Array Block) :
    ScopeId → Array String → Stat → List Instruction → Prop where
  | expr {scope : ScopeId} {lits : Array String} {value : Expr} {is : List Instruction}
      (first : ExprCode tree blocks scope lits value is) :
      StatCode tree blocks scope lits (.expr value) is
  | assign {scope : ScopeId} {lits : Array String} {target : Ident} {value : Expr}
      {position : Position} {is ks : List Instruction} {i : Instruction} (marks : Marks ks)
      (first : ExprCode tree blocks scope lits value is) (store : StoreCode tree scope target i) :
      StatCode tree blocks scope lits (.assign target value position) (ks ++ (is ++ [i]))
  | ret {scope : ScopeId} {lits : Array String} {value : Expr} {position : Position}
      {is ks : List Instruction} (first : ExprCode tree blocks scope lits value is)
      (marks : Marks ks) :
      StatCode tree blocks scope lits (.ret value position) (is ++ (ks ++ [.ret]))

/-- The code of statements with a `pop` between them. -/
inductive StatsCode (tree : ScopeTree) (blocks : Array Block) :
    ScopeId → Array String → List Stat → List Instruction → Prop where
  | nil {scope : ScopeId} {lits : Array String} : StatsCode tree blocks scope lits [] []
  | last {scope : ScopeId} {lits : Array String} {s : Stat} {is : List Instruction}
      (first : StatCode tree blocks scope lits s is) : StatsCode tree blocks scope lits [s] is
  | cons {scope : ScopeId} {lits : Array String} {s next : Stat} {rest : List Stat}
      {is js : List Instruction} (first : StatCode tree blocks scope lits s is)
      (later : StatsCode tree blocks scope lits (next :: rest) js) :
      StatsCode tree blocks scope lits (s :: next :: rest) (is ++ (.pop :: js))

/-- The block is the code of a body, from its first instruction to its last. -/
inductive BodyCode (tree : ScopeTree) (blocks : Array Block) : Source → Block → Prop where
  | method {scope : ScopeId} {stats : List Stat} {b : Block} {is ks : List Instruction}
      (fits : CodeFor tree scope b) (each : StatsCode tree blocks scope b.literals stats is)
      (marks : Marks ks)
      (reads : Reads b.bytecode 0
        (is ++ (ks ++ ((if stats.isEmpty then [] else [.pop]) ++ [.pushSelf, .ret])))
        b.bytecode.size) :
      BodyCode tree blocks ⟨scope, stats, .method⟩ b
  | block {scope : ScopeId} {stats : List Stat} {b : Block} {is ks : List Instruction}
      (fits : CodeFor tree scope b) (each : StatsCode tree blocks scope b.literals stats is)
      (marks : Marks ks)
      (reads : Reads b.bytecode 0
        (is ++ ((if stats.isEmpty then [.pushNil] else []) ++ (ks ++ [.blockReturn])))
        b.bytecode.size) :
      BodyCode tree blocks ⟨scope, stats, .block⟩ b
  | main {scope : ScopeId} {stats : List Stat} {b : Block} {is ks : List Instruction}
      (fits : CodeFor tree scope b) (each : StatsCode tree blocks scope b.literals stats is)
      (marks : Marks ks)
      (reads : Reads b.bytecode 0
        (is ++ ((if stats.isEmpty then [.pushSelf] else []) ++ (ks ++ [.ret])))
        b.bytecode.size) :
      BodyCode tree blocks ⟨scope, stats, .main⟩ b

end

theorem BodyCode.fits {tree : ScopeTree} {blocks : Array Block} {source : Source} {b : Block}
    (h : BodyCode tree blocks source b) : CodeFor tree source.scope b := by
  cases h <;> assumption

/-! ## Literal pools -/

/-- The numbering and the entries of a pool say the same. -/
structure LiteralPool.Valid (pool : LiteralPool) : Prop where
  index : ∀ (s : String) (i : UInt16), pool.index[s]? = some i ↔ pool.entries[i.toNat]? = some s
  short : pool.entries.size ≤ 65536

namespace LiteralPool

variable {pool pool' : LiteralPool} {s : String} {i : UInt16}

theorem valid_empty : ({} : LiteralPool).Valid := ⟨fun s i => by simp, Nat.zero_le _⟩

/-- No string stands twice in a pool. -/
theorem Valid.nodup (h : pool.Valid) : pool.entries.toList.Nodup := by
  have number {k : Nat} (hk : k < pool.entries.size) : k.toUInt16.toNat = k := by
    rw [Nat.toUInt16_eq, UInt16.toNat_ofNat', Nat.mod_eq_of_lt (Nat.lt_of_lt_of_le hk h.short)]
  have found {k : Nat} (hk : k < pool.entries.size) :
      pool.index[pool.entries[k]]? = some k.toUInt16 :=
    (h.index _ _).2 (by rw [number hk, Array.getElem?_eq_getElem hk])
  refine List.pairwise_iff_getElem.2 fun a b ha hb hab he => ?_
  rw [Array.length_toList] at ha hb
  rw [Array.getElem_toList, Array.getElem_toList] at he
  have same := found ha
  rw [he, found hb, Option.some.injEq] at same
  have := congrArg UInt16.toNat same
  rw [number ha, number hb] at this
  omega

/-- Inserting a string moves no other. -/
theorem prefix_insert (pool : LiteralPool) (s : String) :
    pool.entries.toList <+: (pool.insert s).2.entries.toList := by
  obtain ⟨entries, index⟩ := pool
  unfold insert
  dsimp only
  split
  · exact List.prefix_refl _
  · split
    · rw [Array.toList_push]
      exact List.prefix_append _ _
    · exact List.prefix_refl _

/-- A string has no number just if it is not in the pool. -/
theorem Valid.index_eq_none_iff (h : pool.Valid) : pool.index[s]? = none ↔ s ∉ pool.entries := by
  constructor
  · intro none there
    obtain ⟨k, hk, rfl⟩ := Array.getElem_of_mem there
    have number : k.toUInt16.toNat = k := by
      rw [Nat.toUInt16_eq, UInt16.toNat_ofNat', Nat.mod_eq_of_lt (Nat.lt_of_lt_of_le hk h.short)]
    have found := (h.index pool.entries[k] k.toUInt16).2
      (by rw [number, Array.getElem?_eq_getElem hk])
    cases none.symm.trans found
  · intro absent
    refine Option.eq_none_iff_forall_ne_some.2 fun i found => absent ?_
    exact Array.mem_of_getElem? ((h.index s i).1 found)

/-- A new string gets the next number. -/
theorem Valid.push (h : pool.Valid) (absent : s ∉ pool.entries)
    (number : i.toNat = pool.entries.size) :
    Valid ⟨pool.entries.push s, pool.index.insert s i⟩ := by
  refine ⟨fun t k => ?_, ?_⟩
  · rw [Std.HashMap.getElem?_insert, Array.getElem?_push]
    by_cases ht : s = t
    · subst ht
      simp only [beq_self_eq_true, if_true, Option.some.injEq, ← number, UInt16.toNat_inj]
      constructor
      · rintro rfl
        rw [if_pos rfl]
      · intro here
        split at here
        · rename_i same
          exact same.symm
        · exact absurd (Array.mem_of_getElem? here) absent
    · rw [if_neg (by simpa using ht), h.index]
      split
      · rename_i last
        rw [last, Array.getElem?_eq_none (Nat.le_refl _)]
        simp [ht]
      · rfl
  · have := i.toNat_lt
    rw [Array.size_push, ← number]
    omega

/-- What inserting a string can come to. -/
inductive Inserts (pool : LiteralPool) (s : String) :
    Except CompileError UInt16 × LiteralPool → Prop where
  /-- The string is there. -/
  | known {i : UInt16} (here : pool.entries[i.toNat]? = some s) : Inserts pool s (.ok i, pool)
  /-- The string is new and gets the next number. -/
  | new {i : UInt16} {after : LiteralPool} (absent : s ∉ pool.entries)
      (number : i.toNat = pool.entries.size) (entries : after.entries = pool.entries.push s)
      (valid : after.Valid) : Inserts pool s (.ok i, after)
  /-- The string is new, and no number is left. -/
  | full (absent : s ∉ pool.entries) (size : pool.entries.size = 65536) :
      Inserts pool s (.error (.tooManyLiterals s), pool)

/-- **What inserting a string comes to**, in a valid pool. -/
theorem Valid.inserts (h : pool.Valid) (s : String) : pool.Inserts s (pool.insert s) := by
  have absent := h.index_eq_none_iff (s := s)
  obtain ⟨entries, index⟩ := pool
  unfold insert
  dsimp only at absent ⊢
  split
  · rename_i i found
    exact .known ((h.index s i).1 found)
  · rename_i found
    split
    · rename_i room
      have number : entries.size.toUInt16.toNat = entries.size := by
        rw [Nat.toUInt16_eq, UInt16.toNat_ofNat', Nat.mod_eq_of_lt (show _ < 2 ^ 16 from room)]
      exact .new (absent.1 found) number rfl (h.push (absent.1 found) number)
    · rename_i full
      exact .full (absent.1 found) (Nat.le_antisymm h.short (Nat.not_lt.1 full))

/-- An insertion keeps a pool valid. -/
theorem Inserts.valid {after : Except CompileError UInt16 × LiteralPool}
    (h : pool.Inserts s after) (valid : pool.Valid) : after.2.Valid := by
  cases h with
  | known | full => exact valid
  | new _ _ _ valid' => exact valid'

/-- **Inserting a string** finds it under the number that it gets, and moves no other. -/
theorem insert_eq_ok (valid : pool.Valid) (h : pool.insert s = (.ok i, pool')) :
    pool'.Valid ∧ pool.entries.toList <+: pool'.entries.toList
      ∧ pool'.entries[i.toNat]? = some s := by
  have inserts := valid.inserts s
  rw [h] at inserts
  cases inserts with
  | known here => exact ⟨valid, List.prefix_refl _, here⟩
  | new absent number entries valid' =>
    rw [entries, number]
    exact ⟨valid', by simp, by simp⟩

end LiteralPool

namespace Emit

/-! ## Small steps -/

variable {c : EmitContext} {g g' h : Generator} {is js : List Instruction} {lits : Array String}
  {blocks : Array Block}

/-- Between the two states, the given instructions have been appended, and nothing in the pool or
the table has changed its place. -/
structure Writes (g g' : Generator) (is : List Instruction) : Prop where
  code : g'.code.toList = g.code.toList ++ is
  pool : g.pool.entries.toList <+: g'.pool.entries.toList
  valid : g.pool.Valid → g'.pool.Valid
  table : ∀ (i : Nat) (b : Block), g.table[i]? = some (some b) → g'.table[i]? = some (some b)

theorem Writes.append (first : Writes g h is) (later : Writes h g' js) :
    Writes g g' (is ++ js) where
  code := by rw [later.code, first.code, List.append_assoc]
  pool := first.pool.trans later.pool
  valid hv := later.valid (first.valid hv)
  table i b hb := later.table i b (first.table i b hb)

/-- The pool and the table are parts of the finished ones. -/
structure Within (g : Generator) (lits : Array String) (blocks : Array Block) : Prop where
  pool : g.pool.entries.toList <+: lits.toList
  table : ∀ (i : Nat) (b : Block), g.table[i]? = some (some b) → blocks[i]? = some b

theorem Within.before (writes : Writes g g' is) (later : Within g' lits blocks) :
    Within g lits blocks :=
  ⟨writes.pool.trans later.pool, fun i b hb => later.table i b (writes.table i b hb)⟩

theorem check_eq_ok {α : Type} {x : Except CompileError α} {a : α} :
    check x g = .ok a g' ↔ x = .ok a ∧ g' = g := by
  cases x with
  | ok b =>
    change EStateM.Result.ok b g = .ok a g' ↔ _
    simp [eq_comm]
  | error e =>
    change EStateM.Result.error e g = .ok a g' ↔ _
    simp

theorem short_eq_ok {what : String} {n : Nat} {k : UInt16} (h : short what n = .ok k) :
    n < 65536 ∧ k = n.toUInt16 := by
  unfold short at h
  split at h
  · cases h
    exact ⟨‹_›, rfl⟩
  · cases h

/-- Steps that write no instruction. -/
theorem writes_nil (code : g'.code = g.code) (pool : g'.pool = g.pool)
    (table : g'.table = g.table) : Writes g g' [] :=
  ⟨by rw [code, List.append_nil], pool ▸ List.prefix_refl _, pool ▸ id, table ▸ fun _ _ => id⟩

theorem writes_instruction {i : Instruction} (h : instruction i g = .ok () g') :
    Writes g g' [i] := by
  cases h
  exact ⟨by simp, List.prefix_refl _, id, fun _ _ => id⟩

theorem writes_report {level : Level} {message : String} (h : report level message g = .ok () g') :
    Writes g g' [] := by
  cases h
  exact writes_nil rfl rfl rfl

theorem writes_mark {position : Position} (h : mark c position g = .ok () g') :
    ∃ ks, Writes g g' ks ∧ Marks (ks.map stored) := by
  unfold mark at h
  split at h
  · exact ⟨_, writes_instruction h, .inr ⟨_, _, rfl⟩⟩
  · cases h
    exact ⟨[], writes_nil rfl rfl rfl, .inl rfl⟩

theorem literal_eq_ok {s : String} {l : UInt16} (h : literal s g = .ok l g') :
    g.pool.insert s = (.ok l, g'.pool) ∧ g'.code = g.code ∧ g'.table = g.table := by
  obtain ⟨code, pool, table, warnings, log⟩ := g
  unfold literal at h
  dsimp only at h
  split at h
  · rename_i hl
    cases h
    exact ⟨hl, rfl, rfl⟩
  · cases h

/-- The number of a literal stays right. -/
theorem writes_literal {s : String} {l : UInt16} (valid : g.pool.Valid)
    (h : literal s g = .ok l g') :
    Writes g g' [] ∧ ∀ lits blocks, Within g' lits blocks → lits[l.toNat]? = some s := by
  obtain ⟨hl, code, table⟩ := literal_eq_ok h
  obtain ⟨valid', longer, found⟩ := LiteralPool.insert_eq_ok valid hl
  refine ⟨⟨by rw [code, List.append_nil], longer, fun _ => valid', table ▸ fun _ _ => id⟩, ?_⟩
  intro lits blocks hw
  obtain ⟨more, hmore⟩ := hw.pool
  rw [← Array.getElem?_toList] at found ⊢
  rw [← hmore, List.getElem?_append_left (List.getElem?_eq_some_iff.1 found).1]
  exact found

theorem qualifiedName_eq_ok {tree : ScopeTree} {id : ScopeId} {name : String}
    (h : qualifiedName tree id g = .ok name g') : g' = g := by
  unfold qualifiedName at h
  cases hq : tree.qualifiedName id with
  | some _ =>
    rw [hq] at h
    cases h
    rfl
  | none =>
    rw [hq] at h
    cases h

theorem writes_warnAfter {previous : Option Position} (h : warnAfter c previous g = .ok () g') :
    Writes g g' [] := by
  cases previous with
  | none =>
    cases h
    exact writes_nil rfl rfl rfl
  | some position =>
    obtain ⟨name, t, hname, ⟨⟩⟩ := EStateM.bind_eq_ok.1 h
    obtain rfl := qualifiedName_eq_ok hname
    exact writes_nil rfl rfl rfl

theorem depthTo_eq_ok {owner : ScopeId} {name : Ident} {d : UInt16}
    (h : depthTo c owner name g = .ok d g') :
    g' = g ∧ ∃ depth, c.tree.relativeDepth c.scope owner = some depth ∧ d = depth.toUInt16 := by
  unfold depthTo at h
  cases hd : c.tree.relativeDepth c.scope owner with
  | some depth =>
    rw [hd] at h
    cases h
    exact ⟨rfl, depth, rfl, rfl⟩
  | none =>
    rw [hd] at h
    cases h

theorem writes_load {name : Ident} (valid : g.pool.Valid) (h : load c name g = .ok () g') :
    ∃ i, Writes g g' [i] ∧ ∀ lits blocks, Within g' lits blocks →
      LoadCode c.tree c.scope lits name i.stored := by
  have global (symbol : name.symbol = some .global ∨ name.symbol = none)
      (h : (do instruction (.pushGlobal (← literal name.name)) : Emit Unit) g = .ok () g') :
      ∃ i, Writes g g' [i] ∧ ∀ lits blocks, Within g' lits blocks →
        LoadCode c.tree c.scope lits name i.stored := by
    obtain ⟨l, t, hl, hi⟩ := EStateM.bind_eq_ok.1 h
    obtain ⟨inserted, found⟩ := writes_literal valid hl
    have pushed := writes_instruction hi
    exact ⟨_, inserted.append pushed, fun lits blocks hw =>
      .global symbol (found lits blocks (hw.before pushed))⟩
  unfold load at h
  cases hs : name.symbol with
  | none =>
    rw [hs] at h
    exact global (.inr hs) h
  | some symbol =>
    rw [hs] at h
    cases symbol with
    | global => exact global (.inl hs) h
    | field i => exact ⟨_, writes_instruction h, fun _ _ _ => .field hs⟩
    | slot owner i =>
      obtain ⟨d, t, hd, hi⟩ := EStateM.bind_eq_ok.1 h
      obtain ⟨rfl, depth, hops, rfl⟩ := depthTo_eq_ok hd
      exact ⟨_, writes_instruction hi, fun _ _ _ => .slot hs hops⟩

theorem writes_store {name : Ident} (h : store c name g = .ok () g') :
    ∃ i, Writes g g' [i] ∧ StoreCode c.tree c.scope name i.stored := by
  unfold store at h
  cases hs : name.symbol with
  | none =>
    rw [hs] at h
    cases h
  | some symbol =>
    rw [hs] at h
    cases symbol with
    | global => cases h
    | field i => exact ⟨_, writes_instruction h, .field hs⟩
    | slot owner i =>
      obtain ⟨d, t, hd, hi⟩ := EStateM.bind_eq_ok.1 h
      obtain ⟨rfl, depth, hops, rfl⟩ := depthTo_eq_ok hd
      exact ⟨_, writes_instruction hi, .slot hs hops⟩

theorem writes_constant {value : Literal} (valid : g.pool.Valid)
    (h : constant value g = .ok () g') :
    ∃ i, Writes g g' [i] ∧ ∀ lits blocks, Within g' lits blocks →
      ConstantCode lits value i.stored := by
  cases value with
  | nil => exact ⟨_, writes_instruction h, fun _ _ _ => .nil⟩
  | bool b =>
    cases b with
    | true => exact ⟨_, writes_instruction h, fun _ _ _ => .true⟩
    | false => exact ⟨_, writes_instruction h, fun _ _ _ => .false⟩
  | int n => exact ⟨_, writes_instruction h, fun _ _ _ => .int n⟩
  | float x => exact ⟨_, writes_instruction h, fun _ _ _ => .float x⟩
  | char ch =>
    obtain ⟨k, t, hk, hi⟩ := EStateM.bind_eq_ok.1 h
    obtain ⟨fits, rfl⟩ := check_eq_ok.1 hk
    obtain ⟨small, rfl⟩ := short_eq_ok fits
    exact ⟨_, writes_instruction hi, fun _ _ _ => .char ch small⟩
  | string s =>
    obtain ⟨l, t, hl, hi⟩ := EStateM.bind_eq_ok.1 h
    obtain ⟨inserted, found⟩ := writes_literal valid hl
    have pushed := writes_instruction hi
    exact ⟨_, inserted.append pushed, fun lits blocks hw =>
      .string (found lits blocks (hw.before pushed))⟩

/-! ## Blocks of their own -/

/-- Compiling into a fresh block leaves the code and the pool of the block around it alone. -/
theorem inBlock_eq_ok {build : Emit Unit} {code : Array Instruction} {pool : LiteralPool}
    (h : inBlock c build g = .ok (code, pool) g') :
    ∃ t t', build t = .ok () t' ∧ t.code = #[] ∧ t.pool.Valid ∧ t.table = g.table
      ∧ code = t'.code ∧ pool = t'.pool
      ∧ g'.code = g.code ∧ g'.pool = g.pool ∧ g'.table = t'.table := by
  obtain ⟨⟨code₀, pool₀⟩, t₀, ⟨⟩, hrest⟩ := EStateM.bind_eq_ok.1 h
  have fresh : ({ g with code := #[], pool := {} } : Generator).pool.Valid :=
    LiteralPool.valid_empty
  dsimp only at hrest
  split at hrest
  · obtain ⟨_, t, hfile, hbuild⟩ := EStateM.bind_eq_ok.1 hrest
    obtain ⟨l, t, hl, ⟨⟩⟩ := EStateM.bind_eq_ok.1 hfile
    obtain ⟨_, t', built, ⟨⟩⟩ := EStateM.bind_eq_ok.1 hbuild
    obtain ⟨inserted, code, table⟩ := literal_eq_ok hl
    exact ⟨t, t', built, code, (LiteralPool.insert_eq_ok fresh inserted).1, table, rfl, rfl, rfl,
      rfl, rfl⟩
  · obtain ⟨_, t', hbuild, ⟨⟩⟩ := EStateM.bind_eq_ok.1 hrest
    exact ⟨_, t', hbuild, rfl, fresh, rfl, rfl, rfl, rfl, rfl, rfl⟩

/-- A finished block is code for its scope. -/
theorem finish_eq_ok {tree : ScopeTree} {id : ScopeId} {code : Array Instruction}
    {pool : LiteralPool} {b : Block} (valid : pool.Valid)
    (h : finish tree id code pool g = .ok b g') :
    g' = g ∧ CodeFor tree id b ∧ b.bytecode = Instruction.encodeAll code
      ∧ b.literals = pool.entries := by
  unfold finish at h
  cases hs : tree.get? id with
  | none =>
    rw [hs] at h
    cases h
  | some s =>
    rw [hs] at h
    cases h
    refine ⟨rfl, ⟨fun s' hs' => ?_, ⟨s, hs, rfl, rfl⟩, valid.nodup, rfl⟩, rfl, rfl⟩
    cases hs.symm.trans hs'
    rfl

/-- A block literal has no table of its own. -/
theorem blocks_finish {tree : ScopeTree} {id : ScopeId} {code : Array Instruction}
    {pool : LiteralPool} {b : Block} (h : finish tree id code pool g = .ok b g') :
    b.blocks = #[] := by
  unfold finish at h
  cases hs : tree.get? id with
  | none =>
    rw [hs] at h
    cases h
  | some s =>
    rw [hs] at h
    cases h
    rfl

theorem getElem?_growTo {table : Array (Option Block)} {n i : Nat} {b : Block}
    (h : table[i]? = some (some b)) : (growTo table n)[i]? = some (some b) := by
  unfold growTo
  split
  · exact h
  · rw [Array.getElem?_append_left (Array.getElem?_eq_some_iff.1 h).1]
    exact h

theorem size_growTo (table : Array (Option Block)) (n : Nat) : n < (growTo table n).size := by
  unfold growTo
  split
  · assumption
  · rw [Array.size_append, Array.size_replicate]
    omega

/-- A block that is entered stays at its number. -/
theorem writes_enter {index : UInt16} {b : Block} (h : enter index b g = .ok () g') :
    Writes g g' [] ∧ g'.table[index.toNat]? = some (some b) := by
  obtain ⟨code, pool, table, warnings, log⟩ := g
  unfold enter at h
  dsimp only at h
  split at h
  · cases h
  · rename_i free
    cases h
    have room := size_growTo table index.toNat
    refine ⟨⟨(List.append_nil _).symm, List.prefix_refl _, id, fun i b' hb' => ?_⟩, ?_⟩
    · rw [Array.getElem?_setIfInBounds]
      split
      · rename_i he
        subst he
        have := getElem?_growTo (n := index.toNat) hb'
        rw [Array.getD_eq_getD_getElem?, this] at free
        cases free
      · exact getElem?_growTo hb'
    · simp [room]

theorem scopeOf_eq_ok {scope : Option ScopeId} {what : String} {id : ScopeId}
    (h : scopeOf scope what g = .ok id g') : g' = g ∧ scope = some id := by
  cases scope with
  | some _ =>
    cases h
    exact ⟨rfl, rfl⟩
  | none => cases h

/-- The value of the last statement stays, or something is pushed in its place if there is none. -/
theorem writes_ifEmpty {stats : List Stat} {i : Instruction} {rest : Emit Unit}
    (h : (if stats.isEmpty = true then (do instruction i; rest) else rest) g = .ok () g') :
    ∃ t, Writes g t (if stats.isEmpty then [i] else []) ∧ rest t = .ok () g' := by
  split at h
  · rename_i he
    obtain ⟨_, t, hi, hrest⟩ := EStateM.bind_eq_ok.1 h
    rw [if_pos he]
    exact ⟨t, writes_instruction hi, hrest⟩
  · rename_i he
    rw [if_neg he]
    exact ⟨g, writes_nil rfl rfl rfl, h⟩

theorem map_stored_ite {p : Bool} {i : Instruction} (hi : i.stored = i) :
    (if p then [i] else []).map stored = if p then [i] else [] := by
  cases p <;> simp [hi]

/-- A position, then the last instruction. -/
theorem writes_ending {position : Position} {i : Instruction} (hi : i.stored = i)
    (h : (do mark c position; instruction i : Emit Unit) g = .ok () g') :
    ∃ ks, Writes g g' (ks ++ [i]) ∧ Marks (ks.map stored)
      ∧ (ks ++ [i]).map stored = ks.map stored ++ [i] := by
  obtain ⟨_, t, hmark, hlast⟩ := EStateM.bind_eq_ok.1 h
  obtain ⟨ks, marked, marks⟩ := writes_mark hmark
  exact ⟨ks, marked.append (writes_instruction hlast), marks, by simp [hi]⟩

/-- What stands in a fresh block is read back from its start. -/
theorem reads_fresh {t t' : Generator} {b : Block} (fresh : t.code = #[]) (writes : Writes t t' is)
    (code : b.bytecode = Instruction.encodeAll t'.code) :
    Reads b.bytecode 0 (is.map stored) b.bytecode.size := by
  have written := writes.code
  rw [fresh, List.nil_append] at written
  rw [code, ← written]
  exact Instruction.reads_encodeAll t'.code

/-! ## Statements and expressions -/

mutual

/-- **The code of an expression.** -/
theorem expr_code {c : EmitContext} {g g' : Generator} (valid : g.pool.Valid) (e : Expr)
    (h : expr c e g = .ok () g') :
    ∃ is, Writes g g' is ∧ ∀ lits blocks, Within g' lits blocks →
      ExprCode c.tree blocks c.scope lits e (is.map stored) := by
  cases e with
  | literal value =>
    obtain ⟨i, writes, code⟩ := writes_constant valid h
    exact ⟨[i], writes, fun lits blocks hw => .literal (code lits blocks hw)⟩
  | self => exact ⟨_, writes_instruction h, fun _ _ _ => .self⟩
  | ident name =>
    obtain ⟨i, writes, code⟩ := writes_load valid h
    exact ⟨[i], writes, fun lits blocks hw => .ident (code lits blocks hw)⟩
  | array items =>
    obtain ⟨_, t, hitems, hlast⟩ := EStateM.bind_eq_ok.1 h
    obtain ⟨k, t', hk, hi⟩ := EStateM.bind_eq_ok.1 hlast
    obtain ⟨fits, rfl⟩ := check_eq_ok.1 hk
    obtain ⟨small, rfl⟩ := short_eq_ok fits
    obtain ⟨is, writes, code⟩ := exprs_code valid items hitems
    have pushed := writes_instruction hi
    refine ⟨_, writes.append pushed, fun lits blocks hw => ?_⟩
    rw [List.map_append]
    exact .array (code lits blocks (hw.before pushed)) small
  | block head body =>
    rw [expr] at h
    obtain ⟨b, t₀, hscope, hblock⟩ := EStateM.bind_eq_ok.1 h
    obtain ⟨rfl, opened⟩ := scopeOf_eq_ok hscope
    obtain ⟨⟨code, pool⟩, t₁, hin, hfinish⟩ := EStateM.bind_eq_ok.1 hblock
    obtain ⟨compiled, t₂, hcompiled, hreport⟩ := EStateM.bind_eq_ok.1 hfinish
    obtain ⟨_, t₃, hlog, henter⟩ := EStateM.bind_eq_ok.1 hreport
    obtain ⟨_, t₄, hentered, hlast⟩ := EStateM.bind_eq_ok.1 henter
    obtain ⟨t, t', hbuild, fresh, valid', table, rfl, rfl, code', pool', table'⟩ :=
      inBlock_eq_ok hin
    -- the body of the block, in a block of its own
    obtain ⟨_, u, hstats, hrest⟩ := EStateM.bind_eq_ok.1 hbuild
    obtain ⟨is, writes, each⟩ := stats_code valid' body hstats
    obtain ⟨u', pushed, hend⟩ := writes_ifEmpty hrest
    obtain ⟨ks, ended, marks, hks⟩ := writes_ending rfl hend
    have whole := writes.append (pushed.append ended)
    obtain ⟨rfl, fits, bytes, literals⟩ := finish_eq_ok (whole.valid valid') hcompiled
    have reads := reads_fresh fresh whole bytes
    -- the block around it
    have noted := writes_report hlog
    obtain ⟨entered, entry⟩ := writes_enter hentered
    have last := writes_instruction hlast
    have kept : Writes t₀ t₂ [] :=
      ⟨by rw [code', List.append_nil], pool' ▸ List.prefix_refl _, pool' ▸ id, fun i b' hb' => by
        rw [table']
        exact whole.table i b' (table ▸ hb')⟩
    refine ⟨_, kept.append (noted.append (entered.append last)), fun lits blocks hw => ?_⟩
    have inTable : Within t₄ lits blocks := hw.before last
    have inner : Within t' compiled.literals blocks := by
      refine ⟨literals ▸ List.prefix_refl _, fun i b' hb' => ?_⟩
      exact inTable.table i b' (entered.table i b' (noted.table i b' (table' ▸ hb')))
    rw [List.map_append, List.map_append, hks, map_stored_ite rfl] at reads
    exact .block opened (inTable.table _ _ entry)
      (.block fits (each _ _ ((inner.before ended).before pushed)) marks reads)
      (blocks_finish hcompiled)
  | send receiver selector args position =>
    obtain ⟨_, t₁, hreceiver, hrest⟩ := EStateM.bind_eq_ok.1 h
    obtain ⟨_, t₂, hargs, hrest⟩ := EStateM.bind_eq_ok.1 hrest
    obtain ⟨_, t₃, hmark, hrest⟩ := EStateM.bind_eq_ok.1 hrest
    obtain ⟨k, t₄, hk, hrest⟩ := EStateM.bind_eq_ok.1 hrest
    obtain ⟨l, t₅, hl, hi⟩ := EStateM.bind_eq_ok.1 hrest
    obtain ⟨fits, rfl⟩ := check_eq_ok.1 hk
    obtain ⟨small, rfl⟩ := short_eq_ok fits
    obtain ⟨is, first, code⟩ := expr_code valid receiver hreceiver
    obtain ⟨js, later, codes⟩ := exprs_code (first.valid valid) args hargs
    obtain ⟨ks, marked, marks⟩ := writes_mark hmark
    obtain ⟨inserted, found⟩ := writes_literal (marked.valid (later.valid (first.valid valid))) hl
    have sent := writes_instruction hi
    refine ⟨_, first.append (later.append (marked.append (inserted.append sent))), ?_⟩
    intro lits blocks hw
    have w₅ := hw.before sent
    have w₃ := w₅.before inserted
    have w₂ := w₃.before marked
    rw [List.map_append, List.map_append, List.map_append]
    exact .send (code _ _ (w₂.before later)) (codes _ _ w₂) marks small (found _ _ w₅)
  | superSend selector args position =>
    obtain ⟨_, t₁, hself, hrest⟩ := EStateM.bind_eq_ok.1 h
    obtain ⟨_, t₂, hargs, hrest⟩ := EStateM.bind_eq_ok.1 hrest
    obtain ⟨_, t₃, hmark, hrest⟩ := EStateM.bind_eq_ok.1 hrest
    obtain ⟨k, t₄, hk, hrest⟩ := EStateM.bind_eq_ok.1 hrest
    obtain ⟨l, t₅, hl, hi⟩ := EStateM.bind_eq_ok.1 hrest
    obtain ⟨fits, rfl⟩ := check_eq_ok.1 hk
    obtain ⟨small, rfl⟩ := short_eq_ok fits
    have first := writes_instruction hself
    obtain ⟨js, later, codes⟩ := exprs_code (first.valid valid) args hargs
    obtain ⟨ks, marked, marks⟩ := writes_mark hmark
    obtain ⟨inserted, found⟩ := writes_literal (marked.valid (later.valid (first.valid valid))) hl
    have sent := writes_instruction hi
    refine ⟨_, first.append (later.append (marked.append (inserted.append sent))), ?_⟩
    intro lits blocks hw
    have w₅ := hw.before sent
    have w₂ := (w₅.before inserted).before marked
    rw [List.map_append, List.map_append, List.map_append]
    exact .superSend (codes _ _ w₂) marks small (found _ _ w₅)

/-- The code of expressions one after another. -/
theorem exprs_code {c : EmitContext} {g g' : Generator} (valid : g.pool.Valid) (es : List Expr)
    (h : exprs c es g = .ok () g') :
    ∃ is, Writes g g' is ∧ ∀ lits blocks, Within g' lits blocks →
      ExprsCode c.tree blocks c.scope lits es (is.map stored) := by
  cases es with
  | nil =>
    cases h
    exact ⟨[], writes_nil rfl rfl rfl, fun _ _ _ => .nil⟩
  | cons e rest =>
    obtain ⟨_, t, he, hrest⟩ := EStateM.bind_eq_ok.1 h
    obtain ⟨is, first, code⟩ := expr_code valid e he
    obtain ⟨js, later, codes⟩ := exprs_code (first.valid valid) rest hrest
    refine ⟨_, first.append later, fun lits blocks hw => ?_⟩
    rw [List.map_append]
    exact .cons (code _ _ (hw.before later)) (codes _ _ hw)

/-- **The code of a statement.** -/
theorem stat_code {c : EmitContext} {g g' : Generator} (valid : g.pool.Valid) (s : Stat)
    (h : stat c s g = .ok () g') :
    ∃ is, Writes g g' is ∧ ∀ lits blocks, Within g' lits blocks →
      StatCode c.tree blocks c.scope lits s (is.map stored) := by
  cases s with
  | expr value =>
    obtain ⟨is, writes, code⟩ := expr_code valid value h
    exact ⟨is, writes, fun lits blocks hw => .expr (code lits blocks hw)⟩
  | assign target value position =>
    obtain ⟨_, t₁, hmark, hrest⟩ := EStateM.bind_eq_ok.1 h
    obtain ⟨_, t₂, hvalue, hstore⟩ := EStateM.bind_eq_ok.1 hrest
    obtain ⟨ks, marked, marks⟩ := writes_mark hmark
    obtain ⟨is, writes, code⟩ := expr_code (marked.valid valid) value hvalue
    obtain ⟨i, last, storeCode⟩ := writes_store hstore
    refine ⟨_, marked.append (writes.append last), fun lits blocks hw => ?_⟩
    rw [List.map_append, List.map_append]
    exact .assign marks (code _ _ (hw.before last)) storeCode
  | ret value position =>
    obtain ⟨_, t, hvalue, hrest⟩ := EStateM.bind_eq_ok.1 h
    obtain ⟨is, writes, code⟩ := expr_code valid value hvalue
    obtain ⟨ks, last, marks, hks⟩ := writes_ending rfl hrest
    refine ⟨_, writes.append last, fun lits blocks hw => ?_⟩
    rw [List.map_append, hks]
    exact .ret (code _ _ (hw.before last)) marks

/-- **The code of statements.** -/
theorem stats_code {c : EmitContext} {g g' : Generator} (valid : g.pool.Valid) (ss : List Stat)
    (h : stats c ss g = .ok () g') :
    ∃ is, Writes g g' is ∧ ∀ lits blocks, Within g' lits blocks →
      StatsCode c.tree blocks c.scope lits ss (is.map stored) := by
  cases ss with
  | nil =>
    cases h
    exact ⟨[], writes_nil rfl rfl rfl, fun _ _ _ => .nil⟩
  | cons s rest =>
    obtain ⟨_, t, hs, hrest⟩ := EStateM.bind_eq_ok.1 h
    obtain ⟨is, first, code⟩ := stat_code valid s hs
    obtain ⟨js, later, codes⟩ := statsAfter_code (first.valid valid) rest hrest
    refine ⟨_, first.append later, fun lits blocks hw => ?_⟩
    rw [List.map_append]
    exact codes _ _ hw (code _ _ (hw.before later))

/-- Statements behind another one. -/
theorem statsAfter_code {c : EmitContext} {g g' : Generator} (valid : g.pool.Valid)
    (ss : List Stat) {previous : Option Position} (h : statsAfter c previous ss g = .ok () g') :
    ∃ is, Writes g g' is ∧ ∀ lits blocks, Within g' lits blocks →
      ∀ {s : Stat} {js : List Instruction}, StatCode c.tree blocks c.scope lits s js →
        StatsCode c.tree blocks c.scope lits (s :: ss) (js ++ is.map stored) := by
  cases ss with
  | nil =>
    cases h
    refine ⟨[], writes_nil rfl rfl rfl, fun _ _ _ _ js hs => ?_⟩
    rw [List.map_nil, List.append_nil]
    exact .last hs
  | cons t rest =>
    obtain ⟨_, u₁, hpop, hrest⟩ := EStateM.bind_eq_ok.1 h
    obtain ⟨_, u₂, hwarn, hrest⟩ := EStateM.bind_eq_ok.1 hrest
    obtain ⟨_, u₃, ht, hrest⟩ := EStateM.bind_eq_ok.1 hrest
    have popped := writes_instruction hpop
    have warned := writes_warnAfter hwarn
    obtain ⟨is, first, code⟩ := stat_code (warned.valid (popped.valid valid)) t ht
    obtain ⟨ks, later, codes⟩ :=
      statsAfter_code (first.valid (warned.valid (popped.valid valid))) rest hrest
    refine ⟨_, popped.append (warned.append (first.append later)), fun lits blocks hw s js hs => ?_⟩
    rw [List.nil_append, List.map_append, List.map_append]
    exact .cons hs (codes _ _ hw (code _ _ (hw.before later)))

end

/-! ## Methods and main bodies -/

theorem tableBlocks_eq_ok {qualified : String} {table : List (Option Block)} {i : Nat}
    {done blocks : List Block} (h : tableBlocks qualified table i done = .ok blocks) :
    ∃ new, blocks = done.reverse ++ new ∧ table = new.map some := by
  induction table generalizing i done with
  | nil =>
    cases h
    exact ⟨[], (List.append_nil _).symm, rfl⟩
  | cons entry rest ih =>
    cases entry with
    | none => cases h
    | some b =>
      obtain ⟨new, rfl, rfl⟩ := ih h
      exact ⟨b :: new, by simp, rfl⟩

/-- The finished table has the blocks that were entered, and no others. -/
theorem takeBlocks_eq_ok {tree : ScopeTree} {id : ScopeId} {bs : List Block}
    (h : takeBlocks tree id g = .ok bs g') (k : Nat) (b : Block) :
    bs.toArray[k]? = some b ↔ g.table[k]? = some (some b) := by
  obtain ⟨name, t, hname, htake⟩ := EStateM.bind_eq_ok.1 h
  obtain rfl := qualifiedName_eq_ok hname
  obtain ⟨table, t', ⟨⟩, hcheck⟩ := EStateM.bind_eq_ok.1 htake
  obtain ⟨_, rfl, hmap⟩ := tableBlocks_eq_ok (check_eq_ok.1 hcheck).1
  have entries : t.table[k]? = bs[k]?.map some := by
    rw [← Array.getElem?_toList, hmap, List.getElem?_map]
  simp [entries]

/-- A body is compiled into a block with a table of its own. -/
theorem withTable_eq_ok {build : Emit Unit} {b : Block} (h : withTable c build g = .ok b g') :
    ∃ t t', build t = .ok () t' ∧ t.code = #[] ∧ t.pool.Valid
      ∧ (t'.pool.Valid → CodeFor c.tree c.scope b ∧ b.bytecode = Instruction.encodeAll t'.code
        ∧ Within t' b.literals b.blocks) := by
  obtain ⟨_, t₀, ⟨⟩, hrest⟩ := EStateM.bind_eq_ok.1 h
  obtain ⟨⟨code, pool⟩, t₁, hin, hrest⟩ := EStateM.bind_eq_ok.1 hrest
  obtain ⟨bs, t₂, htake, hrest⟩ := EStateM.bind_eq_ok.1 hrest
  obtain ⟨compiled, t₃, hfinish, ⟨⟩⟩ := EStateM.bind_eq_ok.1 hrest
  obtain ⟨t, t', hbuild, fresh, valid, -, rfl, rfl, -, -, table⟩ := inBlock_eq_ok hin
  refine ⟨t, t', hbuild, fresh, valid, fun valid' => ?_⟩
  obtain ⟨-, fits, bytes, literals⟩ := finish_eq_ok valid' hfinish
  refine ⟨⟨fits.named, fits.frame, fits.distinct, fits.plain⟩, bytes, ⟨?_, fun i b hb => ?_⟩⟩
  · exact literals ▸ List.prefix_refl _
  · exact (takeBlocks_eq_ok htake i b).2 (table ▸ hb)

/-- **The code of a method**: a primitive, or the code of its body. -/
theorem method_code {tree : ScopeTree} {options : CompilerOptions} {m : Method} {b : Block}
    (h : method tree options m g = .ok b g') :
    ∃ scope, m.scope = some scope
      ∧ (∀ tag, m.kind = .primitive tag → ∃ p, b.IsPrimitive p)
      ∧ ∀ body, m.kind = .code body →
        BodyCode tree b.blocks ⟨scope, body.stats, .method⟩ b := by
  obtain ⟨scope, t₀, hscope, hkind⟩ := EStateM.bind_eq_ok.1 h
  obtain ⟨rfl, opened⟩ := scopeOf_eq_ok hscope
  refine ⟨scope, opened, ?_⟩
  cases hm : m.kind with
  | primitive tag =>
    rw [hm] at hkind
    obtain ⟨compiled, t₁, hprimitive, hlast⟩ := EStateM.bind_eq_ok.1 hkind
    obtain ⟨_, t₂, hlog, ⟨⟩⟩ := EStateM.bind_eq_ok.1 hlast
    refine ⟨fun _ _ => ?_, nofun⟩
    obtain ⟨name, t, -, hp⟩ := EStateM.bind_eq_ok.1 hprimitive
    cases hq : Primitive.ofTag? tag with
    | none =>
      rw [hq] at hp
      cases hp
    | some p =>
      rw [hq] at hp
      dsimp only at hp
      split at hp
      · obtain ⟨_, _, ⟨⟩, _⟩ := EStateM.bind_eq_ok.1 hp
      · rename_i arity
        cases hp
        exact ⟨p, rfl, (Decidable.not_not.1 arity).symm, rfl, rfl, rfl⟩
  | code body =>
    rw [hm] at hkind
    obtain ⟨compiled, t₁, htable, hlast⟩ := EStateM.bind_eq_ok.1 hkind
    obtain ⟨_, t₂, hlog, ⟨⟩⟩ := EStateM.bind_eq_ok.1 hlast
    refine ⟨nofun, ?_⟩
    rintro _ ⟨⟩
    obtain ⟨t, t', hbuild, fresh, valid, compiledOf⟩ := withTable_eq_ok htable
    obtain ⟨_, u, hstats, hrest⟩ := EStateM.bind_eq_ok.1 hbuild
    obtain ⟨_, u', hmark, hrest⟩ := EStateM.bind_eq_ok.1 hrest
    obtain ⟨is, writes, each⟩ := stats_code valid body.stats hstats
    obtain ⟨ks, marked, marks⟩ := writes_mark hmark
    have dropped : ∃ v, Writes u' v (if body.stats.isEmpty then [] else [.pop])
        ∧ (do instruction .pushSelf; instruction .ret : Emit Unit) v = .ok () t' := by
      split at hrest
      · rename_i he
        obtain ⟨_, v, hpop, hrest⟩ := EStateM.bind_eq_ok.1 hrest
        rw [if_neg (by simpa using he)]
        exact ⟨v, writes_instruction hpop, hrest⟩
      · rename_i he
        rw [if_pos (by simpa using he)]
        exact ⟨u', writes_nil rfl rfl rfl, hrest⟩
    obtain ⟨v, popped, hrest⟩ := dropped
    obtain ⟨_, w, hself, hret⟩ := EStateM.bind_eq_ok.1 hrest
    have ended := (writes_instruction hself).append (writes_instruction hret)
    have whole := writes.append (marked.append (popped.append ended))
    obtain ⟨fits, bytes, inner⟩ := compiledOf (whole.valid valid)
    have reads := reads_fresh fresh whole bytes
    have same : (if body.stats.isEmpty then [] else [Instruction.pop]).map stored
        = if body.stats.isEmpty then [] else [.pop] := by
      split <;> rfl
    rw [List.map_append, List.map_append, List.map_append, same] at reads
    exact .method ⟨fits.named, fits.frame, fits.distinct, fits.plain⟩
      (each _ _ (((inner.before ended).before popped).before marked)) marks reads

/-- **The code of a main body.** -/
theorem mainBody_code {tree : ScopeTree} {options : CompilerOptions} {m : MainBody} {b : Block}
    (h : mainBody tree options m g = .ok b g') :
    ∃ scope, m.scope = some scope ∧ BodyCode tree b.blocks ⟨scope, m.body.stats, .main⟩ b := by
  obtain ⟨scope, t₀, hscope, hrest⟩ := EStateM.bind_eq_ok.1 h
  obtain ⟨rfl, opened⟩ := scopeOf_eq_ok hscope
  obtain ⟨compiled, t₁, htable, hlast⟩ := EStateM.bind_eq_ok.1 hrest
  obtain ⟨_, t₂, hlog, ⟨⟩⟩ := EStateM.bind_eq_ok.1 hlast
  obtain ⟨t, t', hbuild, fresh, valid, compiledOf⟩ := withTable_eq_ok htable
  obtain ⟨_, u, hstats, hrest⟩ := EStateM.bind_eq_ok.1 hbuild
  obtain ⟨is, writes, each⟩ := stats_code valid m.body.stats hstats
  obtain ⟨u', pushed, hend⟩ := writes_ifEmpty hrest
  obtain ⟨ks, ended, marks, hks⟩ := writes_ending rfl hend
  have whole := writes.append (pushed.append ended)
  obtain ⟨fits, bytes, inner⟩ := compiledOf (whole.valid valid)
  have reads := reads_fresh fresh whole bytes
  rw [List.map_append, List.map_append, hks, map_stored_ite rfl] at reads
  exact ⟨scope, opened, .main fits (each _ _ ((inner.before ended).before pushed)) marks reads⟩

end Emit

end Colloquy
