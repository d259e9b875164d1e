import Colloquy.Proofs.Compile.Emission

/-!
# What stands in finished blocks

Facts about code generation that do not depend on what the code means.  Source positions stand in
the code only if they are wanted, and then literal `0` of every block is the file name that they
refer to; and no literal stands twice in a block (`Block.Sealed`).  The table of a method has
entries for the block literals of the method, and no others (`Emit.Adds`).

Main statements: `Emit.method_whole` and `Emit.mainBody_whole`.
-/

namespace Colloquy

open Instruction (Reads stored)

/-- The instructions of a block, in order. -/
def Block.instructions (b : Block) : List Instruction :=
  (Instruction.decodeFrom b.bytecode 0).items.map (·.2)

/-- **What is read to the end of the code is all of it.** -/
theorem Block.instructions_eq {b : Block} {is : List Instruction}
    (reads : Reads b.bytecode 0 is b.bytecode.size) : b.instructions = is :=
  ((Instruction.decodeFrom_lists _ 0).of_reads reads).2.2

/-- A position is recorded only if positions are wanted, and refers to literal `0`. -/
def Instruction.Placed (options : CompilerOptions) : Instruction → Prop
  | .debug file _ => options.debugInfo = true ∧ file = Emit.fileLiteral
  | _ => True

theorem Instruction.placed_stored {options : CompilerOptions} {i : Instruction}
    (h : i.Placed options) : i.stored.Placed options := by
  unfold stored
  split
  · exact h
  · exact h

/-- Literal `0` is the file name, if positions are recorded. -/
def FileFirst (options : CompilerOptions) (lits : Array String) : Prop :=
  options.debugInfo = true → lits[0]? = some options.fileName

/-- The positions that a block records are wanted, and are positions in the given file; and its
literals are different. -/
structure Block.Sealed (options : CompilerOptions) (b : Block) : Prop where
  placed : ∀ i ∈ b.instructions, i.Placed options
  file : FileFirst options b.literals
  distinct : b.literals.toList.Nodup

/-- A sealed block without blocks of its own. -/
structure Block.SealedLeaf (options : CompilerOptions) (b : Block) : Prop
    extends b.Sealed options where
  leaf : b.blocks = #[]

namespace Emit

variable {options : CompilerOptions} {c : EmitContext} {g g' : Generator} {ks : List Nat}

/-- The table has a block under the number `k`. -/
def Filled (g : Generator) (k : Nat) : Prop := ∃ b, g.table[k]? = some (some b)

/-- The block being compiled and all finished ones are sealed. -/
structure Sealed (options : CompilerOptions) (g : Generator) : Prop where
  placed : ∀ i ∈ g.code, i.Placed options
  file : FileFirst options g.pool.entries
  valid : g.pool.Valid
  table : ∀ (k : Nat) (b : Block), g.table[k]? = some (some b) → b.SealedLeaf options

/-- A step that keeps everything sealed, and fills no other places of the table than those given. -/
def Adds (options : CompilerOptions) (ks : List Nat) {α : Type} (m : Emit α) : Prop :=
  ∀ g a g', m g = .ok a g' → Sealed options g →
    Sealed options g' ∧ ∀ k, Filled g' k → Filled g k ∨ k ∈ ks

/-! ## Steps -/

theorem Adds.bind {α β : Type} {x : Emit α} {f : α → Emit β} (first : Adds options ks x)
    (later : ∀ a, Adds options ks (f a)) : Adds options ks (x >>= f) := by
  intro g b g' h hg
  obtain ⟨a, t, hx, hf⟩ := EStateM.bind_eq_ok.1 h
  obtain ⟨ht, filled⟩ := first g a t hx hg
  obtain ⟨hg', filled'⟩ := later a t b g' hf ht
  exact ⟨hg', fun k hk => (filled' k hk).elim (filled k) .inr⟩

/-- A literal keeps its number when another one is inserted. -/
theorem getElem?_insert {pool : LiteralPool} {s t : String} {k : Nat}
    (h : pool.entries[k]? = some t) : (pool.insert s).2.entries[k]? = some t := by
  obtain ⟨later, whole⟩ := pool.prefix_insert s
  rw [← Array.getElem?_toList] at h ⊢
  rw [← whole, List.getElem?_append_left (List.getElem?_eq_some_iff.1 h).1, h]

/-- Steps that change neither the code nor the table, and insert one literal at most. -/
theorem adds_of_same {α : Type} {m : Emit α}
    (h : ∀ g a g', m g = .ok a g' → g'.code = g.code ∧ g'.table = g.table
      ∧ (g'.pool = g.pool ∨ ∃ s, g'.pool = (g.pool.insert s).2)) :
    Adds options ks m := by
  intro g a g' hm hg
  obtain ⟨code, table, pool⟩ := h g a g' hm
  refine ⟨?_, fun k hk => .inl ?_⟩
  · rcases pool with pool | ⟨s, pool⟩
    · exact ⟨code ▸ hg.placed, pool ▸ hg.file, pool ▸ hg.valid, table ▸ hg.table⟩
    · refine ⟨code ▸ hg.placed, fun wanted => ?_, ?_, table ▸ hg.table⟩
      · rw [pool]
        exact getElem?_insert (hg.file wanted)
      · rw [pool]
        exact (hg.valid.inserts s).valid hg.valid
  · rwa [Filled, table] at hk

theorem adds_of_eq {α : Type} {m : Emit α} (h : ∀ g a g', m g = .ok a g' → g' = g) :
    Adds options ks m :=
  adds_of_same fun g a g' hm => by
    rw [h g a g' hm]
    exact ⟨rfl, rfl, .inl rfl⟩

theorem adds_pure {α : Type} (a : α) : Adds options ks (pure a : Emit α) := by
  refine adds_of_eq fun g b g' h => ?_
  cases h
  rfl

theorem adds_instruction {i : Instruction} (hi : i.Placed options) :
    Adds options ks (instruction i) := by
  intro g _ g' h hg
  cases h
  refine ⟨⟨fun j hj => ?_, hg.file, hg.valid, hg.table⟩, fun k hk => .inl hk⟩
  rcases Array.mem_push.1 hj with hj | rfl
  · exact hg.placed j hj
  · exact hi

theorem adds_mark (position : Position) : Adds c.options ks (mark c position) := by
  unfold mark
  split
  · rename_i wanted
    exact adds_instruction ⟨wanted, rfl⟩
  · exact adds_pure ()

theorem adds_literal (s : String) : Adds options ks (literal s) := by
  refine adds_of_same fun g l g' h => ?_
  obtain ⟨inserted, code, table⟩ := literal_eq_ok h
  exact ⟨code, table, .inr ⟨s, by rw [inserted]⟩⟩

theorem adds_report (level : Level) (message : String) : Adds options ks (report level message) :=
  adds_of_same fun g _ g' h => by
    cases h
    exact ⟨rfl, rfl, .inl rfl⟩

theorem adds_check {α : Type} (x : Except CompileError α) : Adds options ks (check x) :=
  adds_of_eq fun _ _ _ h => (check_eq_ok.1 h).2

theorem adds_depthTo (owner : ScopeId) (name : Ident) : Adds options ks (depthTo c owner name) :=
  adds_of_eq fun _ _ _ h => (depthTo_eq_ok h).1

theorem adds_warnAfter (previous : Option Position) : Adds options ks (warnAfter c previous) := by
  refine adds_of_same fun g _ g' h => ?_
  cases previous with
  | none =>
    cases h
    exact ⟨rfl, rfl, .inl rfl⟩
  | some position =>
    obtain ⟨name, t, hname, ⟨⟩⟩ := EStateM.bind_eq_ok.1 h
    obtain rfl := qualifiedName_eq_ok hname
    exact ⟨rfl, rfl, .inl rfl⟩

/-- Loads, stores and constants fill no place of the table. -/
theorem adds_load (name : Ident) : Adds options ks (load c name) := by
  have global : Adds options ks (do instruction (.pushGlobal (← literal name.name))) :=
    (adds_literal _).bind fun _ => adds_instruction (by trivial)
  unfold load
  split
  · exact adds_instruction (by trivial)
  · exact (adds_depthTo _ _).bind fun _ => adds_instruction (by trivial)
  · exact global
  · exact global

theorem adds_store (name : Ident) : Adds options ks (store c name) := by
  have never (cause : CompileError) : Adds options ks (throw cause : Emit Unit) :=
    fun g a g' h => by cases h
  unfold store
  split
  · exact adds_instruction (by trivial)
  · exact (adds_depthTo _ _).bind fun _ => adds_instruction (by trivial)
  · exact never _
  · exact never _

theorem adds_constant (value : Literal) : Adds options ks (constant value) := by
  unfold constant
  split
  · exact adds_instruction (by trivial)
  · exact adds_instruction (by trivial)
  · exact adds_instruction (by trivial)
  · exact adds_instruction (by trivial)
  · exact adds_instruction (by trivial)
  · exact (adds_check _).bind fun _ => adds_instruction (by trivial)
  · exact (adds_literal _).bind fun _ => adds_instruction (by trivial)

theorem adds_ifEmpty {stats : List Stat} {i : Instruction} {rest : Emit Unit}
    (hi : i.Placed options) (later : Adds options ks rest) :
    Adds options ks (if stats.isEmpty = true then (do instruction i; rest) else rest) := by
  split
  · exact (adds_instruction hi).bind fun _ => later
  · exact later

/-! ## Blocks of their own -/

/-- Compiling into a fresh block that is sealed from its start. -/
theorem inBlock_sealed {build : Emit Unit} {code : Array Instruction} {pool : LiteralPool}
    (builds : Adds c.options ks build) (h : inBlock c build g = .ok (code, pool) g')
    (hg : ∀ (k : Nat) (b : Block), g.table[k]? = some (some b) → b.SealedLeaf c.options) :
    (∀ i ∈ code, i.Placed c.options) ∧ FileFirst c.options pool.entries ∧ pool.Valid
      ∧ g'.code = g.code ∧ g'.pool = g.pool
      ∧ (∀ (k : Nat) (b : Block), g'.table[k]? = some (some b) → b.SealedLeaf c.options)
      ∧ ∀ k, Filled g' k → Filled g k ∨ k ∈ ks := by
  obtain ⟨⟨code₀, pool₀⟩, t₀, ⟨⟩, hrest⟩ := EStateM.bind_eq_ok.1 h
  have started : ∃ t, Sealed c.options t ∧ t.table = g.table
      ∧ (do
          build
          modifyGet fun g' => ((g'.code, g'.pool), { g' with code := g.code, pool := g.pool })
          : Emit _) t = .ok (code, pool) g' := by
    dsimp only at hrest
    split at hrest
    · obtain ⟨_, t, hfile, hbuild⟩ := EStateM.bind_eq_ok.1 hrest
      obtain ⟨l, t, hl, ⟨⟩⟩ := EStateM.bind_eq_ok.1 hfile
      obtain ⟨inserted, code, table⟩ := literal_eq_ok hl
      have pool : t.pool = (LiteralPool.insert {} c.options.fileName).2 := by rw [inserted]
      have file : t.pool.entries[0]? = some c.options.fileName := by
        rw [pool]
        simp [LiteralPool.insert, LiteralPool.capacity]
      have valid : t.pool.Valid := by
        rw [pool]
        exact (LiteralPool.valid_empty.inserts _).valid LiteralPool.valid_empty
      refine ⟨t, ⟨?_, fun _ => file, valid, table ▸ hg⟩, table, hbuild⟩
      rw [code]
      simp
    · rename_i unwanted
      exact ⟨{ g with code := #[], pool := {} },
        ⟨by simp, fun wanted => absurd wanted unwanted, LiteralPool.valid_empty, hg⟩, rfl, hrest⟩
  obtain ⟨t, ht, table, hbuild⟩ := started
  obtain ⟨_, t', built, ⟨⟩⟩ := EStateM.bind_eq_ok.1 hbuild
  obtain ⟨ht', filled⟩ := builds t () t' built ht
  refine ⟨ht'.placed, ht'.file, ht'.valid, rfl, rfl, ht'.table, fun k hk => ?_⟩
  have := filled k hk
  rwa [Filled, table] at this

/-- A finished block is sealed if what it is made of is. -/
theorem finish_sealed {tree : ScopeTree} {id : ScopeId} {code : Array Instruction}
    {pool : LiteralPool} {b : Block} (placed : ∀ i ∈ code, i.Placed options)
    (file : FileFirst options pool.entries) (valid : pool.Valid)
    (h : finish tree id code pool g = .ok b g') : g' = g ∧ b.SealedLeaf options := by
  unfold finish at h
  cases hs : tree.get? id with
  | none =>
    rw [hs] at h
    cases h
  | some s =>
    rw [hs] at h
    cases h
    refine ⟨rfl, ⟨fun i hi => ?_, file, valid.nodup⟩, rfl⟩
    rw [Block.instructions_eq (Instruction.reads_encodeAll code)] at hi
    obtain ⟨j, hj, rfl⟩ := List.mem_map.1 hi
    exact Instruction.placed_stored (placed j (Array.mem_def.2 hj))

/-- A place of a longer table that is filled was filled before. -/
theorem filled_of_growTo {table : Array (Option Block)} {n k : Nat} {b : Block}
    (h : (growTo table n)[k]? = some (some b)) : table[k]? = some (some b) := by
  unfold growTo at h
  split at h
  · exact h
  · rw [Array.getElem?_append] at h
    split at h
    · exact h
    · rw [Array.getElem?_replicate] at h
      split at h
      · cases h
      · cases h

theorem adds_enter {index : UInt16} {b : Block} (hb : b.SealedLeaf options)
    (known : index.toNat ∈ ks) : Adds options ks (enter index b) := by
  rintro ⟨code, pool, table, warnings, log⟩ _ g' h hg
  unfold enter at h
  dsimp only at h
  split at h
  · cases h
  · cases h
    -- a place of the new table holds the new block, or was filled before
    have old (k : Nat) (b' : Block)
        (hk : ((growTo table index.toNat).setIfInBounds index.toNat (some b))[k]?
          = some (some b')) :
        index.toNat = k ∧ b' = b ∨ table[k]? = some (some b') := by
      rw [Array.getElem?_setIfInBounds] at hk
      split at hk
      · rename_i he
        split at hk
        · cases hk
          exact .inl ⟨he, rfl⟩
        · cases hk
      · exact .inr (filled_of_growTo hk)
    refine ⟨⟨hg.placed, hg.file, hg.valid, fun k b' hk => ?_⟩, fun k hk => ?_⟩
    · rcases old k b' hk with ⟨-, rfl⟩ | hk
      · exact hb
      · exact hg.table k b' hk
    · obtain ⟨b', hk⟩ := hk
      rcases old k b' hk with ⟨rfl, -⟩ | hk
      · exact .inr known
      · exact .inl ⟨b', hk⟩

/-! ## Statements and expressions -/

/-- The numbers of block literals. -/
def indices (blocks : List (BlockHead × List Stat)) : List Nat := blocks.map (·.1.index.toNat)

theorem subset_of_append {bs cs : List (BlockHead × List Stat)} (h : indices (bs ++ cs) ⊆ ks) :
    indices bs ⊆ ks ∧ indices cs ⊆ ks := by
  rw [indices, List.map_append] at h
  exact List.append_subset.1 h

mutual

/-- **Code generation fills the places of the block literals of an expression**, and leaves
everything sealed. -/
theorem expr_adds (c : EmitContext) (e : Expr) (known : indices e.blocks ⊆ ks) :
    Adds c.options ks (expr c e) := by
  cases e with
  | literal value => exact adds_constant value
  | self => exact adds_instruction trivial
  | ident name => exact adds_load name
  | array items =>
    exact (exprs_adds c items known).bind fun _ => (adds_check _).bind fun _ =>
      adds_instruction (by trivial)
  | block head body =>
    obtain ⟨here, inside⟩ := List.cons_subset.1 known
    intro g _ g' h hg
    rw [expr] at h
    obtain ⟨b, t₀, hscope, hblock⟩ := EStateM.bind_eq_ok.1 h
    obtain ⟨rfl, -⟩ := scopeOf_eq_ok hscope
    obtain ⟨⟨code, pool⟩, t₁, hin, hfinish⟩ := EStateM.bind_eq_ok.1 hblock
    obtain ⟨compiled, t₂, hcompiled, hlast⟩ := EStateM.bind_eq_ok.1 hfinish
    obtain ⟨placed, file, valid, code', pool', table', filled⟩ := inBlock_sealed
      ((stats_adds { c with scope := b } body inside).bind fun _ =>
        adds_ifEmpty (by trivial) ((adds_mark _).bind fun _ => adds_instruction (by trivial)))
      hin hg.table
    obtain ⟨rfl, compiledSealed⟩ := finish_sealed placed file valid hcompiled
    have rest : Adds c.options ks (do
        report .debug ("compiled " ++ compiled.qualified)
        enter head.index compiled
        instruction (.block head.index)) :=
      (adds_report _ _).bind fun _ => (adds_enter compiledSealed here).bind fun _ =>
        adds_instruction trivial
    obtain ⟨sealed', filled'⟩ :=
      rest _ _ _ hlast ⟨code' ▸ hg.placed, pool' ▸ hg.file, pool' ▸ hg.valid, table'⟩
    exact ⟨sealed', fun k hk => (filled' k hk).elim (filled k) .inr⟩
  | send receiver selector args position =>
    obtain ⟨first, each⟩ := subset_of_append known
    exact (expr_adds c receiver first).bind fun _ => (exprs_adds c args each).bind fun _ =>
      (adds_mark _).bind fun _ => (adds_check _).bind fun _ => (adds_literal _).bind fun _ =>
      adds_instruction (by trivial)
  | superSend selector args position =>
    exact (adds_instruction (by trivial)).bind fun _ => (exprs_adds c args known).bind fun _ =>
      (adds_mark _).bind fun _ => (adds_check _).bind fun _ => (adds_literal _).bind fun _ =>
      adds_instruction (by trivial)

theorem exprs_adds (c : EmitContext) (es : List Expr) (known : indices (Expr.blocksAll es) ⊆ ks) :
    Adds c.options ks (exprs c es) := by
  cases es with
  | nil => exact adds_pure ()
  | cons e rest =>
    obtain ⟨first, each⟩ := subset_of_append known
    exact (expr_adds c e first).bind fun _ => exprs_adds c rest each

theorem stat_adds (c : EmitContext) (s : Stat) (known : indices s.blocks ⊆ ks) :
    Adds c.options ks (stat c s) := by
  cases s with
  | expr value => exact expr_adds c value known
  | assign target value position =>
    exact (adds_mark _).bind fun _ => (expr_adds c value known).bind fun _ => adds_store target
  | ret value position =>
    exact (expr_adds c value known).bind fun _ => (adds_mark _).bind fun _ =>
      adds_instruction (by trivial)

theorem stats_adds (c : EmitContext) (ss : List Stat) (known : indices (Stat.blocksAll ss) ⊆ ks) :
    Adds c.options ks (stats c ss) := by
  cases ss with
  | nil => exact adds_pure ()
  | cons s rest =>
    obtain ⟨first, each⟩ := subset_of_append known
    exact (stat_adds c s first).bind fun _ => statsAfter_adds c _ rest each

theorem statsAfter_adds (c : EmitContext) (previous : Option Position) (ss : List Stat)
    (known : indices (Stat.blocksAll ss) ⊆ ks) : Adds c.options ks (statsAfter c previous ss) := by
  cases ss with
  | nil => exact adds_pure ()
  | cons s rest =>
    obtain ⟨first, each⟩ := subset_of_append known
    exact (adds_instruction (by trivial)).bind fun _ => (adds_warnAfter _).bind fun _ =>
      (stat_adds c s first).bind fun _ => statsAfter_adds c _ rest each

end

/-! ## Methods and main bodies -/

/-- A method or main body is sealed with the blocks nested in it, and these are the blocks of the
given block literals. -/
structure Whole (options : CompilerOptions) (ks : List Nat) (b : Block) : Prop where
  outer : b.Sealed options
  nested : ∀ (k : Nat) (b' : Block), b.blocks[k]? = some b' → b'.SealedLeaf options ∧ k ∈ ks

theorem withTable_whole {build : Emit Unit} {b : Block} (builds : Adds c.options ks build)
    (h : withTable c build g = .ok b g') : Whole c.options ks b := by
  obtain ⟨_, t₀, ⟨⟩, hrest⟩ := EStateM.bind_eq_ok.1 h
  obtain ⟨⟨code, pool⟩, t₁, hin, hrest⟩ := EStateM.bind_eq_ok.1 hrest
  obtain ⟨bs, t₂, htake, hrest⟩ := EStateM.bind_eq_ok.1 hrest
  obtain ⟨compiled, t₃, hfinish, ⟨⟩⟩ := EStateM.bind_eq_ok.1 hrest
  obtain ⟨placed, file, valid, -, -, table, filled⟩ := inBlock_sealed builds hin (by simp)
  obtain ⟨-, outer⟩ := finish_sealed placed file valid hfinish
  refine ⟨⟨outer.placed, outer.file, outer.distinct⟩, fun k b' hk => ?_⟩
  have entered := (takeBlocks_eq_ok htake k b').1 hk
  refine ⟨table k b' entered, (filled k ⟨b', entered⟩).resolve_left ?_⟩
  rintro ⟨_, hk⟩
  simp at hk

/-- **The code of a method is sealed.** -/
theorem method_whole {tree : ScopeTree} {m : Method} {body : Body} {b : Block}
    (hm : m.kind = .code body) (h : method tree options m g = .ok b g') :
    Whole options (indices (Stat.blocksAll body.stats)) b := by
  obtain ⟨scope, t₀, hscope, hkind⟩ := EStateM.bind_eq_ok.1 h
  rw [hm] at hkind
  obtain ⟨compiled, t₁, htable, hlast⟩ := EStateM.bind_eq_ok.1 hkind
  obtain ⟨_, t₂, hlog, ⟨⟩⟩ := EStateM.bind_eq_ok.1 hlast
  have ending {ks : List Nat} :
      Adds options ks (do instruction .pushSelf; instruction .ret : Emit Unit) :=
    (adds_instruction (by trivial)).bind fun _ => adds_instruction (by trivial)
  have whole := withTable_whole
    ((stats_adds ⟨tree, options, scope⟩ body.stats (List.Subset.refl _)).bind fun _ =>
      (adds_mark _).bind fun _ => by
      split
      · exact (adds_instruction (by trivial)).bind fun _ => ending
      · exact ending) htable
  exact ⟨⟨whole.outer.placed, whole.outer.file, whole.outer.distinct⟩, whole.nested⟩

/-- **The code of a main body is sealed.** -/
theorem mainBody_whole {tree : ScopeTree} {m : MainBody} {b : Block}
    (h : mainBody tree options m g = .ok b g') :
    Whole options (indices (Stat.blocksAll m.body.stats)) b := by
  obtain ⟨scope, t₀, hscope, hrest⟩ := EStateM.bind_eq_ok.1 h
  obtain ⟨compiled, t₁, htable, hlast⟩ := EStateM.bind_eq_ok.1 hrest
  obtain ⟨_, t₂, hlog, ⟨⟩⟩ := EStateM.bind_eq_ok.1 hlast
  exact withTable_whole
    ((stats_adds ⟨tree, options, scope⟩ m.body.stats (List.Subset.refl _)).bind fun _ =>
      adds_ifEmpty (by trivial) ((adds_mark _).bind fun _ => adds_instruction (by trivial)))
    htable

end Emit

end Colloquy
