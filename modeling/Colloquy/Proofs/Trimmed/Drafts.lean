import Colloquy.Proofs.Compile.Lexical

/-!
# What a piece of text adds to a draft

Whatever text is compiled next, a draft only grows: instructions and literals are put behind those
that are there, and the block literals of the text get the next numbers, one each, without a gap
(`Draft.Grows`).  All that instructions name is there: literals are in the pool, and the numbers of
block literals are below the next one (`Draft.Sound`).  So the finished table of a method has a
block under each number.

Main statement: `Lexical.stats_grows`.
-/

namespace Colloquy

open Instruction (Reads stored)

/-! ## What instructions name -/

namespace Instruction

/-- The literal that the instruction names is one of the first `lits`, and the nested block one of
the first `blocks`. -/
def Below (lits blocks : Nat) : Instruction → Prop
  | pushLiteral l | pushGlobal l | send _ l | sendSuper _ l => l.toNat < lits
  | block k => k.toNat < blocks
  | _ => True

variable {lits lits' blocks blocks' : Nat} {i : Instruction}

theorem Below.mono (h : i.Below lits blocks) (longer : lits ≤ lits') (more : blocks ≤ blocks') :
    i.Below lits' blocks' := by
  cases i with
  | pushLiteral l | pushGlobal l | send argc l | sendSuper argc l =>
    exact Nat.lt_of_lt_of_le h longer
  | block k => exact Nat.lt_of_lt_of_le h more
  | _ => trivial

theorem Below.stored (h : i.Below lits blocks) : i.stored.Below lits blocks := by
  cases i with
  | debug file position => trivial
  | _ => exact h

end Instruction

/-- The code can be read, and all that it names is there: literals of its own, and one of the first
`blocks` blocks that are nested in its method. -/
structure Block.Below (blocks : Nat) (b : Block) : Prop where
  code : ∃ is, Reads b.bytecode 0 is b.bytecode.size ∧ ∀ i ∈ is, i.Below b.literals.size blocks
  flat : b.blocks = #[]
  coded : b.primitive = none

theorem Block.Below.mono {n k : Nat} {b : Block} (h : b.Below n) (more : n ≤ k) : b.Below k := by
  obtain ⟨is, reads, below⟩ := h.code
  exact ⟨⟨is, reads, fun i hi => (below i hi).mono (Nat.le_refl _) more⟩, h.flat, h.coded⟩

/-! ## Literal pools -/

namespace LiteralPool

theorem size_insert (pool : LiteralPool) (s : String) :
    pool.entries.size ≤ (pool.insert s).2.entries.size := by
  simpa using (pool.prefix_insert s).length_le

/-- A string that has been inserted has a number in the pool.  If there was no room for it, it is
taken to have the number of the first one. -/
theorem Valid.insert {pool : LiteralPool} (valid : pool.Valid) (s : String) :
    (pool.insert s).2.Valid
      ∧ (((pool.insert s).2.lookup s).getD 0).toNat < (pool.insert s).2.entries.size := by
  cases h : pool.insert s with
  | mk inserted pool' =>
    cases inserted with
    | ok l =>
      obtain ⟨valid', -, found⟩ := insert_eq_ok valid h
      rw [Emit.lookup_insert h]
      exact ⟨valid', (Array.getElem?_eq_some_iff.1 found).1⟩
    | error e =>
      have inserts := valid.inserts s
      rw [h] at inserts
      cases inserts with
      | full absent size =>
        refine ⟨valid, ?_⟩
        rw [lookup, valid.index_eq_none_iff.2 absent, size]
        exact Nat.zero_lt_succ _

end LiteralPool

theorem CompilerOptions.valid_pool (options : CompilerOptions) : options.pool.Valid := by
  unfold pool
  split
  · exact (LiteralPool.valid_empty.insert _).1
  · exact LiteralPool.valid_empty

/-! ## Drafts -/

namespace Draft

/-- The block under a number. -/
def entry (d : Draft) (k : Nat) : Option Block := d.table[k]?.join

/-- All that has been drafted names what is there. -/
structure Sound (d : Draft) : Prop where
  pool : d.pool.Valid
  code : ∀ i ∈ d.code, i.Below d.pool.entries.size d.next
  table : d.table.size ≤ d.next
  entries : ∀ k b, d.entry k = some b → b.Below d.next

/-- The draft `d'` has come from `d` by text with `n` block literals. -/
structure Grows (n : Nat) (d d' : Draft) : Prop where
  next : d'.next = d.next + n
  code : d.code <+: d'.code
  literals : d.pool.entries.toList <+: d'.pool.entries.toList
  kept : ∀ k < d.next, d'.entry k = d.entry k
  made : ∀ k, d.next ≤ k → k < d'.next → (d'.entry k).isSome
  sound : d.Sound → d'.Sound

variable {d d' d'' : Draft} {n k : Nat}

theorem Sound.lt_next {b : Block} (h : d.Sound) (entry : d.entry k = some b) : k < d.next := by
  refine Nat.lt_of_lt_of_le ?_ h.table
  rw [Draft.entry, Option.join_eq_some_iff] at entry
  exact (Array.getElem?_eq_some_iff.1 entry).1

/-- A method begins with an empty table. -/
theorem sound_fresh (options : CompilerOptions) : Sound { pool := options.pool } :=
  ⟨options.valid_pool, List.forall_mem_nil _, Nat.le_refl _, fun k b h => by simp [entry] at h⟩

theorem Grows.refl (d : Draft) : Grows 0 d d :=
  ⟨rfl, List.prefix_refl _, List.prefix_refl _, fun _ _ => rfl,
    fun _ low high => absurd high (Nat.not_lt.2 low), id⟩

theorem Grows.trans (h : Grows n d d') (h' : Grows k d' d'') : Grows (n + k) d d'' where
  next := by rw [h'.next, h.next, Nat.add_assoc]
  code := h.code.trans h'.code
  literals := h.literals.trans h'.literals
  kept j hj := by
    rw [h'.kept j (by rw [h.next]; omega), h.kept j hj]
  made j low high := by
    rcases Nat.lt_or_ge j d'.next with old | new
    · rw [h'.kept j old]
      exact h.made j low old
    · exact h'.made j new high
  sound := h'.sound ∘ h.sound

/-- The table stays as it was. -/
theorem Grows.of_table {is : List Instruction} {pool : LiteralPool}
    (literals : d.pool.entries.toList <+: pool.entries.toList)
    (sound : d.pool.Valid → pool.Valid ∧ ∀ i ∈ is, i.Below pool.entries.size 0) :
    Grows 0 d { d with code := d.code ++ is, pool } := by
  refine ⟨rfl, List.prefix_append _ _, literals, fun _ _ => rfl,
    fun _ low high => absurd high (Nat.not_lt.2 low), fun h => ?_⟩
  obtain ⟨valid, below⟩ := sound h.pool
  have longer : d.pool.entries.size ≤ pool.entries.size := by simpa using literals.length_le
  refine ⟨valid, fun i hi => ?_, h.table, h.entries⟩
  rcases List.mem_append.1 hi with old | new
  · exact (h.code i old).mono longer (Nat.le_refl _)
  · exact (below i new).mono (Nat.le_refl _) (Nat.zero_le _)

theorem grows_add {is : List Instruction} (h : ∀ i ∈ is, i.Below 0 0) (d : Draft) :
    Grows 0 d (d.add is) :=
  .of_table (List.prefix_refl _) fun valid =>
    ⟨valid, fun i hi => (h i hi).mono (Nat.zero_le _) (Nat.le_refl _)⟩

theorem grows_instruction (d : Draft) {i : Instruction} (h : i.Below 0 0 := by trivial) :
    Grows 0 d (d.add [i]) :=
  grows_add (fun _ hj => List.mem_singleton.1 hj ▸ h) d

theorem grows_name {make : UInt16 → Instruction}
    (names : ∀ (l : UInt16) (lits : Nat), l.toNat < lits → (make l).Below lits 0) (s : String)
    (d : Draft) : Grows 0 d (d.name make s) :=
  .of_table (d.pool.prefix_insert s) fun valid =>
    ⟨(valid.insert s).1, fun _ hi => List.mem_singleton.1 hi ▸ names _ _ (valid.insert s).2⟩

theorem below_marks (options : CompilerOptions) (position : Position) :
    ∀ i ∈ options.marks position, i.Below 0 0 := by
  unfold CompilerOptions.marks
  split <;> simp [Instruction.Below]

theorem below_ending (ending : Ending) (empty : Bool) {marks : List Instruction}
    (h : ∀ i ∈ marks, i.Below 0 0) : ∀ i ∈ ending.code empty marks, i.Below 0 0 := by
  have last (is : List Instruction) (hi : ∀ i ∈ is, i.Below 0 0) : ∀ i ∈ marks ++ is, i.Below 0 0 :=
    List.forall_mem_append.2 ⟨h, hi⟩
  cases ending with
  | method => exact last _ (by cases empty <;> simp [Instruction.Below])
  | block | main =>
    refine List.forall_mem_append.2 ⟨?_, last _ (by simp [Instruction.Below])⟩
    cases empty <;> simp [Instruction.Below]

theorem grows_constant (value : Literal) (d : Draft) : Grows 0 d (d.constant value) := by
  cases value with
  | nil | int n | float x | char ch => exact grows_instruction d
  | bool b => cases b <;> exact grows_instruction d
  | string s => exact grows_name (fun _ _ => id) s d

theorem grows_load (x : String) (address : Address) (d : Draft) : Grows 0 d (d.load x address) := by
  cases address with
  | slot hops index | field index => exact grows_instruction d
  | global => exact grows_name (fun _ _ => id) x d

theorem grows_store (address : Address) (d : Draft) : Grows 0 d (d.store address) := by
  cases address with
  | slot hops index | field index => exact grows_instruction d
  | global => exact .refl d

/-! ### Block literals -/

theorem size_growTo_le {table : Array (Option Block)} {i : Nat} (h : table.size ≤ n) (hi : i < n) :
    (Emit.growTo table i).size ≤ n := by
  unfold Emit.growTo
  split
  · exact h
  · rw [Array.size_append, Array.size_replicate]
    omega

theorem join_growTo (table : Array (Option Block)) (i k : Nat) :
    (Emit.growTo table i)[k]?.join = table[k]?.join := by
  unfold Emit.growTo
  split
  · rfl
  · rw [Array.getElem?_append, Array.getElem?_replicate]
    split
    · rfl
    · rw [Array.getElem?_eq_none (by omega)]
      split <;> rfl

/-- The table behind a block literal has the block under the number of the literal. -/
theorem entry_enter (d inner : Draft) (b : Block) (k : Nat) :
    (d.enter inner b).entry k = if k = d.next then some b else inner.entry k := by
  unfold entry enter
  dsimp only
  rw [Array.getElem?_setIfInBounds]
  by_cases here : k = d.next
  · subst here
    rw [if_pos rfl, if_pos rfl, if_pos (Emit.size_growTo _ _)]
    rfl
  · rw [if_neg (Ne.symm here), if_neg here, join_growTo]

theorem entry_enter_self (d inner : Draft) (b : Block) : (d.enter inner b).entry d.next = some b :=
  (entry_enter d inner b d.next).trans (if_pos rfl)

/-- A block that has been drafted has code that names what is there. -/
theorem Sound.block (h : d.Sound) (name qualified : String) (args locals : List String) :
    (d.block name qualified args locals).Below d.next := by
  refine ⟨⟨_, Instruction.reads_encodeAll _, fun i hi => ?_⟩, rfl, rfl⟩
  obtain ⟨j, hj, rfl⟩ := List.mem_map.1 hi
  exact (h.code j hj).stored

theorem Sound.opened (h : d.Sound) (options : CompilerOptions) : (d.opened options).Sound :=
  ⟨options.valid_pool, List.forall_mem_nil _, Nat.le_succ_of_le h.table,
    fun k b hk => (h.entries k b hk).mono (Nat.le_succ _)⟩

theorem grows_enter {options : CompilerOptions} {inner : Draft}
    (h : Grows n (d.opened options) inner) {b : Block} (hb : inner.Sound → b.Below inner.next) :
    Grows (n + 1) d (d.enter inner b) := by
  have next : inner.next = d.next + 1 + n := h.next
  have number : d.next.toUInt16.toNat ≤ d.next := Nat.mod_le _ _
  refine ⟨next.trans (by omega), List.prefix_append _ _, List.prefix_refl _, fun k hk => ?_,
    fun k low high => ?_, fun sound => ?_⟩
  · rw [entry_enter, if_neg (Nat.ne_of_lt hk), h.kept k (Nat.lt_succ_of_lt hk)]
    rfl
  · rw [entry_enter]
    split
    · rfl
    · exact h.made k (Nat.lt_of_le_of_ne low (Ne.symm ‹_›)) high
  · have within := h.sound (sound.opened options)
    refine ⟨sound.pool, fun i hi => ?_, ?_, fun k b' hk => ?_⟩
    · rcases List.mem_append.1 hi with old | new
      · exact (sound.code i old).mono (Nat.le_refl _) (show d.next ≤ inner.next by omega)
      · rw [List.mem_singleton.1 new]
        show _ < inner.next
        omega
    · show ((Emit.growTo inner.table d.next).setIfInBounds _ _).size ≤ inner.next
      rw [Array.size_setIfInBounds]
      exact size_growTo_le within.table (by omega)
    · rw [entry_enter] at hk
      split at hk
      · cases hk
        exact hb within
      · exact within.entries k b' hk

end Draft

/-! ## Text -/

namespace Lexical

variable (options : CompilerOptions)

mutual

/-- **What an expression adds.** -/
theorem expr_grows (p : Surroundings) (e : Expr) (d : Draft) :
    d.Grows e.blocks.length (expr options p e d) := by
  cases e with
  | literal value => exact Draft.grows_constant value d
  | self => exact Draft.grows_instruction d
  | ident x => exact Draft.grows_load _ _ d
  | array items => exact (exprs_grows p items d).trans (Draft.grows_instruction _)
  | block head body =>
    have inner := stats_grows (p.inside d.next head) body (d.opened options)
    refine Draft.grows_enter (inner.trans (Draft.grows_add ?_ _)) fun sound => sound.block _ _ _ _
    exact Draft.below_ending _ _ (Draft.below_marks options _)
  | send receiver message args position =>
    have operands := (expr_grows p receiver d).trans (exprs_grows p args _)
    rw [Expr.blocks, List.length_append]
    exact (operands.trans (Draft.grows_add (Draft.below_marks options position) _)).trans
      (Draft.grows_name (fun _ _ => id) message _)
  | superSend message args position =>
    have receiver := Draft.grows_instruction d (i := .pushSelf)
    have operands := receiver.trans (exprs_grows p args _)
    rw [Nat.zero_add] at operands
    exact (operands.trans (Draft.grows_add (Draft.below_marks options position) _)).trans
      (Draft.grows_name (fun _ _ => id) message _)
termination_by structural e

theorem exprs_grows (p : Surroundings) (es : List Expr) (d : Draft) :
    d.Grows (Expr.blocksAll es).length (exprs options p es d) := by
  cases es with
  | nil => exact .refl d
  | cons e rest =>
    rw [Expr.blocksAll, List.length_append]
    exact (expr_grows p e d).trans (exprs_grows p rest _)
termination_by structural es

theorem stat_grows (p : Surroundings) (s : Stat) (d : Draft) :
    d.Grows s.blocks.length (stat options p s d) := by
  cases s with
  | expr value => exact expr_grows p value d
  | assign target value position =>
    have valued := (Draft.grows_add (Draft.below_marks options position) d).trans
      (expr_grows p value _)
    rw [Nat.zero_add] at valued
    exact valued.trans (Draft.grows_store _ _)
  | ret value position =>
    refine (expr_grows p value d).trans (Draft.grows_add ?_ _)
    exact List.forall_mem_append.2 ⟨Draft.below_marks options position, by simp [Instruction.Below]⟩
termination_by structural s

/-- **What statements add.** -/
theorem stats_grows (p : Surroundings) (ss : List Stat) (d : Draft) :
    d.Grows (Stat.blocksAll ss).length (stats options p ss d) := by
  cases ss with
  | nil => exact .refl d
  | cons s rest =>
    rw [Stat.blocksAll, List.length_append]
    exact (stat_grows p s d).trans (behind_grows p rest _)
termination_by structural ss

theorem behind_grows (p : Surroundings) (ss : List Stat) (d : Draft) :
    d.Grows (Stat.blocksAll ss).length (behind options p ss d) := by
  cases ss with
  | nil => exact .refl d
  | cons s rest =>
    have popped := Draft.grows_instruction d (i := .pop)
    have first := popped.trans (stat_grows p s _)
    rw [Nat.zero_add] at first
    rw [Stat.blocksAll, List.length_append]
    exact first.trans (behind_grows p rest _)
termination_by structural ss

end

end Lexical

/-! ## Finished tables -/

namespace Draft

variable {d : Draft}

theorem getElem?_filterMap_id {α : Type} {os : List (Option α)} (h : ∀ o ∈ os, o.isSome) (k : Nat) :
    (os.filterMap id)[k]? = os[k]?.join := by
  induction os generalizing k with
  | nil => rfl
  | cons o os ih =>
    obtain ⟨first, rest⟩ := List.forall_mem_cons.1 h
    obtain ⟨a, rfl⟩ := Option.isSome_iff_exists.1 first
    cases k with
    | zero => rfl
    | succ k => exact ih rest k

/-- **A table without a gap is the list of its blocks.** -/
theorem getElem?_blocks (sound : d.Sound) (full : ∀ k < d.next, (d.entry k).isSome) (k : Nat) :
    d.blocks[k]? = d.entry k := by
  have every : ∀ o ∈ d.table.toList, o.isSome := by
    intro o ho
    obtain ⟨j, hj⟩ := List.mem_iff_getElem?.1 ho
    rw [Array.getElem?_toList] at hj
    have here := full j (Nat.lt_of_lt_of_le (Array.getElem?_eq_some_iff.1 hj).1 sound.table)
    rw [entry, hj] at here
    exact here
  rw [blocks, List.getElem?_toArray, getElem?_filterMap_id every, Array.getElem?_toList, entry]

end Draft

end Colloquy
