import Mathlib.Data.List.Perm.Subperm
import Colloquy.Proofs.Compile.Emission
import Colloquy.Proofs.Likeness

/-!
# Code with and without source positions

If source positions are not wanted, there are no `debug` instructions in the code, and the file name
is not among the literals, so that literals get other numbers.  Nothing else changes: `b.Twin b'`
says that the block `b` without its source positions is `b'`.

Code generation is followed with both options at once.  A pool without the file name has fewer
strings, so it has room for every string that the other one has room for.

Main statement: with source positions or without them, a program is accepted with the same warnings
or rejected for the same reason, unless the source positions leave no room for a literal
(`compileBare_follows`).
-/

namespace Colloquy

open Instruction (Reads stored)

/-! ## Twins -/

namespace Instruction

def isDebug : Instruction → Bool
  | debug _ _ => true
  | _ => false

/-- The instructions without source positions. -/
def plain (is : List Instruction) : List Instruction := is.filter (!·.isDebug)

/-- The instruction has nothing to do with literals. -/
def Unnamed : Instruction → Prop
  | pushLiteral _ | pushGlobal _ | send _ _ | sendSuper _ _ | debug _ _ => False
  | _ => True

/-- Two numbers of one string, in two lists of literals. -/
def SameLiteral (lits lits' : Array String) (l l' : UInt16) : Prop :=
  ∃ s, lits[l.toNat]? = some s ∧ lits'[l'.toNat]? = some s

/-- The instructions are the same but for the numbers of literals. -/
inductive Twin (lits lits' : Array String) : Instruction → Instruction → Prop where
  | same {i : Instruction} (h : i.Unnamed) : Twin lits lits' i i
  | pushLiteral {l l' : UInt16} (h : SameLiteral lits lits' l l') :
      Twin lits lits' (.pushLiteral l) (.pushLiteral l')
  | pushGlobal {l l' : UInt16} (h : SameLiteral lits lits' l l') :
      Twin lits lits' (.pushGlobal l) (.pushGlobal l')
  | send {l l' : UInt16} (argc : UInt16) (h : SameLiteral lits lits' l l') :
      Twin lits lits' (.send argc l) (.send argc l')
  | sendSuper {l l' : UInt16} (argc : UInt16) (h : SameLiteral lits lits' l l') :
      Twin lits lits' (.sendSuper argc l) (.sendSuper argc l')

variable {lits lits' more more' : Array String} {i i' : Instruction}

theorem stored_of_not_debug (h : i.isDebug = false) : i.stored = i := by
  cases i with
  | debug file position => cases h
  | _ => rfl

theorem isDebug_stored (i : Instruction) : i.stored.isDebug = i.isDebug := by
  cases i <;> rfl

/-- Source positions are all that changes when code is written. -/
theorem plain_map_stored (is : List Instruction) : plain (is.map stored) = plain is := by
  induction is with
  | nil => rfl
  | cons i is ih =>
    rw [List.map_cons, plain, List.filter_cons, isDebug_stored]
    rw [plain] at ih
    cases hi : i.isDebug with
    | true => simpa [plain, hi] using ih
    | false => simpa [plain, hi, stored_of_not_debug hi] using ih

theorem Twin.not_debug (h : Twin lits lits' i i') : i.isDebug = false ∧ i'.isDebug = false := by
  cases h with
  | same h =>
    cases i with
    | debug file position => exact h.elim
    | _ => exact ⟨rfl, rfl⟩
  | _ => exact ⟨rfl, rfl⟩

/-- More literals do not matter. -/
theorem Twin.mono (h : Twin lits lits' i i') (longer : lits.toList <+: more.toList)
    (longer' : lits'.toList <+: more'.toList) : Twin more more' i i' := by
  have kept {as bs : Array String} {k : Nat} {s : String} (hk : as[k]? = some s)
      (longer : as.toList <+: bs.toList) : bs[k]? = some s := by
    obtain ⟨rest, hrest⟩ := longer
    rw [← Array.getElem?_toList] at hk ⊢
    rw [← hrest, List.getElem?_append_left (List.getElem?_eq_some_iff.1 hk).1, hk]
  have still {l l' : UInt16} (h : SameLiteral lits lits' l l') : SameLiteral more more' l l' :=
    h.imp fun s hs => ⟨kept hs.1 longer, kept hs.2 longer'⟩
  cases h with
  | same h => exact .same h
  | pushLiteral h => exact .pushLiteral (still h)
  | pushGlobal h => exact .pushGlobal (still h)
  | send argc h => exact .send argc (still h)
  | sendSuper argc h => exact .sendSuper argc (still h)

end Instruction

namespace Block

/-- The second block is the first one without its source positions; nested blocks apart. -/
structure Twin (b b' : Block) : Prop where
  head : b.SameHead b'
  code : ∃ is is', Reads b.bytecode 0 is b.bytecode.size ∧ Reads b'.bytecode 0 is' b'.bytecode.size
    ∧ List.Forall₂ (Instruction.Twin b.literals b'.literals) (Instruction.plain is) is'
  distinct : b.literals.toList.Nodup
  distinct' : b'.literals.toList.Nodup

/-- Twins as they stand in the tables of their methods: they have code, and no tables of their
own. -/
structure InnerTwin (b b' : Block) : Prop where
  twin : b.Twin b'
  primitive : b.primitive = none
  blocks : b.blocks = #[]
  blocks' : b'.blocks = #[]

/-- Twins with the blocks nested in them. -/
structure OuterTwin (b b' : Block) : Prop where
  twin : b.Twin b'
  nested : List.Forall₂ InnerTwin b.blocks.toList b'.blocks.toList

end Block

/-- The classes are the same but for their methods, which are twins. -/
structure CompiledClass.Twin (c c' : CompiledClass) : Prop where
  name : c'.name = c.name
  superclass : c'.superclass = c.superclass
  fields : c'.fields = c.fields
  methods : List.Forall₂ Block.OuterTwin c.methods c'.methods

/-! ## Following code generation -/

namespace LiteralPool

variable {pool pool' after : LiteralPool} {s : String} {l : UInt16}

theorem mem_insert {t : String} (h : t ∈ (pool.insert s).2.entries.toList) :
    t = s ∨ t ∈ pool.entries.toList := by
  obtain ⟨entries, index⟩ := pool
  unfold insert at h
  dsimp only at h
  split at h
  · exact .inr h
  · split at h
    · rw [Array.toList_push, List.mem_append, List.mem_singleton] at h
      exact h.symm
    · exact .inr h

/-- **A string that finds room in a pool finds room in one with fewer strings.** -/
theorem insert_of_subset (valid : pool.Valid) (valid' : pool'.Valid)
    (fewer : pool'.entries.toList ⊆ pool.entries.toList) (h : pool.insert s = (.ok l, after)) :
    ∃ l' after', pool'.insert s = (.ok l', after') ∧ after'.Valid
      ∧ pool'.entries.toList <+: after'.entries.toList
      ∧ after'.entries.toList ⊆ after.entries.toList
      ∧ Instruction.SameLiteral after.entries after'.entries l l' := by
  obtain ⟨validAfter, longer, found⟩ := insert_eq_ok valid h
  have known : s ∈ after.entries.toList := by
    rw [← Array.getElem?_toList] at found
    exact List.mem_of_getElem? found
  have subset : pool'.entries.toList ⊆ after.entries.toList :=
    fun t ht => longer.subset (fewer ht)
  have room (other : s ∉ pool'.entries) : pool'.entries.size < 65536 := by
    -- the string and what is in the smaller pool are all in the larger one
    have other : s ∉ pool'.entries.toList := mt Array.mem_toList_iff.1 other
    have both :=
      (List.nodup_cons.2 ⟨other, valid'.nodup⟩).subperm (List.cons_subset.2 ⟨known, subset⟩)
    have := Nat.le_trans both.length_le (Nat.le_of_eq Array.length_toList)
    rw [List.length_cons, Array.length_toList] at this
    exact Nat.lt_of_lt_of_le this validAfter.short
  have inserted : ∃ l' after', pool'.insert s = (.ok l', after') := by
    have inserts := valid'.inserts s
    cases h' : pool'.insert s with
    | mk inserted after' =>
      rw [h'] at inserts
      cases inserts with
      | known | new => exact ⟨_, _, rfl⟩
      | full absent size => exact absurd (room absent) (Nat.not_lt.2 (Nat.le_of_eq size.symm))
  obtain ⟨l', after', h'⟩ := inserted
  obtain ⟨validAfter', longer', found'⟩ := insert_eq_ok valid' h'
  refine ⟨l', after', h', validAfter', longer', fun t ht => ?_, s, found, found'⟩
  have ht : t ∈ (pool'.insert s).2.entries.toList := by rwa [h']
  rcases mem_insert ht with rfl | ht
  · exact known
  · exact subset ht

end LiteralPool

namespace Emit

/-- The second state is the first one without source positions. -/
structure Twin (g g' : Generator) : Prop where
  code : List.Forall₂ (Instruction.Twin g.pool.entries g'.pool.entries)
    (Instruction.plain g.code.toList) g'.code.toList
  valid : g.pool.Valid
  valid' : g'.pool.Valid
  fewer : g'.pool.entries.toList ⊆ g.pool.entries.toList
  table : List.Forall₂ (Option.Rel Block.InnerTwin) g.table.toList g'.table.toList
  warnings : g'.warnings = g.warnings

/-- What comes of a step with source positions and of the same step without them: both succeed, with
answers that `T` relates, or both fail for the same reason, unless the first runs out of
literals. -/
inductive Follows {α β : Type} (T : α → β → Prop) :
    EStateM.Result CompileError Generator α → EStateM.Result CompileError Generator β → Prop where
  | ok {a : α} {b : β} {t t' : Generator} (h : T a b) (twin : Twin t t') :
      Follows T (.ok a t) (.ok b t')
  | error (e : CompileError) (t t' : Generator) : Follows T (.error e t) (.error e t')
  | full (s : String) (t : Generator) (r : EStateM.Result CompileError Generator β) :
      Follows T (.error (.tooManyLiterals s) t) r

/-- The second step does what the first one does, without source positions. -/
def Mirrors {α β : Type} (T : α → β → Prop) (x : Emit α) (x' : Emit β) : Prop :=
  ∀ g g', Twin g g' → Follows T (x g) (x' g')

variable {tree : ScopeTree} {options options' : CompilerOptions} {scope : ScopeId}

theorem Mirrors.bind {α β γ δ : Type} {T : α → β → Prop} {U : γ → δ → Prop} {x : Emit α}
    {x' : Emit β} {f : α → Emit γ} {f' : β → Emit δ} (first : Mirrors T x x')
    (later : ∀ a a', T a a' → Mirrors U (f a) (f' a')) : Mirrors U (x >>= f) (x' >>= f') := by
  intro g g' twin
  have follows := first g g' twin
  change Follows U (EStateM.bind x f g) (EStateM.bind x' f' g')
  unfold EStateM.bind
  generalize x g = r at follows
  generalize x' g' = r' at follows
  cases follows with
  | ok h twin => exact later _ _ h _ _ twin
  | error e t t' => exact .error e t t'
  | full s t r => exact .full s t _

/-! ## Small steps -/

theorem mirrors_pure {α β : Type} {T : α → β → Prop} {a : α} {b : β} (h : T a b) :
    Mirrors T (pure a : Emit α) (pure b : Emit β) :=
  fun _ _ twin => .ok h twin

theorem mirrors_throw {α β : Type} {T : α → β → Prop} (e : CompileError) :
    Mirrors T (throw e : Emit α) (throw e : Emit β) :=
  fun g g' _ => .error e g g'

theorem mirrors_check {α : Type} (x : Except CompileError α) :
    Mirrors Eq (check x) (check x) := by
  cases x with
  | ok a => exact mirrors_pure rfl
  | error e => exact mirrors_throw e

/-- What is reported to the log does not matter. -/
theorem mirrors_report (level : Level) (message message' : String) :
    Mirrors Eq (report level message) (report level message') :=
  fun _ _ twin => .ok rfl
    ⟨twin.code, twin.valid, twin.valid', twin.fewer, twin.table, twin.warnings⟩

theorem mirrors_scopeOf (id : Option ScopeId) (what : String) :
    Mirrors Eq (scopeOf id what) (scopeOf id what) := by
  cases id with
  | some id => exact mirrors_pure rfl
  | none => exact mirrors_throw _

theorem mirrors_qualifiedName (id : ScopeId) :
    Mirrors Eq (qualifiedName tree id) (qualifiedName tree id) := by
  unfold qualifiedName
  split
  · exact mirrors_pure rfl
  · exact mirrors_throw _

theorem plain_push (is : Array Instruction) {i : Instruction} (h : i.isDebug = false) :
    Instruction.plain (is.push i).toList = Instruction.plain is.toList ++ [i] := by
  simp [Instruction.plain, h]

theorem plain_push_debug (is : Array Instruction) (file : UInt16) (position : Position) :
    Instruction.plain (is.push (.debug file position)).toList = Instruction.plain is.toList := by
  simp [Instruction.plain, Instruction.isDebug]

/-- Instructions that are twins are appended. -/
theorem Twin.push {g g' : Generator} {i i' : Instruction} (twin : Twin g g')
    (h : Instruction.Twin g.pool.entries g'.pool.entries i i') :
    Twin { g with code := g.code.push i } { g' with code := g'.code.push i' } := by
  refine ⟨?_, twin.valid, twin.valid', twin.fewer, twin.table, twin.warnings⟩
  dsimp only
  rw [plain_push _ h.not_debug.1, Array.toList_push]
  exact List.rel_append twin.code (.cons h .nil)

theorem mirrors_instruction {i : Instruction} (h : i.Unnamed) :
    Mirrors Eq (instruction i) (instruction i) :=
  fun _ _ twin => .ok rfl (twin.push (.same h))

/-- A string gets a number, or finds no room. -/
theorem literal_cases (s : String) (g : Generator) :
    (∃ l after, g.pool.insert s = (.ok l, after) ∧ literal s g = .ok l { g with pool := after })
      ∨ ∃ t, literal s g = .error (.tooManyLiterals s) t := by
  obtain ⟨code, ⟨entries, index⟩, table, warnings, log⟩ := g
  simp only [literal, LiteralPool.insert]
  cases index[s]? with
  | some l => exact .inl ⟨_, _, rfl, rfl⟩
  | none =>
    by_cases room : entries.size < LiteralPool.capacity
    · rw [if_pos room]
      exact .inl ⟨_, _, rfl, rfl⟩
    · rw [if_neg room]
      exact .inr ⟨_, rfl⟩

/-- An instruction that refers to a string. -/
theorem mirrors_named {f : UInt16 → Instruction} (s : String)
    (hf : ∀ {lits lits' : Array String} {l l' : UInt16},
      Instruction.SameLiteral lits lits' l l' → Instruction.Twin lits lits' (f l) (f l')) :
    Mirrors Eq (do instruction (f (← literal s))) (do instruction (f (← literal s))) := by
  intro g g' twin
  change Follows Eq (EStateM.bind (literal s) (fun l => instruction (f l)) g)
    (EStateM.bind (literal s) (fun l => instruction (f l)) g')
  rcases literal_cases s g with ⟨l, after, inserted, made⟩ | ⟨t, made⟩
  · obtain ⟨l', after', inserted', valid', longer', fewer, same⟩ :=
      LiteralPool.insert_of_subset twin.valid twin.valid' twin.fewer inserted
    obtain ⟨valid, longer, -⟩ := LiteralPool.insert_eq_ok twin.valid inserted
    have made' : literal s g' = .ok l' { g' with pool := after' } := by
      rw [literal, inserted']
    have grown : Twin { g with pool := after } { g' with pool := after' } :=
      ⟨twin.code.imp fun _ _ h => h.mono longer longer', valid, valid', fewer, twin.table,
        twin.warnings⟩
    rw [EStateM.bind, EStateM.bind, made, made']
    exact .ok rfl (grown.push (hf same))
  · rw [EStateM.bind, made]
    exact .full s t _

theorem mirrors_mark (off : options'.debugInfo = false) (position : Position) :
    Mirrors Eq (mark ⟨tree, options, scope⟩ position) (mark ⟨tree, options', scope⟩ position) := by
  intro g g' twin
  have none : mark ⟨tree, options', scope⟩ position g' = .ok () g' := by
    rw [mark, off]
    rfl
  rw [none, mark]
  split
  · refine .ok rfl ⟨?_, twin.valid, twin.valid', twin.fewer, twin.table, twin.warnings⟩
    rw [plain_push_debug]
    exact twin.code
  · exact .ok rfl twin

theorem mirrors_warnAfter (previous : Option Position) :
    Mirrors Eq (warnAfter ⟨tree, options, scope⟩ previous)
      (warnAfter ⟨tree, options', scope⟩ previous) := by
  cases previous with
  | none => exact mirrors_pure rfl
  | some position =>
    refine (mirrors_qualifiedName scope).bind fun name name' same => ?_
    cases same
    refine (mirrors_report _ _ _).bind fun _ _ _ g g' twin => .ok rfl ?_
    exact ⟨twin.code, twin.valid, twin.valid', twin.fewer, twin.table,
      congrArg (fun warnings : Array String => warnings.push _) twin.warnings⟩

theorem mirrors_depthTo (owner : ScopeId) (name : Ident) :
    Mirrors Eq (depthTo ⟨tree, options, scope⟩ owner name)
      (depthTo ⟨tree, options', scope⟩ owner name) := by
  unfold depthTo
  dsimp only
  split
  · exact mirrors_pure rfl
  · exact mirrors_throw _

theorem mirrors_load (name : Ident) :
    Mirrors Eq (load ⟨tree, options, scope⟩ name) (load ⟨tree, options', scope⟩ name) := by
  unfold load
  split
  · exact mirrors_instruction (by trivial)
  · refine (mirrors_depthTo _ _).bind fun depth depth' same => ?_
    cases same
    exact mirrors_instruction (by trivial)
  · exact mirrors_named name.name .pushGlobal
  · exact mirrors_named name.name .pushGlobal

theorem mirrors_store (name : Ident) :
    Mirrors Eq (store ⟨tree, options, scope⟩ name) (store ⟨tree, options', scope⟩ name) := by
  unfold store
  split
  · exact mirrors_instruction (by trivial)
  · refine (mirrors_depthTo _ _).bind fun depth depth' same => ?_
    cases same
    exact mirrors_instruction (by trivial)
  · exact mirrors_throw _
  · exact mirrors_throw _

theorem mirrors_constant (value : Literal) : Mirrors Eq (constant value) (constant value) := by
  unfold constant
  split
  · exact mirrors_instruction (by trivial)
  · exact mirrors_instruction (by trivial)
  · exact mirrors_instruction (by trivial)
  · exact mirrors_instruction (by trivial)
  · exact mirrors_instruction (by trivial)
  · refine (mirrors_check _).bind fun code code' same => ?_
    cases same
    exact mirrors_instruction (by trivial)
  · exact mirrors_named _ .pushLiteral

/-- The value of the last statement stays, or something is pushed in its place if there is none. -/
theorem mirrors_ifEmpty {stats : List Stat} {i : Instruction} {rest rest' : Emit Unit}
    (h : i.Unnamed) (later : Mirrors Eq rest rest') :
    Mirrors Eq (if stats.isEmpty = true then (do instruction i; rest) else rest)
      (if stats.isEmpty = true then (do instruction i; rest') else rest') := by
  split
  · exact (mirrors_instruction h).bind fun _ _ _ => later
  · exact later

/-! ## Blocks of their own -/

/-- Code and literals of one block. -/
structure Written (done done' : Array Instruction × LiteralPool) : Prop where
  code : List.Forall₂ (Instruction.Twin done.2.entries done'.2.entries)
    (Instruction.plain done.1.toList) done'.1.toList
  valid : done.2.Valid
  valid' : done'.2.Valid
  fewer : done'.2.entries.toList ⊆ done.2.entries.toList

/-- The file name is one more literal. -/
theorem mirrors_file (off : options'.debugInfo = false) {α β : Type} {T : α → β → Prop}
    {rest : Emit α} {rest' : Emit β} (later : Mirrors T rest rest') :
    Mirrors T
      (if options.debugInfo = true then (do discard (literal options.fileName); rest) else rest)
      (if options'.debugInfo = true then (do discard (literal options'.fileName); rest')
        else rest') := by
  rw [off, if_neg Bool.false_ne_true]
  split
  · intro g g' twin
    change Follows T
      (EStateM.bind (EStateM.map (fun _ => ()) (literal options.fileName)) (fun _ => rest) g) _
    rcases literal_cases options.fileName g with ⟨l, after, inserted, made⟩ | ⟨t, made⟩
    · obtain ⟨valid, longer, -⟩ := LiteralPool.insert_eq_ok twin.valid inserted
      rw [EStateM.bind, EStateM.map, made]
      exact later _ _ ⟨twin.code.imp fun _ _ h => h.mono longer (List.prefix_refl _), valid,
        twin.valid', fun s hs => longer.subset (twin.fewer hs), twin.table, twin.warnings⟩
    · rw [EStateM.bind, EStateM.map, made]
      exact .full _ t _
  · exact later

/-- **Compiling into a block of its own**, which starts with the file name or with nothing. -/
theorem mirrors_inBlock (off : options'.debugInfo = false) {build build' : Emit Unit}
    (builds : Mirrors Eq build build') :
    Mirrors Written (inBlock ⟨tree, options, scope⟩ build)
      (inBlock ⟨tree, options', scope⟩ build') := by
  have opened : Mirrors Written
      (modifyGet fun g => ((g.code, g.pool), { g with code := #[], pool := {} }) : Emit _)
      (modifyGet fun g => ((g.code, g.pool), { g with code := #[], pool := {} })) := by
    intro g g' twin
    exact .ok ⟨twin.code, twin.valid, twin.valid', twin.fewer⟩
      ⟨.nil, LiteralPool.valid_empty, LiteralPool.valid_empty, List.Subset.refl _, twin.table,
        twin.warnings⟩
  have closed {outer outer' : Array Instruction × LiteralPool} (before : Written outer outer') :
      Mirrors Written
        (modifyGet fun g => ((g.code, g.pool), { g with code := outer.1, pool := outer.2 })
          : Emit _)
        (modifyGet fun g => ((g.code, g.pool), { g with code := outer'.1, pool := outer'.2 })) := by
    intro g g' twin
    exact .ok ⟨twin.code, twin.valid, twin.valid', twin.fewer⟩
      ⟨before.code, before.valid, before.valid', before.fewer, twin.table, twin.warnings⟩
  exact opened.bind fun _ _ before => mirrors_file off (builds.bind fun _ _ _ => closed before)

/-- A finished block has no table. -/
theorem mirrors_finish (id : ScopeId) {done done' : Array Instruction × LiteralPool}
    (written : Written done done') :
    Mirrors Block.InnerTwin (finish tree id done.1 done.2) (finish tree id done'.1 done'.2) := by
  unfold finish
  split
  · exact mirrors_throw _
  · refine mirrors_pure ⟨⟨⟨rfl, rfl, rfl, rfl, rfl, rfl⟩, ?_, written.valid.nodup,
      written.valid'.nodup⟩, rfl, rfl, rfl⟩
    refine ⟨_, _, Instruction.reads_encodeAll done.1, Instruction.reads_encodeAll done'.1, ?_⟩
    rw [Instruction.plain_map_stored, List.forall₂_map_right_iff]
    refine written.code.imp fun i i' h => ?_
    rw [Instruction.stored_of_not_debug h.not_debug.2]
    exact h

theorem forall₂_growTo {table table' : Array (Option Block)} (n : Nat)
    (h : List.Forall₂ (Option.Rel Block.InnerTwin) table.toList table'.toList) :
    List.Forall₂ (Option.Rel Block.InnerTwin) (growTo table n).toList (growTo table' n).toList := by
  have size : table'.size = table.size := by simpa using h.length_eq.symm
  unfold growTo
  rw [size]
  split
  · exact h
  · rw [Array.toList_append, Array.toList_append]
    refine List.rel_append h (List.forall₂_same.2 fun entry he => ?_)
    rw [Array.toList_replicate] at he
    rw [List.eq_of_mem_replicate he]
    exact .none

theorem mirrors_enter (index : UInt16) {b b' : Block} (hb : b.InnerTwin b') :
    Mirrors Eq (enter index b) (enter index b') := by
  rintro ⟨code, pool, table, warnings, log⟩ ⟨code', pool', table', warnings', log'⟩ twin
  have grown := forall₂_growTo index.toNat twin.table
  have place := forall₂_getElem? grown index.toNat
  rw [Array.getElem?_toList, Array.getElem?_toList] at place
  unfold enter
  dsimp only
  rw [Array.getD_eq_getD_getElem?, Array.getD_eq_getD_getElem?, hb.twin.head.qualified]
  have free : Follows Eq (.ok () ⟨code, pool, (growTo table index.toNat).setIfInBounds index.toNat
        (some b), warnings, log⟩)
      (.ok () ⟨code', pool', (growTo table' index.toNat).setIfInBounds index.toNat (some b'),
        warnings', log'⟩) := by
    refine .ok rfl ⟨twin.code, twin.valid, twin.valid', twin.fewer, ?_, twin.warnings⟩
    dsimp only
    rw [Array.toList_setIfInBounds, Array.toList_setIfInBounds]
    exact forall₂_set grown index.toNat (.some hb)
  generalize (growTo table index.toNat)[index.toNat]? = o at place
  generalize (growTo table' index.toNat)[index.toNat]? = o' at place
  cases place with
  | none => exact free
  | some entry =>
    cases entry with
    | none => exact free
    | some _ => exact .error _ _ _

/-! ## Statements and expressions -/

mutual

/-- **The code of an expression** is generated without source positions too. -/
theorem expr_mirrors (off : options'.debugInfo = false) (scope : ScopeId) (e : Expr) :
    Mirrors Eq (expr ⟨tree, options, scope⟩ e) (expr ⟨tree, options', scope⟩ e) := by
  cases e with
  | literal value => exact mirrors_constant value
  | self => exact mirrors_instruction trivial
  | ident name => exact mirrors_load name
  | array items =>
    refine (exprs_mirrors off scope items).bind fun _ _ _ =>
      (mirrors_check _).bind fun n n' same => ?_
    cases same
    exact mirrors_instruction (by trivial)
  | block head body =>
    rw [expr, expr]
    refine (mirrors_scopeOf _ _).bind fun b b' same => ?_
    cases same
    refine (mirrors_inBlock off ((stats_mirrors off b body).bind fun _ _ _ =>
      mirrors_ifEmpty (by trivial) ((mirrors_mark off _).bind fun _ _ _ =>
        mirrors_instruction (by trivial)))).bind fun done done' written => ?_
    refine (mirrors_finish b written).bind fun compiled compiled' twin => ?_
    exact (mirrors_report _ _ _).bind fun _ _ _ => (mirrors_enter _ twin).bind fun _ _ _ =>
      mirrors_instruction trivial
  | send receiver selector args position =>
    refine (expr_mirrors off scope receiver).bind fun _ _ _ =>
      (exprs_mirrors off scope args).bind fun _ _ _ => (mirrors_mark off position).bind fun _ _ _ =>
      (mirrors_check _).bind fun argc argc' same => ?_
    cases same
    exact mirrors_named selector (.send argc)
  | superSend selector args position =>
    refine (mirrors_instruction (by trivial)).bind fun _ _ _ =>
      (exprs_mirrors off scope args).bind fun _ _ _ => (mirrors_mark off position).bind fun _ _ _ =>
      (mirrors_check _).bind fun argc argc' same => ?_
    cases same
    exact mirrors_named selector (.sendSuper argc)

theorem exprs_mirrors (off : options'.debugInfo = false) (scope : ScopeId) (es : List Expr) :
    Mirrors Eq (exprs ⟨tree, options, scope⟩ es) (exprs ⟨tree, options', scope⟩ es) := by
  cases es with
  | nil => exact mirrors_pure rfl
  | cons e rest =>
    exact (expr_mirrors off scope e).bind fun _ _ _ => exprs_mirrors off scope rest

theorem stat_mirrors (off : options'.debugInfo = false) (scope : ScopeId) (s : Stat) :
    Mirrors Eq (stat ⟨tree, options, scope⟩ s) (stat ⟨tree, options', scope⟩ s) := by
  cases s with
  | expr value => exact expr_mirrors off scope value
  | assign target value position =>
    exact (mirrors_mark off position).bind fun _ _ _ =>
      (expr_mirrors off scope value).bind fun _ _ _ => mirrors_store target
  | ret value position =>
    exact (expr_mirrors off scope value).bind fun _ _ _ =>
      (mirrors_mark off position).bind fun _ _ _ => mirrors_instruction (by trivial)

theorem stats_mirrors (off : options'.debugInfo = false) (scope : ScopeId) (ss : List Stat) :
    Mirrors Eq (stats ⟨tree, options, scope⟩ ss) (stats ⟨tree, options', scope⟩ ss) := by
  cases ss with
  | nil => exact mirrors_pure rfl
  | cons s rest =>
    exact (stat_mirrors off scope s).bind fun _ _ _ => statsAfter_mirrors off scope _ rest

theorem statsAfter_mirrors (off : options'.debugInfo = false) (scope : ScopeId)
    (previous : Option Position) (ss : List Stat) :
    Mirrors Eq (statsAfter ⟨tree, options, scope⟩ previous ss)
      (statsAfter ⟨tree, options', scope⟩ previous ss) := by
  cases ss with
  | nil => exact mirrors_pure rfl
  | cons s rest =>
    exact (mirrors_instruction (by trivial)).bind fun _ _ _ =>
      (mirrors_warnAfter previous).bind fun _ _ _ =>
      (stat_mirrors off scope s).bind fun _ _ _ => statsAfter_mirrors off scope _ rest

end

/-! ## Methods, classes and programs -/

theorem mirrors_tableBlocks {qualified : String} {table table' : List (Option Block)} {i : Nat}
    {done done' : List Block} (h : List.Forall₂ (Option.Rel Block.InnerTwin) table table')
    (hd : List.Forall₂ Block.InnerTwin done done') :
    Mirrors (List.Forall₂ Block.InnerTwin) (check (tableBlocks qualified table i done))
      (check (tableBlocks qualified table' i done')) := by
  induction h generalizing i done done' with
  | nil => exact mirrors_pure (List.forall₂_reverse_iff.2 hd)
  | cons entry _ ih =>
    cases entry with
    | none => exact mirrors_throw _
    | some hb => exact ih (.cons hb hd)

theorem mirrors_takeBlocks (id : ScopeId) :
    Mirrors (List.Forall₂ Block.InnerTwin) (takeBlocks tree id) (takeBlocks tree id) := by
  have taken : Mirrors (fun table table' : Array (Option Block) =>
        List.Forall₂ (Option.Rel Block.InnerTwin) table.toList table'.toList)
      (modifyGet fun g => (g.table, { g with table := #[] }) : Emit _)
      (modifyGet fun g => (g.table, { g with table := #[] })) :=
    fun _ _ twin => .ok twin.table
      ⟨twin.code, twin.valid, twin.valid', twin.fewer, .nil, twin.warnings⟩
  refine (mirrors_qualifiedName id).bind fun qualified _ same => ?_
  cases same
  exact taken.bind fun table table' h => mirrors_tableBlocks h .nil

theorem mirrors_withTable (off : options'.debugInfo = false) {build build' : Emit Unit}
    (builds : Mirrors Eq build build') :
    Mirrors Block.OuterTwin (withTable ⟨tree, options, scope⟩ build)
      (withTable ⟨tree, options', scope⟩ build') := by
  have cleared : Mirrors Eq (modify fun g => { g with table := #[] } : Emit Unit)
      (modify fun g => { g with table := #[] }) := by
    intro g g' twin
    exact .ok rfl ⟨twin.code, twin.valid, twin.valid', twin.fewer, .nil, twin.warnings⟩
  refine cleared.bind fun _ _ _ => (mirrors_inBlock off builds).bind fun done done' written =>
    (mirrors_takeBlocks scope).bind fun bs bs' nested =>
    (mirrors_finish scope written).bind fun compiled compiled' inner => mirrors_pure ?_
  exact ⟨⟨⟨inner.twin.head.name, inner.twin.head.qualified, inner.twin.head.nargs,
    inner.twin.head.nlocals, inner.twin.head.primitive, inner.twin.head.classSide⟩,
    inner.twin.code, inner.twin.distinct, inner.twin.distinct'⟩, nested⟩

theorem mirrors_primitiveMethod (m : Method) (id : ScopeId) (tag : String) :
    Mirrors Block.OuterTwin (primitiveMethod tree m id tag) (primitiveMethod tree m id tag) := by
  refine (mirrors_qualifiedName id).bind fun qualified _ same => ?_
  cases same
  dsimp only
  split
  · exact mirrors_throw _
  · split
    · exact mirrors_throw _
    · refine mirrors_pure
        ⟨⟨⟨rfl, rfl, rfl, rfl, rfl, rfl⟩, ?_, List.nodup_nil, List.nodup_nil⟩, .nil⟩
      exact ⟨[], [], .nil 0, .nil 0, .nil⟩

theorem mirrors_method (off : options'.debugInfo = false) (m : Method) :
    Mirrors Block.OuterTwin (method tree options m) (method tree options' m) := by
  refine (mirrors_scopeOf _ _).bind fun scope _ same => ?_
  cases same
  have last {compiled compiled' : Block} (h : compiled.OuterTwin compiled') :
      Mirrors Block.OuterTwin
        (do report .debug ("compiled " ++ compiled.qualified)
            return { compiled with classSide := m.classSide })
        (do report .debug ("compiled " ++ compiled'.qualified)
            return { compiled' with classSide := m.classSide }) := by
    refine (mirrors_report _ _ _).bind fun _ _ _ => mirrors_pure ⟨⟨⟨h.twin.head.name,
      h.twin.head.qualified, h.twin.head.nargs, h.twin.head.nlocals, h.twin.head.primitive, rfl⟩,
      h.twin.code, h.twin.distinct, h.twin.distinct'⟩, h.nested⟩
  cases m.kind with
  | primitive tag => exact (mirrors_primitiveMethod m scope tag).bind fun _ _ => last
  | code body =>
    have ending : Mirrors Eq (do instruction .pushSelf; instruction .ret : Emit Unit)
        (do instruction .pushSelf; instruction .ret) :=
      (mirrors_instruction (by trivial)).bind fun _ _ _ => mirrors_instruction (by trivial)
    refine (mirrors_withTable off ((stats_mirrors off scope body.stats).bind fun _ _ _ =>
      (mirrors_mark off _).bind fun _ _ _ => ?_)).bind fun _ _ => last
    split
    · exact (mirrors_instruction (by trivial)).bind fun _ _ _ => ending
    · exact ending

theorem mirrors_mainBody (off : options'.debugInfo = false) (m : MainBody) :
    Mirrors Block.OuterTwin (mainBody tree options m) (mainBody tree options' m) := by
  refine (mirrors_scopeOf _ _).bind fun scope _ same => ?_
  cases same
  exact (mirrors_withTable off ((stats_mirrors off scope m.body.stats).bind fun _ _ _ =>
    mirrors_ifEmpty (by trivial) ((mirrors_mark off _).bind fun _ _ _ =>
      mirrors_instruction (by trivial)))).bind fun _ _ twin =>
    (mirrors_report _ _ _).bind fun _ _ _ => mirrors_pure twin

theorem mirrors_mapM {α β γ : Type} {T : β → γ → Prop} {f : α → Emit β} {f' : α → Emit γ}
    (each : ∀ a, Mirrors T (f a) (f' a)) (as : List α) :
    Mirrors (List.Forall₂ T) (as.mapM f) (as.mapM f') := by
  induction as with
  | nil =>
    rw [List.mapM_nil, List.mapM_nil]
    exact mirrors_pure .nil
  | cons a rest ih =>
    rw [List.mapM_cons, List.mapM_cons]
    exact (each a).bind fun b c hbc => ih.bind fun bs cs hs => mirrors_pure (.cons hbc hs)

/-- **The code of a program** is generated without source positions too. -/
theorem mirrors_program (off : options'.debugInfo = false) (p : Program) :
    Mirrors (List.Forall₂ CompiledClass.Twin) (program tree options p)
      (program tree options' p) := by
  have cls (c : ClassDef) :
      Mirrors CompiledClass.Twin (Emit.cls tree options c) (Emit.cls tree options' c) :=
    (mirrors_mapM (mirrors_method off) c.methods).bind fun _ _ methods =>
      mirrors_pure ⟨rfl, rfl, rfl, methods⟩
  refine (mirrors_mapM cls p.classes).bind fun cs cs' classes => ?_
  cases p.main with
  | none => exact mirrors_pure classes
  | some m =>
    have last : Mirrors CompiledClass.Twin (mainAsClass tree options m)
        (mainAsClass tree options' m) :=
      (mirrors_mainBody off m).bind fun _ _ twin =>
        mirrors_pure ⟨rfl, rfl, rfl, .cons twin .nil⟩
    exact last.bind fun _ _ twin => mirrors_pure (List.rel_append classes (.cons twin .nil))

end Emit

/-- What comes of compiling a program with source positions and without them. -/
inductive CompiledProgram.Follows :
    Except CompileError CompiledProgram → Except CompileError CompiledProgram → Prop where
  | ok {p p' : CompiledProgram} (warnings : p'.warnings = p.warnings)
      (classes : List.Forall₂ CompiledClass.Twin p.classes p'.classes) : Follows (.ok p) (.ok p')
  | error (e : CompileError) : Follows (.error e) (.error e)
  | full (s : String) (r : Except CompileError CompiledProgram) :
      Follows (.error (.tooManyLiterals s)) r

/-- **A program is accepted with source positions as it is without them**, with the same warnings,
or rejected for the same reason, unless they leave no room for a literal. -/
theorem compileBare_follows {options options' : CompilerOptions} (off : options'.debugInfo = false)
    (p : Program) :
    CompiledProgram.Follows (compileBare options p).2 (compileBare options' p).2 := by
  have fresh : Emit.Twin {} {} :=
    ⟨.nil, LiteralPool.valid_empty, LiteralPool.valid_empty, List.Subset.refl _, .nil, rfl⟩
  unfold compileBare
  cases resolve p with
  | mk log r =>
    cases r with
    | error e => exact .error e
    | ok r =>
      have made := @Emit.mirrors_program r.tree options options' off r.program {} {} fresh
      dsimp only
      unfold generate
      generalize Emit.program r.tree options r.program {} = x at made
      generalize Emit.program r.tree options' r.program {} = x' at made
      cases made with
      | ok twins twin => exact .ok (congrArg Array.toList twin.warnings) twins
      | error e t t' => exact .error e
      | full s t x' => exact .full s _

end Colloquy
