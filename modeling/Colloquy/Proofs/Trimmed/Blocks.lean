import Colloquy.Proofs.Trimmed.Drafts
import Colloquy.Proofs.Trimmed.Text
import Colloquy.Proofs.Twin.Images

/-!
# The code of a method that something has been left out of

If statements behind a return are left out of a method, the block literals in them have no numbers
any more, and later block literals come to stand further up in the table of the method
(`numberBefore`).  So `b.Trims σ b'` says of two blocks that the instructions of the second one are
those of the first one up to the end or up to a return, where `σ` says which number a nested block
had before.

Drafts are aligned if their tables agree in this way (`Draft.Aligned`).  Text that stands behind the
statements that were left out is compiled to the same instructions and keeps the drafts aligned.

Main statement: `Lexical.stats_shifted`.
-/

namespace Colloquy

open Instruction (Reads stored)

/-! ## Renumbered code -/

/-- The number that a block literal had before `lost` block literals were left out that came right
before number `first`. -/
def numberBefore (first lost n : Nat) : Nat := if n < first then n else n + lost

section

variable {first lost n : Nat}

theorem numberBefore_of_lt (h : n < first) : numberBefore first lost n = n := if_pos h

theorem numberBefore_of_le (h : first ≤ n) : numberBefore first lost n = n + lost :=
  if_neg (Nat.not_lt.2 h)

theorem numberBefore_injective (first lost : Nat) :
    Function.Injective (numberBefore first lost) := by
  intro a b same
  unfold numberBefore at same
  split at same <;> split at same <;> omega

end

namespace Instruction

/-- The instructions are the same, but that `σ` says what the number of a nested block was; literals
are among the first `lits`. -/
inductive Renumbered (σ : Nat → Nat) (lits : Nat) : Instruction → Instruction → Prop where
  | same {i : Instruction} (h : i.Below lits 0) : Renumbered σ lits i i
  | block {k k' : UInt16} (h : k.toNat = σ k'.toNat) : Renumbered σ lits (.block k) (.block k')

/-- The second list is the first one, renumbered, up to the end or up to a return. -/
inductive Trims (σ : Nat → Nat) (lits : Nat) : List Instruction → List Instruction → Prop where
  | nil : Trims σ lits [] []
  | cons {i i' : Instruction} {is is' : List Instruction} (h : Renumbered σ lits i i')
      (rest : Trims σ lits is is') : Trims σ lits (i :: is) (i' :: is')
  | ret (is is' : List Instruction) : Trims σ lits (.ret :: is) (.ret :: is')

variable {σ : Nat → Nat} {lits lits' n : Nat} {i i' : Instruction}
  {is is' js js' : List Instruction}

theorem Renumbered.mono (h : Renumbered σ lits i i') (longer : lits ≤ lits') :
    Renumbered σ lits' i i' := by
  cases h with
  | same h => exact .same (h.mono longer (Nat.le_refl _))
  | block h => exact .block h

theorem Renumbered.stored (h : Renumbered σ lits i i') : Renumbered σ lits i.stored i'.stored := by
  cases h with
  | same h => exact .same h.stored
  | block h => exact .block h

/-- An instruction stays the same if the numbers of nested blocks do. -/
theorem renumbered_self (h : i.Below lits n) (fixed : ∀ k < n, σ k = k) :
    Renumbered σ lits i i := by
  cases i with
  | block k => exact .block (fixed _ h).symm
  | _ => exact .same h

theorem all_renumbered (h : ∀ i ∈ is, i.Below lits n) (fixed : ∀ k < n, σ k = k) :
    List.Forall₂ (Renumbered σ lits) is is :=
  List.forall₂_same.2 fun i hi => renumbered_self (h i hi) fixed

theorem trims_append (front : List.Forall₂ (Renumbered σ lits) is is') (h : Trims σ lits js js') :
    Trims σ lits (is ++ js) (is' ++ js') := by
  induction front with
  | nil => exact h
  | cons first _ ih => exact .cons first ih

theorem trims_of_forall₂ (h : List.Forall₂ (Renumbered σ lits) is is') : Trims σ lits is is' := by
  have whole := trims_append h .nil
  rwa [List.append_nil, List.append_nil] at whole

/-- Code that is written is trimmed as it is read back. -/
theorem Trims.stored (h : Trims σ lits is is') :
    Trims σ lits (is.map stored) (is'.map Instruction.stored) := by
  induction h with
  | nil => exact .nil
  | cons h _ ih => exact .cons h.stored ih
  | ret is is' => exact .ret _ _

end Instruction

/-! ## Blocks -/

namespace Block

/-- The second block is the first one with its nested blocks renumbered and, perhaps, without some
of what stood behind a return.  It may go by another name. -/
structure Trims (σ : Nat → Nat) (b b' : Block) : Prop where
  nargs : b'.nargs = b.nargs
  nlocals : b'.nlocals = b.nlocals
  primitive : b'.primitive = b.primitive
  classSide : b'.classSide = b.classSide
  literals : b'.literals.toList <+: b.literals.toList
  code : ∃ is is', Reads b.bytecode 0 is b.bytecode.size ∧ Reads b'.bytecode 0 is' b'.bytecode.size
    ∧ Instruction.Trims σ b'.literals.size is is'

/-- Blocks as they stand in the tables of their methods. -/
structure InnerTrims (σ : Nat → Nat) (b b' : Block) : Prop where
  trims : b.Trims σ b'
  flat : b.blocks = #[]
  flat' : b'.blocks = #[]

/-- Where the code of the method, or that of a block nested in it, names a nested block, there is
one in the table. -/
def Tabled (m : Block) : Prop :=
  ∀ b, b = m ∨ b ∈ m.blocks → ∃ is, Reads b.bytecode 0 is b.bytecode.size
    ∧ ∀ k : UInt16, Instruction.block k ∈ is → k.toNat < m.blocks.size

/-- Methods with the blocks nested in them. -/
structure OuterTrims (σ : Nat → Nat) (b b' : Block) : Prop where
  head : b.SameHead b'
  trims : b.Trims σ b'
  nested : ∀ k, Option.Rel (InnerTrims σ) b.blocks[σ k]? b'.blocks[k]?
  tabled : b'.Tabled

/-- The blocks are compiled from a body and from what is left of it up to a return.  The code is the
same up to and including that return, behind which the second block has only what the compiler puts
at the end of a body.  The second block has the first literals of the first one. -/
structure CutTo (options : CompilerOptions) (ending : Ending) (b b' : Block) : Prop where
  code : ∃ (start rest : List Instruction) (position : Position),
    b.bytecode = Instruction.encodeAll (start ++ Instruction.ret :: rest).toArray
    ∧ b'.bytecode = Instruction.encodeAll
      (start ++ Instruction.ret :: ending.code false (options.marks position)).toArray
  literals : b'.literals.toList <+: b.literals.toList

/-- The block at the end of a path through the tables of nested blocks, innermost step first. -/
def at? (b : Block) : (path : List Nat) → Option Block
  | [] => some b
  | k :: path => (b.at? path).bind (·.blocks[k]?)

variable {σ : Nat → Nat} {n : Nat} {b : Block}

theorem Below.inner (h : b.Below n) (fixed : ∀ k < n, σ k = k) : b.InnerTrims σ b := by
  obtain ⟨is, reads, below⟩ := h.code
  exact ⟨⟨rfl, rfl, rfl, rfl, List.prefix_refl _, is, is, reads, reads,
    Instruction.trims_of_forall₂ (Instruction.all_renumbered below fixed)⟩, h.flat, h.flat⟩

end Block

theorem blockAt_eq (ms : List Block) (number : Nat) (path : List Nat) :
    blockAt ms number path = ms[number]?.bind (·.at? path) := by
  induction path with
  | nil =>
    rw [blockAt]
    cases ms[number]? <;> rfl
  | cons k path ih =>
    rw [blockAt, ih, Option.bind_assoc]
    rfl

/-! ## Drafts side by side -/

namespace Draft

/-- The tables agree, but for `lost` entries that came right before number `first`. -/
structure Aligned (first lost : Nat) (d d' : Draft) : Prop where
  next : d.next = d'.next + lost
  low : first ≤ d'.next
  table : ∀ k b', d'.entry k = some b' → ∃ b, d.entry (numberBefore first lost k) = some b
    ∧ b.InnerTrims (numberBefore first lost) b'

/-- The code is the same too, renumbered. -/
structure Shifted (first lost : Nat) (d d' : Draft) : Prop where
  aligned : d.Aligned first lost d'
  pool : d.pool = d'.pool
  valid : d'.pool.Valid
  code : List.Forall₂ (Instruction.Renumbered (numberBefore first lost) d'.pool.entries.size)
    d.code d'.code

variable {first lost n : Nat} {d d' inner inner' : Draft} {b b' : Block}

/-- More instructions leave the tables as they are. -/
theorem Aligned.add (h : d.Aligned first lost d') (is is' : List Instruction) :
    (d.add is).Aligned first lost (d'.add is') :=
  ⟨h.next, h.low, h.table⟩

namespace Shifted

/-- The tables stay as they were. -/
theorem of_table (h : d.Shifted first lost d') {is : List Instruction} {pool : LiteralPool}
    (longer : d'.pool.entries.size ≤ pool.entries.size) (valid : pool.Valid)
    (below : ∀ i ∈ is, i.Below pool.entries.size 0) :
    Shifted first lost { d with code := d.code ++ is, pool }
      { d' with code := d'.code ++ is, pool } := by
  refine ⟨⟨h.aligned.next, h.aligned.low, h.aligned.table⟩, rfl, valid, ?_⟩
  refine List.rel_append (h.code.imp fun _ _ hi => hi.mono longer) ?_
  exact Instruction.all_renumbered below fun k hk => absurd hk (Nat.not_lt_zero k)

theorem add (h : d.Shifted first lost d') {is : List Instruction} (below : ∀ i ∈ is, i.Below 0 0) :
    (d.add is).Shifted first lost (d'.add is) := by
  have added := h.of_table (Nat.le_refl _) h.valid
    fun i hi => (below i hi).mono (Nat.zero_le _) (Nat.le_refl _)
  have same : ({ d with code := d.code ++ is, pool := d'.pool } : Draft) = d.add is := by
    rw [← h.pool]
    rfl
  rwa [same] at added

theorem instruction (h : d.Shifted first lost d') {i : Instruction}
    (below : i.Below 0 0 := by trivial) : (d.add [i]).Shifted first lost (d'.add [i]) :=
  h.add fun _ hj => List.mem_singleton.1 hj ▸ below

theorem name (h : d.Shifted first lost d') {make : UInt16 → Instruction}
    (names : ∀ (l : UInt16) (lits : Nat), l.toNat < lits → (make l).Below lits 0) (s : String) :
    (d.name make s).Shifted first lost (d'.name make s) := by
  obtain ⟨valid, known⟩ := h.valid.insert s
  rw [Draft.name, Draft.name, h.pool]
  exact h.of_table (d'.pool.size_insert s) valid
    fun i hi => List.mem_singleton.1 hi ▸ names _ _ known

theorem constant (h : d.Shifted first lost d') (value : Literal) :
    (d.constant value).Shifted first lost (d'.constant value) := by
  cases value with
  | nil | int n | float x | char ch => exact h.instruction
  | bool b => cases b <;> exact h.instruction
  | string s => exact h.name (fun _ _ => id) s

theorem load (h : d.Shifted first lost d') (x : String) (address : Address) :
    (d.load x address).Shifted first lost (d'.load x address) := by
  cases address with
  | slot hops index | field index => exact h.instruction
  | global => exact h.name (fun _ _ => id) x

theorem store (h : d.Shifted first lost d') (address : Address) :
    (d.store address).Shifted first lost (d'.store address) := by
  cases address with
  | slot hops index | field index => exact h.instruction
  | global => exact h

theorem opened (h : d.Shifted first lost d') (options : CompilerOptions) :
    (d.opened options).Shifted first lost (d'.opened options) := by
  refine ⟨⟨?_, Nat.le_succ_of_le h.aligned.low, h.aligned.table⟩, rfl, options.valid_pool, .nil⟩
  show d.next + 1 = d'.next + 1 + lost
  rw [h.aligned.next]
  omega

/-- A block of aligned drafts. -/
theorem block (h : d.Shifted first lost d') (name name' qualified qualified' : String)
    (args locals : List String) :
    (d.block name qualified args locals).InnerTrims (numberBefore first lost)
      (d'.block name' qualified' args locals) := by
  refine ⟨⟨rfl, rfl, rfl, rfl, ?_, _, _, Instruction.reads_encodeAll _,
    Instruction.reads_encodeAll _, (Instruction.trims_of_forall₂ h.code).stored⟩, rfl, rfl⟩
  show d'.pool.entries.toList <+: d.pool.entries.toList
  rw [h.pool]

end Shifted

/-- Behind a block literal whose body was drafted into aligned tables. -/
theorem Aligned.enter (h : inner.Aligned first lost inner')
    (number : d.next = numberBefore first lost d'.next) (room : d.next < 65536)
    (pool : d.pool = d'.pool) (valid : d'.pool.Valid)
    (code : List.Forall₂ (Instruction.Renumbered (numberBefore first lost) d'.pool.entries.size)
      d.code d'.code)
    (hb : b.InnerTrims (numberBefore first lost) b') :
    (d.enter inner b).Shifted first lost (d'.enter inner' b') := by
  refine ⟨⟨h.next, h.low, fun k c' hc => ?_⟩, pool, valid,
    List.rel_append code (.cons (.block ?_) .nil)⟩
  · rw [entry_enter] at hc
    split at hc
    · rename_i here
      cases hc
      subst here
      exact ⟨b, by rw [entry_enter, if_pos number.symm], hb⟩
    · rename_i other
      obtain ⟨c, hc, trims⟩ := h.table k c' hc
      refine ⟨c, ?_, trims⟩
      rw [entry_enter, if_neg fun same => other ?_, hc]
      exact numberBefore_injective first lost (same.trans number)
  · have lower : d'.next ≤ d.next := by
      rw [number, numberBefore]
      split <;> omega
    rw [Nat.toUInt16_eq, UInt16.toNat_ofNat', Nat.mod_eq_of_lt (show _ < 2 ^ 16 from room),
      Nat.toUInt16_eq, UInt16.toNat_ofNat',
      Nat.mod_eq_of_lt (show _ < 2 ^ 16 from Nat.lt_of_le_of_lt lower room), number]

end Draft

/-! ## The same text on aligned drafts -/

namespace Lexical

variable {options : CompilerOptions} {first lost : Nat}

mutual

/-- **The same expression keeps drafts aligned.** -/
theorem expr_shifted {p p' : Surroundings} (names : p'.names = p.names) (e : Expr) {d d' : Draft}
    (h : d.Shifted first lost d') (room : d.next + e.blocks.length ≤ 65536) :
    (expr options p e d).Shifted first lost (expr options p' e d') := by
  cases e with
  | literal value => exact h.constant value
  | self => exact h.instruction
  | ident x =>
    rw [expr, expr, names]
    exact h.load _ _
  | array items => exact (exprs_shifted names items h room).instruction
  | block head body =>
    have around : (p'.inside d'.next head).names = (p.inside d.next head).names := by
      rw [Surroundings.inside, Surroundings.inside, names]
    rw [Expr.blocks, List.length_cons] at room
    have inner := stats_shifted around body (h.opened options) (by
      show d.next + 1 + _ ≤ _
      omega)
    have ended := inner.add (Draft.below_ending .block body.isEmpty
      (Draft.below_marks options head.stop.before))
    refine ended.aligned.enter ?_ (by omega) h.pool h.valid h.code (ended.block _ _ _ _ _ _)
    rw [numberBefore_of_le h.aligned.low, h.aligned.next]
  | send receiver message args position =>
    rw [Expr.blocks, List.length_append] at room
    have first := expr_shifted names receiver h (by omega)
    have all := exprs_shifted names args first (by
      rw [(expr_grows options p receiver d).next]
      omega)
    exact (all.add (Draft.below_marks options position)).name (fun _ _ => id) message
  | superSend message args position =>
    have all := exprs_shifted names args (h.instruction (i := .pushSelf)) room
    exact (all.add (Draft.below_marks options position)).name (fun _ _ => id) message
termination_by structural e

theorem exprs_shifted {p p' : Surroundings} (names : p'.names = p.names) (es : List Expr)
    {d d' : Draft} (h : d.Shifted first lost d')
    (room : d.next + (Expr.blocksAll es).length ≤ 65536) :
    (exprs options p es d).Shifted first lost (exprs options p' es d') := by
  cases es with
  | nil => exact h
  | cons e rest =>
    rw [Expr.blocksAll, List.length_append] at room
    have first := expr_shifted names e h (by omega)
    refine exprs_shifted names rest first ?_
    rw [(expr_grows options p e d).next]
    omega
termination_by structural es

theorem stat_shifted {p p' : Surroundings} (names : p'.names = p.names) (s : Stat) {d d' : Draft}
    (h : d.Shifted first lost d') (room : d.next + s.blocks.length ≤ 65536) :
    (stat options p s d).Shifted first lost (stat options p' s d') := by
  cases s with
  | expr value => exact expr_shifted names value h room
  | assign target value position =>
    rw [stat, stat, names]
    exact (expr_shifted names value (h.add (Draft.below_marks options position)) room).store _
  | ret value position =>
    refine (expr_shifted names value h room).add ?_
    exact List.forall_mem_append.2 ⟨Draft.below_marks options position, by simp [Instruction.Below]⟩
termination_by structural s

/-- **The same statements keep drafts aligned.** -/
theorem stats_shifted {p p' : Surroundings} (names : p'.names = p.names) (ss : List Stat)
    {d d' : Draft} (h : d.Shifted first lost d')
    (room : d.next + (Stat.blocksAll ss).length ≤ 65536) :
    (stats options p ss d).Shifted first lost (stats options p' ss d') := by
  cases ss with
  | nil => exact h
  | cons s rest =>
    rw [Stat.blocksAll, List.length_append] at room
    have first := stat_shifted names s h (by omega)
    refine behind_shifted names rest first ?_
    rw [(stat_grows options p s d).next]
    omega
termination_by structural ss

theorem behind_shifted {p p' : Surroundings} (names : p'.names = p.names) (ss : List Stat)
    {d d' : Draft} (h : d.Shifted first lost d')
    (room : d.next + (Stat.blocksAll ss).length ≤ 65536) :
    (behind options p ss d).Shifted first lost (behind options p' ss d') := by
  cases ss with
  | nil => exact h
  | cons s rest =>
    rw [Stat.blocksAll, List.length_append] at room
    have popped : (d.add [.pop]).next = d.next := rfl
    have first := stat_shifted names s (h.instruction (i := .pop)) (by omega)
    refine behind_shifted names rest first ?_
    rw [(stat_grows options p s _).next, popped]
    omega
termination_by structural ss

end

end Lexical

end Colloquy
