import Mathlib.Data.Finset.Card
import Colloquy.Proofs.Compile.BlockTable

/-!
# What code generation demands of a text

Code generation stops for what can be seen in the text: an assignment to a global, a primitive that
the machine does not have or that takes other arguments, a number that does not fit in a short, and
too many different strings in one body (`Program.Generable`).

`Emit.Runs` says how a step goes: which places of the table it fills, which strings it adds to the
pool, and when it stops.  `Emit.Covers` says the same of a step that goes with a piece of text.
-/

namespace Colloquy

/-! ## What code generation depends on -/

/-- Something in a text that code generation may stop at. -/
inductive Item where
  | constant (value : Literal)
  | read (name : String)
  | assign (name : String)
  | array (size : Nat)
  | send (selector : String) (argc : Nat)

mutual

/-- The items of an expression, those inside block literals apart. -/
def Expr.items : Expr → List Item
  | .literal value => [.constant value]
  | .self => []
  | .ident x => [.read x.name]
  | .array items => Expr.itemsAll items ++ [.array items.length]
  | .block _ _ => []
  | .send receiver message args _ =>
    receiver.items ++ (Expr.itemsAll args ++ [.send message args.length])
  | .superSend message args _ => Expr.itemsAll args ++ [.send message args.length]

def Expr.itemsAll : List Expr → List Item
  | [] => []
  | e :: rest => e.items ++ Expr.itemsAll rest

end

def Stat.items : Stat → List Item
  | .expr value => value.items
  | .assign target value _ => value.items ++ [.assign target.name]
  | .ret value _ => value.items

def Stat.itemsAll : List Stat → List Item
  | [] => []
  | s :: rest => s.items ++ Stat.itemsAll rest

/-- There is an instruction for the item: what is assigned to is a variable or a field, characters
and counts fit in a short. -/
def Item.Fits (p : Names) : Item → Prop
  | .constant (.char c) => c.toNat ≤ 0xFFFF
  | .assign name => p.find name ≠ .global
  | .array size => size ≤ 65535
  | .send _ argc => argc ≤ 65535
  | _ => True

/-- The string that an item refers to: a string constant, a selector or the name of a global. -/
def Item.string? (p : Names) : Item → Option String
  | .constant (.string s) => some s
  | .read name => if p.find name = .global then some name else none
  | .send selector _ => some selector
  | _ => none

/-- The strings that items refer to, each once. -/
def stringsOf (p : Names) (items : List Item) : Finset String :=
  (items.filterMap (Item.string? p)).toFinset

/-- With debug information, every block of code refers to the file name. -/
def CompilerOptions.strings (options : CompilerOptions) : Finset String :=
  if options.debugInfo then {options.fileName} else ∅

/-- There is code for the statements of one body or block literal, those of block literals inside it
apart. -/
structure StatsFit (options : CompilerOptions) (p : Names) (stats : List Stat) : Prop where
  items : ∀ i ∈ Stat.itemsAll stats, i.Fits p
  strings : (options.strings ∪ stringsOf p (Stat.itemsAll stats)).card ≤ 65536

def BlockLiteral.Fits (options : CompilerOptions) (l : BlockLiteral) : Prop :=
  StatsFit options l.names l.body

structure BodyText.Generable (options : CompilerOptions) (t : BodyText) : Prop where
  own : StatsFit options t.names t.stats
  blocks : ∀ l ∈ t.blockLiterals, l.Fits options

/-- A method can be compiled: there is code for its body, or its tag is known and has as many
arguments. -/
structure Method.Generable (options : CompilerOptions) (fields : List String) (m : Method) :
    Prop where
  body : ∀ t ∈ m.text fields, t.Generable options
  primitive : ∀ tag, m.kind = .primitive tag →
    ∃ p, Primitive.ofTag? tag = some p ∧ p.arity = m.args.length

structure Program.Generable (options : CompilerOptions) (p : Program) : Prop where
  methods : ∀ c ∈ p.classes, ∀ m ∈ c.methods, m.Generable options (p.fieldsOf c.name)
  main : ∀ m ∈ p.main, ∀ t ∈ m.text (p.fieldsOf rootClass), t.Generable options

/-- The reason names a primitive that has other arguments than its method. -/
def Method.Mismatch (m : Method) (reason : String) : Prop :=
  ∃ tag p qualified, m.kind = .primitive tag ∧ Primitive.ofTag? tag = some p
    ∧ p.arity ≠ m.args.length
    ∧ reason = qualified ++ " takes " ++ m.args.length.repr ++ " argument(s) but " ++ tag
      ++ " expects " ++ p.arity.repr

/-- The error tells of a tree that resolution does not leave behind. -/
def CompileError.internal : CompileError → Bool
  | unresolved _ | malformed _ => true
  | _ => false

theorem CompileError.of_not_internal {e : CompileError} {P : String → Prop}
    (h : e.internal = false) :
    (∀ what, e ≠ .unresolved what) ∧ ∀ reason, e = .malformed reason → P reason := by
  cases e with
  | unresolved what | malformed reason => cases h
  | _ => exact ⟨nofun, nofun⟩

/-- The error can come from a method. -/
def Method.Excuses (m : Method) (e : CompileError) : Prop :=
  e.internal = false ∨ ∃ reason, e = .malformed reason ∧ m.Mismatch reason

/-! ## Pools as sets of strings -/

namespace LiteralPool

variable {pool : LiteralPool}

/-- The strings of a pool. -/
def strings (pool : LiteralPool) : Finset String := pool.entries.toList.toFinset

theorem mem_strings {s : String} : s ∈ pool.strings ↔ s ∈ pool.entries := by
  rw [strings, List.mem_toFinset, Array.mem_toList_iff]

theorem Valid.card_strings (valid : pool.Valid) : pool.strings.card = pool.entries.size := by
  rw [strings, List.toFinset_card_of_nodup valid.nodup, Array.length_toList]

/-- **A string finds room** unless the pool is full of others. -/
theorem insert_strings (valid : pool.Valid) (s : String) :
    (∃ i pool', pool.insert s = (.ok i, pool') ∧ pool'.Valid ∧ pool'.strings = pool.strings ∪ {s})
      ∨ ∃ pool', pool.insert s = (.error (.tooManyLiterals s), pool')
        ∧ 65536 < (pool.strings ∪ {s}).card := by
  have inserts := valid.inserts s
  cases h : pool.insert s with
  | mk inserted pool' =>
    rw [h] at inserts
    cases inserts with
    | @known i here =>
      refine .inl ⟨i, pool, rfl, valid, (Finset.union_eq_left.2 ?_).symm⟩
      exact Finset.singleton_subset_iff.2 (mem_strings.2 (Array.mem_of_getElem? here))
    | @new i after absent number entries valid' =>
      refine .inl ⟨i, pool', rfl, valid', ?_⟩
      ext t
      simp [mem_strings, entries, or_comm]
    | full absent size =>
      refine .inr ⟨pool, rfl, ?_⟩
      rw [Finset.union_comm, ← Finset.insert_eq,
        Finset.card_insert_of_notMem fun there => absent (mem_strings.1 there), valid.card_strings,
        size]
      exact Nat.lt_succ_self _

end LiteralPool

/-! ## Steps of code generation -/

theorem EStateM.bind_of_ok {ε σ α β : Type} {x : EStateM ε σ α} {f : α → EStateM ε σ β} {s t : σ}
    {a : α} (h : x s = .ok a t) : (x >>= f) s = f a t := by
  simp [bind, EStateM.bind, h]

theorem EStateM.bind_of_error {ε σ α β : Type} {x : EStateM ε σ α} {f : α → EStateM ε σ β} {s t : σ}
    {e : ε} (h : x s = .error e t) : (x >>= f) s = .error e t := by
  simp [bind, EStateM.bind, h]

namespace Emit

variable {α β : Type} {options : CompilerOptions} {c : EmitContext} {g g' : Generator}
  {n k l : Nat} {S T : Finset String} {ok ok' : Prop}

/-- Between the two states, the `k` places of the table from `n` on have been filled, and strings
have been added to the pool. -/
structure Ran (n k : Nat) (S : Finset String) (g g' : Generator) : Prop where
  valid : g'.pool.Valid
  strings : g'.pool.strings = g.pool.strings ∪ S
  size : g'.table.size ≤ n + k
  filled : ∀ i, Filled g' i ↔ Filled g i ∨ n ≤ i ∧ i < n + k

/-- The step comes to a result just if `ok` and there is room for the strings `S` in the pool; it
fills the `k` places of the table from `n` on, behind those in use.  If it stops, it blames the
text. -/
def Runs (n k : Nat) (S : Finset String) (ok : Prop) (x : Emit α) : Prop :=
  ∀ g, g.pool.Valid → g.table.size ≤ n →
    (∃ a g', x g = .ok a g' ∧ ok ∧ Ran n k S g g')
      ∨ ∃ e g', x g = .error e g' ∧ e.internal = false ∧ ¬ (ok ∧ (g.pool.strings ∪ S).card ≤ 65536)

theorem Runs.congr {x : Emit α} (h : Runs n k S ok x) (count : k = l) (strings : S = T)
    (same : ok ↔ ok') : Runs n l T ok' x := by
  subst count strings
  rwa [← propext same]

/-- One step after another. -/
theorem Runs.bind {x : Emit α} {f : α → Emit β} (first : Runs n k S ok x)
    (later : ∀ a, Runs (n + k) l T ok' (f a)) : Runs n (k + l) (S ∪ T) (ok ∧ ok') (x >>= f) := by
  intro g valid size
  rcases first g valid size with ⟨a, t, run, holds, ran⟩ | ⟨e, t, stop, blamed, fails⟩
  · rw [EStateM.bind_of_ok run, ← Finset.union_assoc, ← ran.strings]
    rcases later a t ran.valid ran.size with
      ⟨b, g', run', holds', ran'⟩ | ⟨e, g', stop, blamed, fails⟩
    · refine .inl ⟨b, g', run', ⟨holds, holds'⟩, ran'.valid, ?_, ?_, fun i => ?_⟩
      · rw [ran'.strings, ran.strings, Finset.union_assoc]
      · rw [← Nat.add_assoc]
        exact ran'.size
      · rw [ran'.filled, ran.filled, or_assoc]
        refine or_congr_right ?_
        omega
    · exact .inr ⟨e, g', stop, blamed, fun h => fails ⟨h.1.2, h.2⟩⟩
  · refine .inr ⟨e, t, EStateM.bind_of_error stop, blamed, fun h => fails ⟨h.1.1, ?_⟩⟩
    refine le_trans (Finset.card_le_card ?_) h.2
    exact Finset.union_subset_union_right Finset.subset_union_left

/-- The step always goes through, and touches neither the pool nor the table. -/
def Quiet (x : Emit α) : Prop :=
  ∀ g, ∃ a g', x g = .ok a g' ∧ g'.pool = g.pool ∧ g'.table = g.table

theorem Quiet.bind {x : Emit α} {f : α → Emit β} (first : Quiet x) (later : ∀ a, Quiet (f a)) :
    Quiet (x >>= f) := by
  intro g
  obtain ⟨a, t, run, pool, table⟩ := first g
  obtain ⟨b, g', run', pool', table'⟩ := later a t
  exact ⟨b, g', (EStateM.bind_of_ok run).trans run', pool'.trans pool, table'.trans table⟩

theorem quiet_pure (a : α) : Quiet (pure a : Emit α) := fun g => ⟨a, g, rfl, rfl, rfl⟩

theorem quiet_instruction (i : Instruction) : Quiet (instruction i) :=
  fun _ => ⟨(), _, rfl, rfl, rfl⟩

theorem quiet_mark (position : Position) : Quiet (mark c position) := by
  unfold mark
  split
  · exact quiet_instruction _
  · exact quiet_pure ()

theorem quiet_report (level : Level) (message : String) : Quiet (report level message) :=
  fun _ => ⟨(), _, rfl, rfl, rfl⟩

theorem quiet_ifEmpty {stats : List Stat} {i : Instruction} {rest : Emit Unit}
    (later : Quiet rest) :
    Quiet (if stats.isEmpty = true then (do instruction i; rest) else rest) := by
  split
  · exact (quiet_instruction i).bind fun _ => later
  · exact later

theorem quiet_qualifiedName {tree : ScopeTree} {id : ScopeId} {s : Scope}
    (known : tree.get? id = some s) : Quiet (qualifiedName tree id) := by
  rw [qualifiedName, ScopeTree.qualifiedName, known]
  exact quiet_pure _

theorem quiet_finish {tree : ScopeTree} {id : ScopeId} {s : Scope} (known : tree.get? id = some s)
    (code : Array Instruction) (pool : LiteralPool) : Quiet (finish tree id code pool) := by
  rw [finish, known]
  exact quiet_pure _

theorem quiet_depthTo {owner : ScopeId} {depth : Nat}
    (reached : c.tree.relativeDepth c.scope owner = some depth) (x : Ident) :
    Quiet (depthTo c owner x) := by
  rw [depthTo, reached]
  exact quiet_pure _

theorem quiet_warnAfter {s : Scope} (known : c.tree.get? c.scope = some s)
    (previous : Option Position) : Quiet (warnAfter c previous) := by
  cases previous with
  | none => exact quiet_pure ()
  | some position => exact (quiet_qualifiedName known).bind fun _ _ => ⟨(), _, rfl, rfl, rfl⟩

theorem Quiet.runs {x : Emit α} (h : Quiet x) : Runs n 0 ∅ True x := by
  intro g valid size
  obtain ⟨a, g', run, pool, table⟩ := h g
  refine .inl ⟨a, g', run, trivial, pool ▸ valid, ?_, table ▸ size, fun i => ?_⟩
  · rw [pool, Finset.union_empty]
  · rw [Filled, table]
    exact (or_iff_left fun h => by omega).symm

/-- A number that has to fit in a short. -/
theorem runs_short (what : String) (m : Nat) : Runs n 0 ∅ (m ≤ 65535) (check (short what m)) := by
  unfold short
  split
  · rename_i fits
    exact (quiet_pure _).runs.congr rfl rfl (by simpa using Nat.le_of_lt_succ fits)
  · rename_i large
    exact fun g _ _ => .inr ⟨_, g, rfl, rfl, fun h => large (Nat.lt_succ_of_le h.1)⟩

theorem runs_literal (s : String) : Runs n 0 {s} True (literal s) := by
  rintro ⟨code, pool, table, warnings, log⟩ valid size
  unfold literal
  dsimp only at valid ⊢
  rcases LiteralPool.insert_strings valid s with
    ⟨i, pool', found, valid', strings⟩ | ⟨pool', full, many⟩
  · rw [found]
    refine .inl ⟨i, _, rfl, trivial, valid', strings, size, fun j => ?_⟩
    exact (or_iff_left fun h => by omega).symm
  · rw [full]
    exact .inr ⟨_, _, rfl, rfl, fun h => absurd h.2 (Nat.not_le_of_lt many)⟩

/-- A step in front of others that always goes through. -/
theorem Runs.then {x : Emit α} {f : α → Emit β} (first : Quiet x)
    (later : ∀ a, Runs n k S ok (f a)) : Runs n k S ok (x >>= f) :=
  (first.runs.bind later).congr (Nat.zero_add k) (Finset.empty_union S) (and_iff_right trivial)

/-- A step behind others that always goes through. -/
theorem Runs.before {x : Emit α} {f : α → Emit β} (first : Runs n k S ok x)
    (later : ∀ a, Quiet (f a)) : Runs n k S ok (x >>= f) :=
  (first.bind fun a => (later a).runs).congr rfl (Finset.union_empty S) (and_iff_left trivial)

/-- **Compiling into a fresh block** depends on the strings of that block alone. -/
theorem runs_inBlock {build : Emit Unit} (builds : Runs n k S ok build) :
    Runs n k ∅ (ok ∧ (c.options.strings ∪ S).card ≤ 65536) (inBlock c build) := by
  intro g valid size
  have started : ∃ t, t.pool.Valid ∧ t.pool.strings = c.options.strings ∧ t.table = g.table
      ∧ inBlock c build g = (do
        build
        modifyGet fun g' => ((g'.code, g'.pool), { g' with code := g.code, pool := g.pool })
        : Emit _) t := by
    have fresh := LiteralPool.valid_empty
    have none : LiteralPool.strings {} = ∅ := rfl
    unfold CompilerOptions.strings
    by_cases wanted : c.options.debugInfo
    · -- an empty pool has room for the file name
      obtain ⟨i, pool, inserted, valid', strings⟩ | ⟨-, -, many⟩ :=
        LiteralPool.insert_strings fresh c.options.fileName
      · rw [if_pos wanted]
        refine ⟨{ g with code := #[], pool }, valid', ?_, rfl, ?_⟩
        · rw [strings, none, Finset.empty_union]
        · simp [inBlock, wanted, literal, inserted, bind, EStateM.bind, EStateM.modifyGet_apply,
            discard, Functor.mapConst, EStateM.map]
      · rw [none, Finset.empty_union, Finset.card_singleton] at many
        omega
    · rw [if_neg wanted]
      refine ⟨{ g with code := #[], pool := {} }, fresh, none, rfl, ?_⟩
      simp [inBlock, wanted, bind, EStateM.bind, EStateM.modifyGet_apply]
  obtain ⟨t, valid', strings, table, begun⟩ := started
  rw [begun]
  rcases builds t valid' (table ▸ size) with ⟨_, t', run, holds, ran⟩ | ⟨e, t', stop, blamed, fails⟩
  · rw [EStateM.bind_of_ok run]
    have few : (c.options.strings ∪ S).card ≤ 65536 := by
      rw [← strings, ← ran.strings, ran.valid.card_strings]
      exact ran.valid.short
    refine .inl ⟨_, _, rfl, ⟨holds, few⟩, valid, (Finset.union_empty _).symm, ran.size, fun i => ?_⟩
    exact (ran.filled i).trans (or_congr_left (by rw [Filled, Filled, table]))
  · rw [EStateM.bind_of_error stop, ← strings]
    exact .inr ⟨e, t', rfl, blamed, fun h => fails h.1⟩

/-- A place of the table is filled if it is in use or has just been filled. -/
theorem filled_enter {table : Array (Option Block)} {index i : Nat} {b : Block} :
    (∃ b', ((growTo table index).setIfInBounds index (some b))[i]? = some (some b'))
      ↔ (∃ b', table[i]? = some (some b')) ∨ i = index := by
  rw [Array.getElem?_setIfInBounds]
  by_cases here : index = i
  · subst here
    simp [size_growTo table index]
  · rw [if_neg here, or_iff_left (Ne.symm here)]
    exact exists_congr fun b' => ⟨filled_of_growTo, getElem?_growTo⟩

/-- The step always goes through if the place `index` of the table is free, and fills it. -/
def Enters (index : Nat) (x : Emit α) : Prop :=
  ∀ g, ¬ Filled g index → ∃ a g', x g = .ok a g' ∧ g'.pool = g.pool
    ∧ g'.table.size ≤ max g.table.size (index + 1) ∧ ∀ i, Filled g' i ↔ Filled g i ∨ i = index

/-- **A block is entered** under a number that is not in use. -/
theorem enters_enter (index : UInt16) (b : Block) : Enters index.toNat (enter index b) := by
  rintro ⟨code, pool, table, warnings, log⟩ free
  have empty : (growTo table index.toNat).getD index.toNat none = none := by
    rw [Array.getD_eq_getD_getElem?]
    cases found : (growTo table index.toNat)[index.toNat]? with
    | none => rfl
    | some entry =>
      cases entry with
      | none => rfl
      | some b' => exact absurd ⟨b', filled_of_growTo found⟩ free
  refine ⟨(), ⟨code, pool, (growTo table index.toNat).setIfInBounds index.toNat (some b), warnings,
    log⟩, ?_, rfl, ?_, fun i => filled_enter⟩
  · unfold enter
    dsimp only
    rw [empty]
  · dsimp only
    rw [Array.size_setIfInBounds, growTo]
    split
    · exact le_max_left _ _
    · rw [Array.size_append, Array.size_replicate]
      omega

theorem Enters.after {x : Emit α} {f : α → Emit β} (first : Quiet x)
    (later : ∀ a, Enters n (f a)) : Enters n (x >>= f) := by
  intro g free
  obtain ⟨a, t, run, pool, table⟩ := first g
  rw [EStateM.bind_of_ok run]
  rw [Filled, ← table] at free
  obtain ⟨b, g', run', pool', size, filled⟩ := later a t free
  refine ⟨b, g', run', pool'.trans pool, table ▸ size, fun i => ?_⟩
  rw [filled, Filled, table, Filled]

theorem Enters.before {x : Emit α} {f : α → Emit β} (first : Enters n x)
    (later : ∀ a, Quiet (f a)) : Enters n (x >>= f) := by
  intro g free
  obtain ⟨a, t, run, pool, size, filled⟩ := first g free
  obtain ⟨b, g', run', pool', table⟩ := later a t
  refine ⟨b, g', (EStateM.bind_of_ok run).trans run', pool'.trans pool, table ▸ size, fun i => ?_⟩
  rw [← filled, Filled, table, Filled]

/-- **A block literal**: the blocks inside it are entered before it, under the numbers behind its
own. -/
theorem Runs.enter {x : Emit α} {f : α → Emit β} (inside : Runs (n + 1) k ∅ ok x)
    (entered : ∀ a, Enters n (f a)) : Runs n (k + 1) ∅ ok (x >>= f) := by
  intro g valid size
  rcases inside g valid (Nat.le_succ_of_le size) with
    ⟨a, t, run, holds, ran⟩ | ⟨e, t, stop, blamed, fails⟩
  · rw [EStateM.bind_of_ok run]
    have free : ¬ Filled t n := by
      rw [ran.filled, not_or]
      refine ⟨?_, by omega⟩
      rintro ⟨b, found⟩
      have := (Array.getElem?_eq_some_iff.1 found).1
      omega
    obtain ⟨b, g', run', pool, size', filled⟩ := entered a t free
    have := ran.size
    refine .inl ⟨b, g', run', holds, pool ▸ ran.valid, pool ▸ ran.strings, by omega, fun i => ?_⟩
    rw [filled, ran.filled, or_assoc]
    refine or_congr_right ?_
    omega
  · rw [EStateM.bind_of_error stop]
    exact .inr ⟨e, t, rfl, blamed, fails⟩

/-! ## Steps that go with a text -/

variable {p : Names} {is js : List Item} {ls ms : List BlockLiteral}

/-- The step compiles items and block literals, which are numbered from `n` on. -/
def Covers (options : CompilerOptions) (p : Names) (n : Nat) (is : List Item)
    (ls : List BlockLiteral) (x : Emit α) : Prop :=
  Runs n ls.length (stringsOf p is) ((∀ i ∈ is, i.Fits p) ∧ ∀ l ∈ ls, l.Fits options) x

theorem stringsOf_append : stringsOf p (is ++ js) = stringsOf p is ∪ stringsOf p js := by
  rw [stringsOf, List.filterMap_append, List.toFinset_append, stringsOf, stringsOf]

theorem Covers.bind {x : Emit α} {f : α → Emit β} (first : Covers options p n is ls x)
    (later : ∀ a, Covers options p (n + ls.length) js ms (f a)) :
    Covers options p n (is ++ js) (ls ++ ms) (x >>= f) := by
  refine (Runs.bind first later).congr List.length_append.symm stringsOf_append.symm ?_
  rw [List.forall_mem_append, List.forall_mem_append]
  exact and_and_and_comm

/-- One item. -/
theorem covers_item {x : Emit α} {i : Item} (h : Runs n 0 (stringsOf p [i]) (i.Fits p) x) :
    Covers options p n [i] [] x :=
  h.congr rfl rfl (by simp)

/-- Steps that go with nothing in the text. -/
theorem Quiet.covers {x : Emit α} (h : Quiet x) : Covers options p n [] [] x :=
  h.runs.congr rfl rfl (iff_of_true trivial ⟨List.forall_mem_nil _, List.forall_mem_nil _⟩)

theorem Covers.then {x : Emit α} {f : α → Emit β} (first : Quiet x)
    (later : ∀ a, Covers options p n is ls (f a)) : Covers options p n is ls (x >>= f) :=
  Runs.then first later

theorem Covers.before {x : Emit α} {f : α → Emit β} (first : Covers options p n is ls x)
    (later : ∀ a, Quiet (f a)) : Covers options p n is ls (x >>= f) :=
  Runs.before first later

/-- Items behind others, without block literals. -/
theorem Covers.last {x : Emit α} {f : α → Emit β} (first : Covers options p n is ls x)
    (later : ∀ a, Covers options p (n + ls.length) js [] (f a)) :
    Covers options p n (is ++ js) ls (x >>= f) := by
  have all := first.bind later
  rwa [List.append_nil] at all

theorem covers_constant (value : Literal) :
    Covers options p n [.constant value] [] (constant value) := by
  refine covers_item ?_
  unfold constant
  split
  case h_6 ch => exact (runs_short _ _).before fun _ => quiet_instruction _
  case h_7 s => exact (runs_literal s).before fun _ => quiet_instruction _
  all_goals exact (quiet_instruction _).runs

/-- The end of a send: its position, the count of its arguments and its selector. -/
theorem covers_send (message : String) (args : List Expr) (position : Position)
    (i : UInt16 → UInt16 → Instruction) :
    Covers options p n [.send message args.length] [] (do
      mark c position
      let argc ← check (short "argument count" args.length)
      instruction (i argc (← literal message)) : Emit Unit) := by
  refine covers_item (Runs.then (quiet_mark position) fun _ => ?_)
  refine ((runs_short _ _).bind fun _ => (runs_literal message).before fun _ =>
    quiet_instruction _).congr rfl (Finset.empty_union _) ?_
  exact and_iff_left trivial

end Emit

end Colloquy
