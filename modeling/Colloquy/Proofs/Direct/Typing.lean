import Colloquy.Proofs.Compile.Loading
import Colloquy.Proofs.Primitives

/-!
# What holds of every world

The values and activations of a world that a program can come to are *typed*: objects are instances
of loaded classes with all their fields, closures were made by an activation of the code around
their block, and every activation runs compiled code, with the variables of all scopes around it in
place.  Worlds only grow (`Direct.World.Extends`), so what is typed stays typed.

Main statements: looking up a method finds a primitive or compiled code that the receiver has the
fields for (`Direct.Setting.Sound.lookup`), and calling it keeps the world typed
(`Direct.World.Typed.gives`).
-/

namespace Colloquy

namespace Direct

/-! ## Where code stands -/

/-- A method, and a body that stands in it. -/
structure Standing where
  method : Code
  body : Source
  /-- The number of fields that the method can use. -/
  fields : Nat
  /-- The body, which is that of the method or of a block literal. -/
  source : Source
  /-- The scopes around that of the body, innermost first. -/
  around : List ScopeId

namespace Standing

/-- All scopes whose variables can be used. -/
def chain (p : Standing) : List ScopeId := p.source.scope :: p.around

/-- What names can refer to. -/
def site (p : Standing) (x : Setting) : Site :=
  ⟨x.tree, p.fields,
    fun head stats => (Stat.blocksAll p.body.stats)[head.index.toNat]? = some (head, stats)⟩

/-- The code is compiled from the body. -/
structure Runs (p : Standing) (x : Setting) (code : Code) : Prop where
  method : x.Compiles p.method p.body p.fields
  known : x.program.source? code.id = some p.source
  compiled : BodyCode x.tree p.method.block.blocks p.source code.block
  slots : ∃ s, x.tree.get? p.source.scope = some s ∧ s.nargs ≤ s.vars.length
  resolved : ∀ s ∈ p.source.stats, Stat.Scoped (p.site x) p.chain s
  linked : x.tree.Linked p.chain
  owner : code.owner = p.method.owner

/-- The body of a method stands in the method itself. -/
def ofMethod (code : Code) (source : Source) (fields : Nat) : Standing :=
  ⟨code, source, fields, source, []⟩

variable {p : Standing} {x : Setting} {code : Code}

theorem runs_ofMethod {source : Source} {fields : Nat} (h : x.Compiles code source fields) :
    (ofMethod code source fields).Runs x code where
  method := h
  known := by
    rw [Program.source?, h.outermost]
    exact h.body.known
  compiled := h.body.compiled
  slots := h.body.slots
  resolved := h.body.resolved
  linked := List.isChain_singleton _
  owner := rfl

/-- The standing of a block literal. -/
def inside (p : Standing) (b : ScopeId) (stats : List Stat) : Standing :=
  { p with source := ⟨b, stats, .block⟩, around := p.chain }

/-- **A block literal is compiled inside the body around it.** -/
theorem Runs.inside {head : BlockHead} {stats : List Stat} {lits : Array String}
    {is : List Instruction} (h : p.Runs x code)
    (compiled : ExprCode x.tree p.method.block.blocks p.source.scope lits (.block head stats) is)
    (resolved : Expr.Scoped (p.site x) p.chain (.block head stats)) :
    ∃ b inner, p.method.nested? head.index.toNat = some inner
      ∧ (p.inside b stats).Runs x inner := by
  cases compiled with
  | @block _ b _ _ _ compiled opened entry body =>
    cases resolved with
    | @block _ _ _ b' opens known each =>
      obtain rfl : b = b' := Option.some.inj (opened.symm.trans opens.scope)
      have nested : p.method.nested? head.index.toNat = some
          { block := compiled
            id := { p.method.id with path := head.index.toNat :: p.method.id.path }
            owner := p.method.owner } := by
        rw [Code.nested?, entry, Option.map_some]
      have known : (Stat.blocksAll p.body.stats)[head.index.toNat]? = some (head, stats) := known
      refine ⟨b, _, nested, h.method, ?_, body, opens.slots, each, ?_, rfl⟩
      · simp only [Program.source?, h.method.body.known, known, Option.bind_some, blockSource,
          opened, Option.map_some]
        rfl
      · refine List.isChain_cons_cons.2 ⟨?_, h.linked⟩
        exact opens.inside

/-- A frame has a slot for each variable of the scope, the arguments first. -/
theorem Runs.frameSize_eq (h : p.Runs x code) :
    code.block.frameSize = x.varCount p.source.scope
      ∧ code.block.nargs ≤ x.varCount p.source.scope := by
  obtain ⟨s, here, nargs, nlocals⟩ := h.compiled.fits.frame
  obtain ⟨s', here', fits⟩ := h.slots
  cases here.symm.trans here'
  rw [Setting.varCount, here, Block.frameSize, nargs, nlocals]
  simp only [Option.map_some, Option.getD_some]
  omega

/-- The method fixes the number of fields. -/
theorem Runs.fields_eq {q : Standing} {code' : Code} (h : p.Runs x code) (h' : q.Runs x code')
    (same : p.method = q.method) : p.fields = q.fields := by
  obtain ⟨cls, owner, -, count⟩ := h.method.owner
  obtain ⟨cls', owner', -, count'⟩ := h'.method.owner
  rw [same, owner', Option.some.injEq] at owner
  rw [← count, ← count', owner]

end Standing

/-! ## Typed values and activations -/

namespace World

/-- The value is one of the world. -/
inductive Types (x : Setting) (w : World) : Value → Prop where
  | simple {v : Value} (h : v.Simple) : Types x w v
  | array {r : Ref} (row : r < w.memory.store.rows.size) : Types x w (.array r)
  | object {cls : Class} {r : Ref} (has : x.image.Has cls) (row : r < w.memory.store.rows.size)
      (fields : (w.memory.store.row r).size = cls.numFields) : Types x w (.object cls r)
  | cls {c : Class} (has : x.image.Has c) : Types x w (.cls c)
  | block {c : Closure Value} {n : Nat} {p : Standing} (made : n < w.activations.size)
      (enclosing : c.enclosing = handle n) (home : c.home = handle (w.activation n).home)
      (receiver : c.receiver = (w.activation n).receiver)
      (method : (w.activation (w.activation n).home).code = p.method) (runs : p.Runs x c.code)
      (literal : p.source.ending = .block)
      (around : p.around = (w.activation n).env.map Prod.fst) : Types x w (.block c)

/-- The activation runs the code of a body, and finds the variables of all scopes around it. -/
structure Stands (x : Setting) (w : World) (n : Nat) (p : Standing) : Prop where
  runs : p.Runs x (w.activation n).code
  home : (w.activation n).home < w.activations.size
  method : (w.activation (w.activation n).home).code = p.method
  own : p.source.ending ≠ .block → (w.activation n).home = n
  chain : (w.activation n).env.map Prod.fst = p.chain
  vars : ∀ e ∈ (w.activation n).env, e.2 < w.activations.size
    ∧ (w.activation e.2).vars.size = x.varCount e.1
  fields : ∀ cls r, (w.activation n).receiver = .object cls r → p.fields ≤ cls.numFields

/-- All values of the world are typed. -/
structure Typed (x : Setting) (w : World) : Prop where
  rows : ∀ r < w.memory.store.rows.size, ∀ v ∈ w.memory.store.row r, w.Types x v
  transcript : w.Types x x.image.transcript
  stands : ∀ n < w.activations.size, ∃ p, w.Stands x n p
  receiver : ∀ n < w.activations.size, w.Types x (w.activation n).receiver
  vars : ∀ n < w.activations.size, ∀ v ∈ (w.activation n).vars, w.Types x v

/-- The activations are of the same run. -/
structure SameRun (a a' : Activation) : Prop where
  code : a'.code = a.code
  env : a'.env = a.env
  receiver : a'.receiver = a.receiver
  home : a'.home = a.home
  vars : a'.vars.size = a.vars.size

/-- Activations and rows have been added, and none is gone. -/
structure Extends (w w' : World) : Prop where
  size : w.activations.size ≤ w'.activations.size
  same : ∀ n < w.activations.size, SameRun (w.activation n) (w'.activation n)
  rows : w.memory.store.rows.size ≤ w'.memory.store.rows.size
  widths : ∀ r < w.memory.store.rows.size,
    (w'.memory.store.row r).size = (w.memory.store.row r).size

variable {x : Setting} {w w' w'' : World} {v : Value} {n : Nat} {p : Standing}

theorem SameRun.refl (a : Activation) : SameRun a a := ⟨rfl, rfl, rfl, rfl, rfl⟩

theorem SameRun.trans {a a' a'' : Activation} (h : SameRun a a') (h' : SameRun a' a'') :
    SameRun a a'' :=
  ⟨h'.code.trans h.code, h'.env.trans h.env, h'.receiver.trans h.receiver, h'.home.trans h.home,
    h'.vars.trans h.vars⟩

theorem Extends.refl (w : World) : w.Extends w :=
  ⟨Nat.le_refl _, fun _ _ => .refl _, Nat.le_refl _, fun _ _ => rfl⟩

theorem Extends.trans (h : w.Extends w') (h' : w'.Extends w'') : w.Extends w'' where
  size := Nat.le_trans h.size h'.size
  same n hn := (h.same n hn).trans (h'.same n (Nat.lt_of_lt_of_le hn h.size))
  rows := Nat.le_trans h.rows h'.rows
  widths r hr := (h'.widths r (Nat.lt_of_lt_of_le hr h.rows)).trans (h.widths r hr)

theorem Stands.mono (h : w.Stands x n p) (hn : n < w.activations.size) (grown : w.Extends w') :
    w'.Stands x n p := by
  have same := grown.same n hn
  refine ⟨same.code ▸ h.runs, ?_, ?_, fun outer => ?_, same.env ▸ h.chain, fun e he => ?_,
    fun cls r hr => ?_⟩
  · rw [same.home]
    exact Nat.lt_of_lt_of_le h.home grown.size
  · rw [same.home, (grown.same _ h.home).code, h.method]
  · rw [same.home, h.own outer]
  · obtain ⟨lt, size⟩ := h.vars e (same.env ▸ he)
    exact ⟨Nat.lt_of_lt_of_le lt grown.size, (grown.same _ lt).vars.trans size⟩
  · exact h.fields cls r (same.receiver ▸ hr)

/-- What is typed stays typed. -/
theorem Types.mono (h : w.Types x v) (typed : w.Typed x) (grown : w.Extends w') :
    w'.Types x v := by
  cases h with
  | simple h => exact .simple h
  | array row => exact .array (Nat.lt_of_lt_of_le row grown.rows)
  | object has row fields =>
    exact .object has (Nat.lt_of_lt_of_le row grown.rows) ((grown.widths _ row).trans fields)
  | cls has => exact .cls has
  | @block c n p made enclosing home receiver method runs literal around =>
    have same := grown.same n made
    obtain ⟨q, stands⟩ := typed.stands n made
    refine .block (p := p) (Nat.lt_of_lt_of_le made grown.size) enclosing ?_ ?_ ?_ runs literal ?_
    · rw [home, same.home]
    · rw [receiver, same.receiver]
    · rw [same.home, (grown.same _ stands.home).code, method]
    · rw [around, same.env]

/-! ## Changes of memory -/

section Memory

variable {m : Memory} {values : Array Value} {r : Ref} {k : Nat}

theorem Typed.remember (typed : w.Typed x) (grown : w.Extends { w with memory := m })
    (rows : ∀ r < m.store.rows.size, ∀ v ∈ m.store.row r,
      World.Types x { w with memory := m } v) : World.Typed x { w with memory := m } where
  rows := rows
  transcript := typed.transcript.mono typed grown
  stands n hn := (typed.stands n hn).imp fun _ h => h.mono hn grown
  receiver n hn := (typed.receiver n hn).mono typed grown
  vars n hn v hv := (typed.vars n hn v hv).mono typed grown

/-- Rows have not changed. -/
theorem Typed.sameStore (typed : w.Typed x) (store : m.store = w.memory.store) :
    w.Extends { w with memory := m } ∧ World.Typed x { w with memory := m } := by
  have grown : w.Extends { w with memory := m } :=
    ⟨Nat.le_refl _, fun _ _ => .refl _, by rw [store], fun _ _ => by rw [store]⟩
  refine ⟨grown, typed.remember grown fun r hr v hv => ?_⟩
  rw [store] at hr hv
  exact (typed.rows r hr v hv).mono typed grown

/-- A row has been added. -/
theorem Typed.add (typed : w.Typed x) (hv : ∀ v ∈ values, w.Types x v)
    (store : m.store = (w.memory.store.add values).1) :
    w.Extends { w with memory := m } ∧ World.Typed x { w with memory := m } := by
  have other {r : Ref} (hr : r < w.memory.store.rows.size) :
      (w.memory.store.add values).1.row r = w.memory.store.row r :=
    Store.row_add_of_ne (Nat.ne_of_lt hr)
  have grown : w.Extends { w with memory := m } := by
    refine ⟨Nat.le_refl _, fun _ _ => .refl _, ?_, fun r hr => ?_⟩
    · rw [store, Store.size_add]
      exact Nat.le_succ _
    · rw [store, other hr]
  refine ⟨grown, typed.remember grown fun r hr v hmem => ?_⟩
  rw [store, Store.size_add] at hr
  rw [store] at hmem
  rcases Nat.lt_succ_iff_lt_or_eq.1 hr with hr | rfl
  · rw [other hr] at hmem
    exact (typed.rows r hr v hmem).mono typed grown
  · rw [show w.memory.store.rows.size = (w.memory.store.add values).2 from rfl,
      Store.row_add_self] at hmem
    exact (hv v hmem).mono typed grown

/-- A value has been put into a row. -/
theorem Typed.set (typed : w.Typed x) (hv : w.Types x v)
    (store : m.store = w.memory.store.set r k v) :
    w.Extends { w with memory := m } ∧ World.Typed x { w with memory := m } := by
  have grown : w.Extends { w with memory := m } := by
    refine ⟨Nat.le_refl _, fun _ _ => .refl _, ?_, fun q hq => ?_⟩
    · rw [store, Store.size_set]
    · rw [store]
      by_cases he : r = q
      · subst he
        rw [Store.row_set_self, Array.size_setIfInBounds]
      · rw [Store.row_set_of_ne he]
  refine ⟨grown, typed.remember grown fun q hq u hu => ?_⟩
  rw [store, Store.size_set] at hq
  rw [store] at hu
  by_cases he : r = q
  · subst he
    rw [Store.row_set_self] at hu
    rcases Array.mem_or_eq_of_mem_setIfInBounds hu with hu | rfl
    · exact (typed.rows r hq u hu).mono typed grown
    · exact hv.mono typed grown
  · rw [Store.row_set_of_ne he] at hu
    exact (typed.rows q hq u hu).mono typed grown

/-- A new array of typed values. -/
theorem Typed.newArray (typed : w.Typed x) (hv : ∀ v ∈ values, w.Types x v) :
    w.Extends { w with memory := (w.memory.newArray values).1 }
      ∧ World.Typed x { w with memory := (w.memory.newArray values).1 }
      ∧ World.Types x { w with memory := (w.memory.newArray values).1 }
        (w.memory.newArray values).2 := by
  obtain ⟨grown, typed'⟩ := typed.add (m := (w.memory.newArray values).1) hv rfl
  refine ⟨grown, typed', .array ?_⟩
  have size : (w.memory.newArray values).1.store.rows.size = w.memory.store.rows.size + 1 :=
    Store.size_add _ _
  exact size ▸ Nat.lt_succ_self _

/-- A new instance of a loaded class. -/
theorem Typed.instantiate (typed : w.Typed x) {cls : Class} (has : x.image.Has cls)
    (store : m.store = (Image.instantiate w.memory.store cls).1) :
    w.Extends { w with memory := m } ∧ World.Typed x { w with memory := m }
      ∧ World.Types x { w with memory := m } (Image.instantiate w.memory.store cls).2 := by
  have nils : ∀ v ∈ Array.replicate cls.numFields Value.nil, w.Types x v := fun v hv => by
    rw [Array.eq_of_mem_replicate hv]
    exact .simple trivial
  obtain ⟨grown, typed'⟩ := typed.add nils store
  refine ⟨grown, typed', .object has ?_ ?_⟩
  · dsimp only
    rw [store]
    exact Nat.lt_of_lt_of_eq (Nat.lt_succ_self _) (Store.size_add _ _).symm
  · dsimp only
    rw [store]
    exact (congrArg Array.size (Store.row_add_self _ _)).trans Array.size_replicate

/-- **What a primitive answers is typed**, if its operands are. -/
theorem Typed.gives (typed : w.Typed x) {receiver : Value} {args : List Value}
    (hr : w.Types x receiver) (ha : ∀ v ∈ args, w.Types x v)
    (h : Primitive.Gives w.memory receiver args (.answer v m)) :
    w.Extends { w with memory := m } ∧ World.Typed x { w with memory := m }
      ∧ World.Types x { w with memory := m } v := by
  cases h with
  | simple h => exact ⟨.refl w, typed, .simple h⟩
  | element of h =>
    subst of
    cases hr with
    | simple h => exact h.elim
    | array row => exact ⟨.refl w, typed, typed.rows _ row v h⟩
  | string text =>
    obtain ⟨grown, typed'⟩ := typed.sameStore (m := (w.memory.newString text).1) rfl
    exact ⟨grown, typed', .simple trivial⟩
  | array h => exact typed.newArray fun v hv => .simple (h v hv)
  | object of =>
    subst of
    cases hr with
    | simple h => exact h.elim
    | cls has => exact typed.instantiate has rfl
  | put r place h =>
    obtain ⟨grown, typed'⟩ := typed.set (m := { w.memory with
      store := w.memory.store.set r place v }) (ha v h) rfl
    exact ⟨grown, typed', (ha v h).mono typed grown⟩
  | write transcript =>
    obtain ⟨grown, typed'⟩ := typed.sameStore (m := { w.memory with transcript }) rfl
    exact ⟨grown, typed', hr.mono typed grown⟩

end Memory

/-! ## Variables -/

@[simp] theorem memory_setVar (w : World) (n slot : Nat) (v : Value) :
    (w.setVar n slot v).memory = w.memory := rfl

@[simp] theorem size_setVar (w : World) (n slot : Nat) (v : Value) :
    (w.setVar n slot v).activations.size = w.activations.size := by
  simp [setVar]

theorem activation_setVar (w : World) {n : Nat} (slot : Nat) (v : Value) (k : Nat)
    (hn : n < w.activations.size) :
    (w.setVar n slot v).activation k
      = if k = n then { w.activation k with vars := (w.activation k).vars.setIfInBounds slot v }
        else w.activation k := by
  simp only [activation, setVar, Array.getD_eq_getD_getElem?, Array.getElem?_modify]
  by_cases hk : k = n
  · subst hk
    rw [if_pos rfl, if_pos rfl, Array.getElem?_eq_getElem hn]
    rfl
  · rw [if_neg hk, if_neg (Ne.symm hk)]

theorem extends_setVar (w : World) {n : Nat} (slot : Nat) (v : Value)
    (hn : n < w.activations.size) : w.Extends (w.setVar n slot v) := by
  refine ⟨by rw [size_setVar], fun k hk => ?_, Nat.le_refl _, fun _ _ => rfl⟩
  rw [activation_setVar w slot v k hn]
  split
  · exact ⟨rfl, rfl, rfl, rfl, Array.size_setIfInBounds⟩
  · exact .refl _

theorem Typed.setVar (typed : w.Typed x) (slot : Nat) (hv : w.Types x v)
    (hn : n < w.activations.size) : (w.setVar n slot v).Typed x := by
  have grown := extends_setVar w slot v hn
  refine ⟨fun r hr u hu => (typed.rows r hr u hu).mono typed grown,
    typed.transcript.mono typed grown, fun k hk => ?_, fun k hk => ?_, fun k hk u hu => ?_⟩
  all_goals rw [size_setVar] at hk
  · exact (typed.stands k hk).imp fun _ h => h.mono hk grown
  · rw [(grown.same k hk).receiver]
    exact (typed.receiver k hk).mono typed grown
  · rw [activation_setVar w slot v k hn] at hu
    split at hu
    · rcases Array.mem_or_eq_of_mem_setIfInBounds hu with hu | rfl
      · exact (typed.vars k hk u hu).mono typed grown
      · exact hv.mono typed grown
    · exact (typed.vars k hk u hu).mono typed grown

/-- A scope around an activation has its variables in one of the activations that can be seen. -/
theorem Stands.holder (h : w.Stands x n p) {scope : ScopeId} (around : scope ∈ p.chain) :
    (scope, w.holder n scope) ∈ (w.activation n).env
      ∧ w.holder n scope < w.activations.size
      ∧ (w.activation (w.holder n scope)).vars.size = x.varCount scope := by
  have found : ∃ k, (w.activation n).env.lookup scope = some k := by
    rw [← h.chain] at around
    obtain ⟨e, he, rfl⟩ := List.mem_map.1 around
    refine Option.isSome_iff_exists.1 ?_
    rw [List.lookup_isSome_iff]
    exact ⟨e, he, beq_self_eq_true _⟩
  obtain ⟨k, hk⟩ := found
  have same : w.holder n scope = k := by rw [World.holder, hk, Option.getD_some]
  have mem : (scope, k) ∈ (w.activation n).env := by
    obtain ⟨l₁, l₂, split, -⟩ := List.lookup_eq_some_iff.1 hk
    rw [split]
    simp
  rw [same]
  exact ⟨mem, h.vars _ mem⟩

/-! ## Closures -/

/-- **A new closure** stands inside the activation that makes it. -/
theorem Typed.newClosure (typed : w.Typed x) (hn : n < w.activations.size) (h : w.Stands x n p)
    {index : Nat} {inner : Code} {b : ScopeId} {stats : List Stat}
    (nested : p.method.nested? index = some inner) (runs : (p.inside b stats).Runs x inner) :
    w.Extends (w.newClosure n index).1 ∧ (w.newClosure n index).1.Typed x
      ∧ (w.newClosure n index).1.Types x (w.newClosure n index).2
      ∧ w.newClosure n index
        = ({ w with memory := { w.memory with serial := w.memory.serial + 1 } },
            .block
              { serial := w.memory.serial
                code := inner
                enclosing := handle n
                home := handle (w.activation n).home
                receiver := (w.activation n).receiver }) := by
  have made : w.newClosure n index
      = ({ w with memory := { w.memory with serial := w.memory.serial + 1 } },
          .block ⟨w.memory.serial, inner, handle n, handle (w.activation n).home,
            (w.activation n).receiver⟩) := by
    simp only [World.newClosure, h.method, nested]
  rw [made]
  obtain ⟨grown, typed'⟩ := typed.sameStore
    (m := { w.memory with serial := w.memory.serial + 1 }) rfl
  exact ⟨grown, typed',
    .block (p := p.inside b stats) hn rfl rfl rfl h.method runs rfl h.chain.symm, rfl⟩

/-! ## New activations -/

/-- The callee can be entered. -/
inductive Calls (x : Setting) (w : World) : Callee → Prop where
  | method {code : Code} {receiver : Value} {args : List Value} {source : Source} {fields : Nat}
      (compiled : x.Compiles code source fields) (hr : w.Types x receiver)
      (ha : ∀ v ∈ args, w.Types x v) (arity : args.length = code.block.nargs)
      (hf : ∀ cls r, receiver = .object cls r → fields ≤ cls.numFields) :
      Calls x w (.method code receiver args)
  | block {c : Closure Value} {args : List Value} (hc : w.Types x (.block c))
      (ha : ∀ v ∈ args, w.Types x v) (arity : args.length = c.code.block.nargs) :
      Calls x w (.block c args)

section Begin

variable {source : Source} {callee : Callee}

@[simp] theorem memory_begin : (w.begin x source callee).memory = w.memory := rfl

@[simp] theorem size_begin :
    (w.begin x source callee).activations.size = w.activations.size + 1 := by
  simp [begin]

theorem activation_begin_new : (w.begin x source callee).activation w.activations.size
    = w.activationOf x source w.activations.size callee := by
  simp [activation, begin]

theorem activation_begin (hn : n < w.activations.size) :
    (w.begin x source callee).activation n = w.activation n := by
  simp [activation, begin, Array.getElem?_push_lt hn, Array.getElem?_eq_getElem hn]

theorem extends_begin : w.Extends (w.begin x source callee) := by
  refine ⟨?_, fun n hn => ?_, Nat.le_refl _, fun _ _ => rfl⟩
  · rw [size_begin]
    exact Nat.le_succ _
  · rw [activation_begin hn]
    exact .refl _

/-- An activation of code that stands in a method, the scopes around it being in place. -/
theorem stands_begin (typed : w.Typed x) {a : Activation}
    (ha : w.activationOf x p.source w.activations.size callee = a) (runs : p.Runs x a.code)
    (home : a.home = w.activations.size ∧ a.code = p.method
      ∨ a.home < w.activations.size ∧ (w.activation a.home).code = p.method
        ∧ p.source.ending = .block)
    (env : a.env = (p.source.scope, w.activations.size) :: a.env.tail)
    (around : a.env.tail.map Prod.fst = p.around)
    (outer : ∀ e ∈ a.env.tail, e.2 < w.activations.size
      ∧ (w.activation e.2).vars.size = x.varCount e.1)
    (vars : a.vars.size = x.varCount p.source.scope)
    (fields : ∀ cls r, a.receiver = .object cls r → p.fields ≤ cls.numFields)
    (receiver : w.Types x a.receiver) (typedVars : ∀ v ∈ a.vars, w.Types x v) :
    (w.begin x p.source callee).Stands x w.activations.size p
      ∧ (w.begin x p.source callee).Typed x := by
  have grown : w.Extends (w.begin x p.source callee) := extends_begin
  have new : (w.begin x p.source callee).activation w.activations.size = a :=
    activation_begin_new.trans ha
  have stands : (w.begin x p.source callee).Stands x w.activations.size p := by
    refine ⟨?_, ?_, ?_, ?_, ?_, ?_, ?_⟩
    all_goals rw [new]
    · exact runs
    · rw [size_begin]
      rcases home with ⟨he, -⟩ | ⟨hlt, -⟩ <;> omega
    · rcases home with ⟨he, hm⟩ | ⟨hlt, hm, -⟩
      · rw [he, new, hm]
      · rw [activation_begin hlt, hm]
    · rcases home with ⟨he, -⟩ | ⟨-, -, literal⟩
      · exact fun _ => he
      · exact fun outer => absurd literal outer
    · rw [env, List.map_cons, around]
      rfl
    · rw [env]
      refine List.forall_mem_cons.2 ⟨⟨?_, ?_⟩, fun e he => ?_⟩
      · rw [size_begin]
        exact Nat.lt_succ_self _
      · rw [new, vars]
      · obtain ⟨lt, size⟩ := outer e he
        rw [size_begin, activation_begin lt]
        exact ⟨Nat.lt_succ_of_lt lt, size⟩
    · exact fields
  refine ⟨stands, fun r hr v hv => (typed.rows r hr v hv).mono typed grown,
    typed.transcript.mono typed grown, fun n hn => ?_, fun n hn => ?_, fun n hn v hv => ?_⟩
  all_goals
    rw [size_begin] at hn
    rcases Nat.lt_succ_iff_lt_or_eq.1 hn with hlt | rfl
  · exact (typed.stands n hlt).imp fun _ h => h.mono hlt grown
  · exact ⟨p, stands⟩
  · rw [activation_begin hlt]
    exact (typed.receiver n hlt).mono typed grown
  · rw [new]
    exact receiver.mono typed grown
  · rw [activation_begin hlt] at hv
    exact (typed.vars n hlt v hv).mono typed grown
  · rw [new] at hv
    exact (typedVars v hv).mono typed grown

/-- **A callee that can be entered** has a body, and its activation stands there. -/
theorem Typed.begin (typed : w.Typed x) (h : w.Calls x callee) :
    ∃ p, p.Runs x callee.code ∧ (w.begin x p.source callee).Stands x w.activations.size p
      ∧ (w.begin x p.source callee).Typed x := by
  have slots {p : Standing} {code : Code} {args : List Value} (runs : p.Runs x code)
      (arity : args.length = code.block.nargs) (ha : ∀ v ∈ args, w.Types x v) :
      let vars := args.toArray
        ++ Array.replicate (x.varCount p.source.scope - args.length) Value.nil
      vars.size = x.varCount p.source.scope ∧ ∀ v ∈ vars, w.Types x v := by
    refine ⟨?_, fun v hv => ?_⟩
    · have := runs.frameSize_eq.2
      simp only [Array.size_append, List.size_toArray, Array.size_replicate]
      omega
    · rcases Array.mem_append.1 hv with hv | hv
      · exact ha v (List.mem_toArray.1 hv)
      · rw [Array.eq_of_mem_replicate hv]
        exact .simple trivial
  cases h with
  | @method code receiver args source fields compiled hr ha arity hf =>
    have runs := Standing.runs_ofMethod compiled
    obtain ⟨size, typedVars⟩ := slots runs arity ha
    exact ⟨_, runs, stands_begin typed (p := .ofMethod code source fields) rfl runs
      (.inl ⟨rfl, rfl⟩) rfl rfl (List.forall_mem_nil _) size hf hr typedVars⟩
  | @block c args hc ha arity =>
    cases hc with
    | simple h => exact h.elim
    | @block _ n p made enclosing home receiver method runs literal around =>
      obtain ⟨q, stands⟩ := typed.stands n made
      obtain ⟨size, typedVars⟩ := slots runs arity ha
      have env : (w.activation c.enclosing.index).env = (w.activation n).env := by
        rw [enclosing]
        rfl
      have same : c.home.index = (w.activation n).home := by
        rw [home]
        rfl
      refine ⟨p, runs,
        stands_begin typed (p := p) rfl runs (.inr ?_) rfl ?_ ?_ size ?_ ?_ typedVars⟩
      · simp only [activationOf, same]
        exact ⟨stands.home, method, literal⟩
      · simp only [activationOf, List.tail_cons, env]
        exact around.symm
      · simp only [activationOf, List.tail_cons, env]
        exact stands.vars
      · intro cls r hobject
        simp only [activationOf, receiver] at hobject
        have := stands.fields cls r hobject
        rwa [← runs.fields_eq stands.runs (method.symm.trans stands.method)] at this
      · simp only [activationOf, receiver]
        exact typed.receiver n made

end Begin

end World

/-! ## Methods -/

open Primitive (Yields)

section Methods

variable {x : Setting} {w : World} {receiver : Value} {code sender : Code} {selector : String}
  {args : List Value} {n : Nat} {p : Standing}

/-- The code is a primitive, or is compiled and the receiver has the fields that it uses. -/
def Setting.Finds (x : Setting) (receiver : Value) (code : Code) : Prop :=
  (∃ p, code.block.primitive = some p) ∨ ∃ source fields, x.Compiles code source fields
    ∧ ∀ cls r, receiver = .object cls r → fields ≤ cls.numFields

/-- **A selector is looked up along the superclasses**, which have no more fields. -/
theorem Setting.Sound.lookup (sound : x.Sound) {cls : Class} (has : x.image.Has cls)
    (h : cls.lookup selector = some code) :
    (∃ p, code.block.primitive = some p)
      ∨ ∃ source fields, x.Compiles code source fields ∧ fields ≤ cls.numFields := by
  obtain ⟨info, above⟩ := cls
  induction above generalizing info with
  | nil =>
    have here : info.methods[selector]? = some code := by
      simpa [Class.lookup, Class.chain] using h
    exact (sound.methods _ _ _ has here).imp_right fun ⟨source, compiled⟩ =>
      ⟨source, _, compiled, Nat.le_refl _⟩
  | cons next rest ih =>
    cases here : info.methods[selector]? with
    | some found =>
      obtain rfl : found = code := by
        simpa [Class.lookup, Class.chain, List.findSome?_cons, here] using h
      exact (sound.methods _ _ _ has here).imp_right fun ⟨source, compiled⟩ =>
        ⟨source, _, compiled, Nat.le_refl _⟩
    | none =>
      have inherited : Class.lookup ⟨next, rest⟩ selector = some code := by
        simpa [Class.lookup, Class.chain, List.findSome?_cons, here] using h
      refine (ih next (sound.superclass _ _ has rfl) inherited).imp_right ?_
      rintro ⟨source, fields, compiled, fits⟩
      exact ⟨source, fields, compiled, Nat.le_trans fits (Nat.le_add_left _ _)⟩

theorem Setting.Sound.methodFrom (sound : x.Sound) {start : Class} (has : x.image.Has start)
    (whom : String) (selector : String)
    (fits : ∀ cls r, receiver = .object cls r → start.numFields ≤ cls.numFields) :
    Yields (x.Finds receiver) (x.image.methodFrom start whom receiver selector) := by
  unfold Image.methodFrom
  cases h : start.lookup selector with
  | none => trivial
  | some code =>
    dsimp only
    split
    · trivial
    · split
      · trivial
      · refine (sound.lookup has h).imp_right ?_
        rintro ⟨source, fields, compiled, le⟩
        exact ⟨source, fields, compiled, fun cls r hr => Nat.le_trans le (fits cls r hr)⟩

/-- The method that answers a message to a typed value. -/
theorem Setting.Sound.method (sound : x.Sound) (hr : w.Types x receiver) (selector : String) :
    Yields (x.Finds receiver) (x.image.method receiver selector) := by
  refine sound.methodFrom ?_ _ _ fun cls r hobject => ?_
  · cases hr with
    | simple h =>
      refine sound.known _ (fun cls r he => ?_) fun cls he => ?_
      · exact (he ▸ h : (Value.object cls r).Simple)
      · exact (he ▸ h : (Value.cls cls).Simple)
    | array row => exact sound.known _ (fun _ _ => nofun) fun _ => nofun
    | object has => exact has
    | cls has => exact has
    | block => exact sound.known _ (fun _ _ => nofun) fun _ => nofun
  · subst hobject
    exact Nat.le_refl _

/-- The method that answers a `super` send of an activation. -/
theorem Setting.Sound.superMethod (sound : x.Sound) (h : w.Stands x n p) (selector : String) :
    Yields (x.Finds (w.activation n).receiver)
      (x.image.superMethod (w.activation n).code (w.activation n).receiver selector) := by
  obtain ⟨owner, howner, has, count⟩ := h.runs.method.owner
  have same : x.image.owner? (w.activation n).code = some owner := by
    rw [Image.owner?, h.runs.owner]
    exact howner
  unfold Image.superMethod
  simp only [same]
  cases hup : owner.superclass? with
  | none => trivial
  | some above =>
    refine sound.methodFrom (sound.superclass _ _ has hup) _ _ fun cls r hobject => ?_
    refine Nat.le_trans ?_ (h.fields cls r hobject)
    rw [← count]
    obtain ⟨info, rest⟩ := owner
    cases rest with
    | nil => cases hup
    | cons next rest =>
      cases hup
      exact Nat.le_add_left _ _

/-- What a method call comes to at once keeps the world typed. -/
def World.Accepts (x : Setting) (w : World) : Reply → Prop
  | .answer v m => w.Extends { w with memory := m } ∧ World.Typed x { w with memory := m }
      ∧ World.Types x { w with memory := m } v
  | .enter callee m => m = w.memory ∧ w.Calls x callee
  | .fault cause m => m = w.memory ∧ cause.Ordinary

/-- **Calling a method that was found.** -/
theorem World.Typed.invoke (typed : w.Typed x) (finds : x.Finds receiver code)
    (hr : w.Types x receiver) (ha : ∀ v ∈ args, w.Types x v) :
    w.Accepts x (invoke x.image w.memory receiver code args) := by
  rcases invoke_gives x.image w.memory receiver code args with ⟨none, arity, entered⟩ | gives
  · rw [entered]
    rcases finds with ⟨q, hq⟩ | ⟨source, fields, compiled, fits⟩
    · rw [none] at hq
      cases hq
    · exact ⟨rfl, .method compiled hr ha arity fits⟩
  · cases hreply : Colloquy.invoke x.image w.memory receiver code args with
    | answer v m =>
      rw [hreply] at gives
      exact typed.gives hr ha gives
    | enter callee m =>
      rw [hreply] at gives
      cases gives with
      | enter of given arity =>
        exact ⟨rfl, .block ((List.forall_mem_cons.2 ⟨hr, ha⟩) _ of) (fun v hv => ha v (given v hv))
          arity⟩
    | fault cause m =>
      rw [hreply] at gives
      cases gives with
      | fault h => exact ⟨rfl, h⟩

/-- Names of globals stand for typed values. -/
theorem World.Typed.lookup (typed : w.Typed x) (sound : x.Sound) {name : String} {v : Value}
    (h : x.image.lookup name = some v) : w.Types x v := by
  obtain rfl | rfl | ⟨cls, hcls, rfl⟩ := Image.lookup_cases h
  · exact .simple trivial
  · exact typed.transcript
  · exact .cls (sound.byName name cls hcls)

end Methods

end Direct

end Colloquy
