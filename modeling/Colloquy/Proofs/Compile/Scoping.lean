import Mathlib.Data.List.Chain
import Colloquy.Proofs.Direct.Evaluator

/-!
# What resolution finds

A resolved tree is *scoped*: every name refers to a field that is there, to a variable of a scope
around it, or to a global, and every block literal has a scope of its own inside the scope around
it.  The block literals of a method are numbered in the order of the tree.

Main statement: resolution answers scoped programs (`resolve_scoped`).
-/

namespace Colloquy

/-- A computation that succeeds does so step by step. -/
theorem EStateM.bind_eq_ok {ε σ α β : Type} {x : EStateM ε σ α} {f : α → EStateM ε σ β} {s s' : σ}
    {b : β} : (x >>= f) s = .ok b s' ↔ ∃ a t, x s = .ok a t ∧ f a t = .ok b s' := by
  change EStateM.bind x f s = .ok b s' ↔ _
  unfold EStateM.bind
  cases x s with
  | ok a t =>
    refine ⟨fun h => ⟨a, t, rfl, h⟩, ?_⟩
    rintro ⟨_, _, ⟨⟩, h⟩
    exact h
  | error e t => simp

theorem EStateM.get_apply {ε σ : Type} (s : σ) : (get : EStateM ε σ σ) s = .ok s s := rfl

theorem EStateM.throw_apply {ε σ α : Type} (e : ε) (s : σ) :
    (throw e : EStateM ε σ α) s = .error e s := rfl

theorem EStateM.modifyGet_apply {ε σ α : Type} (f : σ → α × σ) (s : σ) :
    (modifyGet f : EStateM ε σ α) s = .ok (f s).1 (f s).2 := rfl

/-! ## Scoped trees -/

/-- The scopes of the first tree are those of the second, under the same numbers. -/
def ScopeTree.Grows (t t' : ScopeTree) : Prop := ∀ id s, t.get? id = some s → t'.get? id = some s

theorem ScopeTree.Grows.refl (t : ScopeTree) : t.Grows t := fun _ _ h => h

theorem ScopeTree.Grows.trans {t t' t'' : ScopeTree} (h : t.Grows t') (h' : t'.Grows t'') :
    t.Grows t'' := fun id s hs => h' id s (h id s hs)

/-- What the names of one method can refer to. -/
structure Site where
  tree : ScopeTree
  /-- The number of fields. -/
  fields : Nat
  /-- The block literals of the method. -/
  blocks : BlockHead → List Stat → Prop

/-- The symbol can be seen with the given scopes around it, innermost first. -/
def Symbol.Visible (x : Site) (chain : List ScopeId) : Symbol → Prop
  | .global => True
  | .field i => i.toNat < x.fields
  | .slot scope i => scope ∈ chain ∧ ∃ s, x.tree.get? scope = some s ∧ i.toNat < s.vars.length

def Ident.Visible (x : Site) (chain : List ScopeId) (name : Ident) : Prop :=
  ∃ symbol, name.symbol = some symbol ∧ symbol.Visible x chain

/-- The block literal has scope `b` inside the innermost of the given ones. -/
structure BlockHead.Opens (tree : ScopeTree) (chain : List ScopeId) (head : BlockHead)
    (b : ScopeId) : Prop where
  scope : head.scope = some b
  inside : tree.parent? b = chain.head?
  slots : ∃ s, tree.get? b = some s ∧ s.nargs ≤ s.vars.length

mutual

/-- The names and block literals of an expression are resolved. -/
inductive Expr.Scoped (x : Site) : List ScopeId → Expr → Prop where
  | literal {chain : List ScopeId} (value : Literal) : Expr.Scoped x chain (.literal value)
  | self {chain : List ScopeId} : Expr.Scoped x chain .self
  | ident {chain : List ScopeId} {name : Ident} (visible : name.Visible x chain) :
      Expr.Scoped x chain (.ident name)
  | array {chain : List ScopeId} {items : List Expr} (each : ∀ e ∈ items, Expr.Scoped x chain e) :
      Expr.Scoped x chain (.array items)
  | block {chain : List ScopeId} {head : BlockHead} {body : List Stat} {b : ScopeId}
      (opens : head.Opens x.tree chain b) (known : x.blocks head body)
      (each : ∀ s ∈ body, Stat.Scoped x (b :: chain) s) : Expr.Scoped x chain (.block head body)
  | send {chain : List ScopeId} {receiver : Expr} {selector : String} {args : List Expr}
      {position : Position} (first : Expr.Scoped x chain receiver)
      (each : ∀ e ∈ args, Expr.Scoped x chain e) :
      Expr.Scoped x chain (.send receiver selector args position)
  | superSend {chain : List ScopeId} {selector : String} {args : List Expr} {position : Position}
      (each : ∀ e ∈ args, Expr.Scoped x chain e) :
      Expr.Scoped x chain (.superSend selector args position)

/-- The names and block literals of a statement are resolved. -/
inductive Stat.Scoped (x : Site) : List ScopeId → Stat → Prop where
  | expr {chain : List ScopeId} {value : Expr} (first : Expr.Scoped x chain value) :
      Stat.Scoped x chain (.expr value)
  | assign {chain : List ScopeId} {target : Ident} {value : Expr} {position : Position}
      (first : Expr.Scoped x chain value) (visible : target.Visible x chain) :
      Stat.Scoped x chain (.assign target value position)
  | ret {chain : List ScopeId} {value : Expr} {position : Position}
      (first : Expr.Scoped x chain value) : Stat.Scoped x chain (.ret value position)

end

/-- The body of the method with scope `scope` is resolved, and block literal `i` is the `i`-th one
of the body. -/
def BodyScoped (tree : ScopeTree) (fields : Nat) (scope : ScopeId) (stats : List Stat) : Prop :=
  ∀ s ∈ stats, Stat.Scoped
    ⟨tree, fields, fun head body => (Stat.blocksAll stats)[head.index.toNat]? = some (head, body)⟩
    [scope] s

/-- A resolved method. -/
structure MethodScoped (tree : ScopeTree) (fields : Nat) (m : Method) : Prop where
  scope : ∃ id s, m.scope = some id ∧ tree.get? id = some s ∧ s.nargs ≤ s.vars.length
  body : ∀ id b, m.scope = some id → m.kind = .code b → BodyScoped tree fields id b.stats

/-- A resolved main body. -/
structure MainScoped (tree : ScopeTree) (fields : Nat) (m : MainBody) : Prop where
  scope : ∃ id s, m.scope = some id ∧ tree.get? id = some s ∧ s.nargs = 0
  body : ∀ id, m.scope = some id → BodyScoped tree fields id m.body.stats

/-- The fields of every class so far, inherited ones first. -/
abbrev Layouts := Std.HashMap String (List String)

/-- A resolved class, with all its fields. -/
structure ClassScoped (tree : ScopeTree) (layouts : Layouts) (c : ClassDef)
    (fields : List String) : Prop where
  root : c.superclass = none → fields = c.fields
  inherits : ∀ above, c.superclass = some above →
    ∃ inherited, layouts[above]? = some inherited ∧ fields = inherited ++ c.fields
  methods : ∀ m ∈ c.methods, MethodScoped tree fields.length m

/-- Resolved classes, each after its superclass. -/
inductive ClassesScoped (tree : ScopeTree) : Layouts → List ClassDef → Layouts → Prop where
  | nil (layouts : Layouts) : ClassesScoped tree layouts [] layouts
  | cons {layouts layouts' : Layouts} {c : ClassDef} {rest : List ClassDef} {fields : List String}
      (first : ClassScoped tree layouts c fields)
      (later : ClassesScoped tree (layouts.insert c.name fields) rest layouts') :
      ClassesScoped tree layouts (c :: rest) layouts'

/-! ## The way up the scopes -/

/-- Each scope is inside the next one. -/
def ScopeTree.Linked (tree : ScopeTree) (chain : List ScopeId) : Prop :=
  chain.IsChain fun a b => tree.parent? a = some b

/-- The number of hops to a scope around a place is its place in the chain. -/
theorem ScopeTree.climb_eq {tree : ScopeTree} {source target : ScopeId} {rest : List ScopeId}
    {depth hops : Nat} (linked : tree.Linked (source :: rest)) (around : target ∈ source :: rest)
    (h : tree.climb target source depth = some hops) :
    hops = depth + (source :: rest).idxOf target := by
  induction rest generalizing source depth with
  | nil =>
    obtain rfl : target = source := List.mem_singleton.1 around
    rw [climb, if_pos rfl] at h
    simp at h
    simp [h]
  | cons outer rest ih =>
    rw [climb] at h
    split at h
    · rename_i he
      subst he
      simp at h
      simp [h]
    · rename_i hne
      cases linked with
      | cons_cons up linked =>
        rw [up] at h
        dsimp only at h
        split at h
        · have around : target ∈ outer :: rest :=
            (List.mem_cons.1 around).resolve_left fun he => hne he.symm
          rw [ih linked around h, List.idxOf_cons_ne _ hne]
          omega
        · cases h

/-- Hops fit in a short. -/
theorem ScopeTree.climb_lt {tree : ScopeTree} {source target : ScopeId} {depth hops : Nat}
    (room : depth < 65536) (h : tree.climb target source depth = some hops) : hops < 65536 := by
  fun_induction ScopeTree.climb tree target source depth with
  | case1 => simp_all
  | case2 => simp_all
  | case3 source depth _ above _ hlt ih =>
    have fits : above < source ∧ depth < 65535 := by simpa using hlt
    exact ih (Nat.succ_lt_succ fits.2) h
  | case4 => simp_all

namespace Resolve

/-! ## Steps of resolution -/

variable {σ σ' τ : Resolver} {chain : ScopeChain} {fields : List String} {selector : String}

/-- Resolution has added scopes, and has numbered the given block literals. -/
structure Taken (σ σ' : Resolver) (blocks : List (BlockHead × List Stat)) : Prop where
  grows : σ.tree.Grows σ'.tree
  layouts : σ'.layouts = σ.layouts
  next : σ'.nextBlock = σ.nextBlock + blocks.length
  numbered : blocks.map (·.1.index.toNat) = List.range' σ.nextBlock blocks.length

theorem Taken.refl (σ : Resolver) : Taken σ σ [] := ⟨.refl _, rfl, rfl, rfl⟩

theorem Taken.append {bs cs : List (BlockHead × List Stat)} (h : Taken σ τ bs)
    (h' : Taken τ σ' cs) : Taken σ σ' (bs ++ cs) := by
  refine ⟨h.grows.trans h'.grows, h'.layouts.trans h.layouts, ?_, ?_⟩
  · rw [h'.next, h.next, List.length_append, Nat.add_assoc]
  · rw [List.map_append, h.numbered, h'.numbered, h.next, List.length_append, List.range'_append_1]

theorem check_eq_ok {α : Type} {x : Except CompileError α} {a : α} :
    check x σ = .ok a σ' ↔ x = .ok a ∧ σ' = σ := by
  cases x with
  | ok b =>
    change EStateM.Result.ok b σ = .ok a σ' ↔ _
    simp [eq_comm]
  | error e =>
    change EStateM.Result.error e σ = .ok a σ' ↔ _
    simp

/-- Names of variables that pass are not too many. -/
theorem length_of_checkVars {scope : String} {vars seen : List String} {count : Nat}
    (room : count ≤ maxSlots) (h : checkVars scope vars seen count = .ok ()) :
    count + vars.length ≤ maxSlots := by
  induction vars generalizing seen count with
  | nil => exact room
  | cons v rest ih =>
    rw [checkVars] at h
    split at h
    · cases h
    · split at h
      · cases h
      · have := ih (by omega) h
        simp only [List.length_cons]
        omega

theorem get?_add (t : ScopeTree) (s : Scope) :
    t.Grows (t.add s).1 ∧ (t.add s).1.get? (t.add s).2 = some s := by
  refine ⟨fun id s' h => ?_, ?_⟩
  · simp only [ScopeTree.get?, ScopeTree.add] at h ⊢
    obtain ⟨hlt, -⟩ := Array.getElem?_eq_some_iff.1 h
    rw [Array.getElem?_push_lt hlt, ← h, Array.getElem?_eq_getElem hlt]
  · simp [ScopeTree.get?, ScopeTree.add]

/-- A new scope for code. -/
theorem openCode_eq_ok {name : String} {kind : ScopeKind} {parent : ScopeId}
    {args locals : List String} {scope : ScopeId × List String}
    (h : openCode name kind parent args locals σ = .ok scope σ') :
    Taken σ σ' [] ∧ scope.2.length ≤ maxSlots ∧ ∃ s, σ'.tree.get? scope.1 = some s
      ∧ s.parent = some parent ∧ s.vars = scope.2 ∧ s.nargs = args.length
      ∧ scope.2 = args ++ locals := by
  obtain ⟨_, _, ⟨⟩, checked⟩ := EStateM.bind_eq_ok.1 h
  obtain ⟨_, _, hvars, added⟩ := EStateM.bind_eq_ok.1 checked
  obtain ⟨hvars, rfl⟩ := check_eq_ok.1 hvars
  obtain ⟨id, _, ⟨⟩, ⟨⟩⟩ := EStateM.bind_eq_ok.1 added
  have room := length_of_checkVars (Nat.zero_le _) hvars
  rw [Nat.zero_add] at room
  exact ⟨⟨(get?_add _ _).1, rfl, rfl, rfl⟩, room, _, (get?_add _ _).2, rfl, rfl, rfl, rfl⟩

theorem takeBlockIndex_eq_ok {index : UInt16} (h : takeBlockIndex σ = .ok index σ') :
    index.toNat = σ.nextBlock ∧ σ' = { σ with nextBlock := σ.nextBlock + 1 } := by
  obtain ⟨_, _, ⟨⟩, taken⟩ := EStateM.bind_eq_ok.1 h
  split at taken
  · rename_i hlt
    cases taken
    refine ⟨?_, rfl⟩
    simp only [Nat.toUInt16_eq, UInt16.toNat_ofNat']
    exact Nat.mod_eq_of_lt (Nat.lt_trans hlt (by decide))
  · cases taken

/-- The scopes around a place are in the tree. -/
structure Around (tree : ScopeTree) (chain : ScopeChain) : Prop where
  inTree : ∀ entry ∈ chain, entry.2.length ≤ maxSlots
    ∧ ∃ s, tree.get? entry.1 = some s ∧ s.vars = entry.2
  inside : chain ≠ []

theorem Around.mono {t t' : ScopeTree} (h : Around t chain) (hg : t.Grows t') :
    Around t' chain :=
  ⟨fun entry he => ⟨(h.inTree entry he).1, by
    obtain ⟨s, hs, hv⟩ := (h.inTree entry he).2
    exact ⟨s, hg _ _ hs, hv⟩⟩, h.inside⟩

/-- A name refers to something that can be seen. -/
theorem resolveName_visible {x : Site} (name : String) (hf : fields.length ≤ maxSlots)
    (around : ∀ entry ∈ chain, entry.2.length ≤ maxSlots
      ∧ ∃ s, x.tree.get? entry.1 = some s ∧ s.vars = entry.2)
    (hx : x.fields = fields.length) :
    (resolveName fields name chain).Visible x (chain.map Prod.fst) := by
  have short {i n : Nat} (hi : i < n) (hn : n ≤ maxSlots) : i.toUInt16.toNat < n := by
    rw [Nat.toUInt16_eq, UInt16.toNat_ofNat', Nat.mod_eq_of_lt]
    · exact hi
    · exact Nat.lt_trans (Nat.lt_of_lt_of_le hi hn) (by decide)
  induction chain with
  | nil =>
    unfold resolveName
    split
    · rename_i i hi
      obtain ⟨hlt, -⟩ := List.findIdx?_eq_some_iff_getElem.1 hi
      exact Nat.lt_of_lt_of_eq (short hlt hf) hx.symm
    · trivial
  | cons entry outer ih =>
    obtain ⟨id, vars⟩ := entry
    unfold resolveName
    split
    · rename_i i hi
      obtain ⟨hlt, -⟩ := List.findIdx?_eq_some_iff_getElem.1 hi
      obtain ⟨room, s, hs, rfl⟩ := around _ List.mem_cons_self
      exact ⟨List.mem_cons_self, s, hs, short hlt room⟩
    · have seen := ih fun entry he => around entry (List.mem_cons_of_mem _ he)
      generalize resolveName fields name outer = symbol at seen
      cases symbol with
      | slot scope i => exact ⟨List.mem_cons_of_mem _ seen.1, seen.2⟩
      | _ => exact seen

/-- A new scope for a block literal. -/
theorem openBlock_eq_ok {head head' : BlockHead} {inner : ScopeChain}
    (around : Around σ.tree chain) (body : List Stat)
    (h : openBlock selector chain head σ = .ok (head', inner) σ') :
    Taken σ σ' [(head', body)] ∧ Around σ'.tree inner
      ∧ ∃ b, inner.map Prod.fst = b :: chain.map Prod.fst
        ∧ head'.Opens σ'.tree (chain.map Prod.fst) b := by
  obtain ⟨index, τ, hindex, h⟩ := EStateM.bind_eq_ok.1 h
  obtain ⟨number, rfl⟩ := takeBlockIndex_eq_ok hindex
  obtain ⟨scope, τ, hopen, h⟩ := EStateM.bind_eq_ok.1 h
  obtain ⟨taken, room, s, here, parent, vars, nargs, hvars⟩ := openCode_eq_ok hopen
  cases h
  refine ⟨⟨taken.grows, taken.layouts, taken.next, ?_⟩, ⟨?_, by simp⟩, scope.1, rfl, rfl, ?_,
    s, here, ?_⟩
  · simp [number]
  · refine List.forall_mem_cons.2 ⟨⟨room, s, here, vars⟩, (around.mono taken.grows).inTree⟩
  · rw [ScopeTree.parent?, here, Option.bind_some, parent]
    obtain ⟨entry, rest, rfl⟩ := List.exists_cons_of_ne_nil around.inside
    rfl
  · rw [nargs, vars, hvars, List.length_append]
    exact Nat.le_add_right _ _

/-! ## Expressions and statements -/

/-- The site of a method is right about what has been resolved of it. -/
structure Fits (tree : ScopeTree) (fields : List String) (blocks : List (BlockHead × List Stat))
    (x : Site) : Prop where
  grows : tree.Grows x.tree
  count : x.fields = fields.length
  known : ∀ b ∈ blocks, x.blocks b.1 b.2

variable {x : Site}

theorem Fits.left {bs cs : List (BlockHead × List Stat)} (later : Taken τ σ' cs)
    (h : Fits σ'.tree fields (bs ++ cs) x) : Fits τ.tree fields bs x :=
  ⟨later.grows.trans h.grows, h.count, fun b hb => h.known b (List.mem_append_left cs hb)⟩

theorem Fits.right {bs cs : List (BlockHead × List Stat)}
    (h : Fits σ'.tree fields (bs ++ cs) x) : Fits σ'.tree fields cs x :=
  ⟨h.grows, h.count, fun b hb => h.known b (List.mem_append_right bs hb)⟩

theorem Fits.visible {blocks : List (BlockHead × List Stat)} (hf : fields.length ≤ maxSlots)
    (around : Around σ.tree chain) (h : Fits σ.tree fields blocks x) (name : Ident) :
    (name.resolve fields chain).Visible x (chain.map Prod.fst) :=
  ⟨_, rfl, resolveName_visible _ hf (around.mono h.grows).inTree h.count⟩

mutual

/-- **Resolving an expression** leaves a scoped one. -/
theorem expr_scoped (hf : fields.length ≤ maxSlots) {chain : ScopeChain} {σ σ' : Resolver}
    (around : Around σ.tree chain) (e : Expr) {e' : Expr}
    (h : expr fields selector chain e σ = .ok e' σ') :
    Taken σ σ' e'.blocks
      ∧ ∀ x, Fits σ'.tree fields e'.blocks x → e'.Scoped x (chain.map Prod.fst) := by
  cases e with
  | literal value =>
    cases h
    exact ⟨.refl σ, fun x _ => .literal value⟩
  | self =>
    cases h
    exact ⟨.refl σ, fun x _ => .self⟩
  | ident name =>
    cases h
    exact ⟨.refl σ, fun x hx => .ident (hx.visible hf around name)⟩
  | array items =>
    obtain ⟨_, τ, hitems, ⟨⟩⟩ := EStateM.bind_eq_ok.1 h
    obtain ⟨items', rfl, taken, each⟩ := exprs_scoped hf around items [] hitems
    exact ⟨taken, fun x hx => .array (each x hx)⟩
  | block head body =>
    obtain ⟨⟨head', inner⟩, τ, hopen, hbody⟩ := EStateM.bind_eq_ok.1 h
    obtain ⟨body', τ', hstats, ⟨⟩⟩ := EStateM.bind_eq_ok.1 hbody
    obtain ⟨-, around', -⟩ := openBlock_eq_ok around [] hopen
    obtain ⟨_, rfl, taken', each⟩ := stats_scoped hf around' body [] hstats
    obtain ⟨taken, -, b, hb, opens⟩ := openBlock_eq_ok around body' hopen
    refine ⟨taken.append taken', fun x (hx : Fits _ _ ([(head', body')] ++ _) x) => ?_⟩
    have opened : head'.Opens x.tree (chain.map Prod.fst) b := by
      have grows := taken'.grows.trans hx.grows
      obtain ⟨s, hs, hle⟩ := opens.slots
      refine ⟨opens.scope, ?_, s, grows _ _ hs, hle⟩
      rw [← opens.inside, ScopeTree.parent?, grows _ _ hs, ScopeTree.parent?, hs]
    refine .block opened (hx.known _ List.mem_cons_self) ?_
    rw [← hb]
    exact each x hx.right
  | send receiver message args position =>
    obtain ⟨receiver', τ, hreceiver, hrest⟩ := EStateM.bind_eq_ok.1 h
    obtain ⟨_, τ', hargs, ⟨⟩⟩ := EStateM.bind_eq_ok.1 hrest
    obtain ⟨taken, first⟩ := expr_scoped hf around receiver hreceiver
    obtain ⟨args', rfl, taken', each⟩ :=
      exprs_scoped hf (around.mono taken.grows) args [] hargs
    exact ⟨taken.append taken', fun x hx => .send (first x (hx.left taken')) (each x hx.right)⟩
  | superSend message args position =>
    obtain ⟨_, τ, hargs, ⟨⟩⟩ := EStateM.bind_eq_ok.1 h
    obtain ⟨args', rfl, taken, each⟩ := exprs_scoped hf around args [] hargs
    exact ⟨taken, fun x hx => .superSend (each x hx)⟩
termination_by structural e

/-- Expressions are resolved behind those that are done. -/
theorem exprs_scoped (hf : fields.length ≤ maxSlots) {chain : ScopeChain} {σ σ' : Resolver}
    (around : Around σ.tree chain) (es : List Expr) (done : List Expr) {es' : List Expr}
    (h : exprs fields selector chain es done σ = .ok es' σ') :
    ∃ new, es' = done.reverse ++ new ∧ Taken σ σ' (Expr.blocksAll new)
      ∧ ∀ x, Fits σ'.tree fields (Expr.blocksAll new) x →
        ∀ e ∈ new, Expr.Scoped x (chain.map Prod.fst) e := by
  cases es with
  | nil =>
    cases h
    exact ⟨[], (List.append_nil _).symm, .refl σ, fun x _ => List.forall_mem_nil _⟩
  | cons e rest =>
    obtain ⟨e', τ, he, hrest⟩ := EStateM.bind_eq_ok.1 h
    obtain ⟨taken, first⟩ := expr_scoped hf around e he
    obtain ⟨new, rfl, taken', each⟩ :=
      exprs_scoped hf (around.mono taken.grows) rest (e' :: done) hrest
    refine ⟨e' :: new, by simp, taken.append taken', fun x hx => ?_⟩
    exact List.forall_mem_cons.2 ⟨first x (hx.left taken'), each x hx.right⟩
termination_by structural es

/-- **Resolving a statement** leaves a scoped one. -/
theorem stat_scoped (hf : fields.length ≤ maxSlots) {chain : ScopeChain} {σ σ' : Resolver}
    (around : Around σ.tree chain) (s : Stat) {s' : Stat}
    (h : stat fields selector chain s σ = .ok s' σ') :
    Taken σ σ' s'.blocks
      ∧ ∀ x, Fits σ'.tree fields s'.blocks x → s'.Scoped x (chain.map Prod.fst) := by
  cases s with
  | expr value =>
    obtain ⟨value', τ, hvalue, ⟨⟩⟩ := EStateM.bind_eq_ok.1 h
    obtain ⟨taken, first⟩ := expr_scoped hf around value hvalue
    exact ⟨taken, fun x hx => .expr (first x hx)⟩
  | assign target value position =>
    obtain ⟨value', τ, hvalue, ⟨⟩⟩ := EStateM.bind_eq_ok.1 h
    obtain ⟨taken, first⟩ := expr_scoped hf around value hvalue
    exact ⟨taken, fun x hx =>
      .assign (first x hx) (hx.visible hf (around.mono taken.grows) target)⟩
  | ret value position =>
    obtain ⟨value', τ, hvalue, ⟨⟩⟩ := EStateM.bind_eq_ok.1 h
    obtain ⟨taken, first⟩ := expr_scoped hf around value hvalue
    exact ⟨taken, fun x hx => .ret (first x hx)⟩
termination_by structural s

/-- Statements are resolved behind those that are done. -/
theorem stats_scoped (hf : fields.length ≤ maxSlots) {chain : ScopeChain} {σ σ' : Resolver}
    (around : Around σ.tree chain) (ss : List Stat) (done : List Stat) {ss' : List Stat}
    (h : stats fields selector chain ss done σ = .ok ss' σ') :
    ∃ new, ss' = done.reverse ++ new ∧ Taken σ σ' (Stat.blocksAll new)
      ∧ ∀ x, Fits σ'.tree fields (Stat.blocksAll new) x →
        ∀ s ∈ new, Stat.Scoped x (chain.map Prod.fst) s := by
  cases ss with
  | nil =>
    cases h
    exact ⟨[], (List.append_nil _).symm, .refl σ, fun x _ => List.forall_mem_nil _⟩
  | cons s rest =>
    obtain ⟨s', τ, hs, hrest⟩ := EStateM.bind_eq_ok.1 h
    obtain ⟨taken, first⟩ := stat_scoped hf around s hs
    obtain ⟨new, rfl, taken', each⟩ :=
      stats_scoped hf (around.mono taken.grows) rest (s' :: done) hrest
    refine ⟨s' :: new, by simp, taken.append taken', fun x hx => ?_⟩
    exact List.forall_mem_cons.2 ⟨first x (hx.left taken'), each x hx.right⟩
termination_by structural ss

end

/-! ## Methods, classes and programs -/

/-- Block literals that are numbered from zero stand at their numbers. -/
theorem getElem?_of_numbered {blocks : List (BlockHead × List Stat)} {b : BlockHead × List Stat}
    (numbered : blocks.map (·.1.index.toNat) = List.range' 0 blocks.length) (hb : b ∈ blocks) :
    blocks[b.1.index.toNat]? = some b := by
  obtain ⟨k, hk⟩ := List.mem_iff_getElem?.1 hb
  have : (blocks.map (·.1.index.toNat))[k]? = some b.1.index.toNat := by
    rw [List.getElem?_map, hk]
    rfl
  rw [numbered, List.getElem?_range' (List.getElem?_eq_some_iff.1 hk).1] at this
  have : k = b.1.index.toNat := by simpa using this
  rw [← this, hk]

/-! ### How a body, a method and a program are resolved -/

theorem body_eq_ok {scope : ScopeId × List String} {b b' : Body}
    (h : body fields selector scope b σ = .ok b' σ') :
    ∃ ss, stats fields selector [scope] b.stats [] { σ with nextBlock := 0 } = .ok ss σ'
      ∧ b' = { b with stats := ss } := by
  obtain ⟨_, _, ⟨⟩, hbody⟩ := EStateM.bind_eq_ok.1 h
  obtain ⟨ss, _, hstats, ⟨⟩⟩ := EStateM.bind_eq_ok.1 hbody
  exact ⟨ss, hstats, rfl⟩

/-- How a method is resolved: its scope is opened, and then its body is resolved if it has one. -/
inductive MethodResolves (classScope : ScopeId) (fields : List String) (m : Method)
    (σ : Resolver) : Method → Resolver → Prop
  | primitive {scope : ScopeId × List String} {τ : Resolver} {tag : String}
      (kind : m.kind = .primitive tag)
      (opens : openCode m.selector (.method m.classSide) classScope m.args m.locals σ
        = .ok scope τ) :
      MethodResolves classScope fields m σ
        { m with kind := .primitive tag, scope := some scope.1 } τ
  | code {scope : ScopeId × List String} {τ τ' : Resolver} {b b' : Body}
      (kind : m.kind = .code b)
      (opens : openCode m.selector (.method m.classSide) classScope m.args m.locals σ
        = .ok scope τ)
      (resolves : body fields m.selector scope b τ = .ok b' τ') :
      MethodResolves classScope fields m σ { m with kind := .code b', scope := some scope.1 } τ'

theorem method_resolves {className : String} {classScope : ScopeId}
    {seen : Std.HashMap String Unit} {m m' : Method}
    (h : method className classScope fields seen m σ = .ok m' σ') :
    MethodResolves classScope fields m σ m' σ' := by
  unfold method at h
  split at h
  · obtain ⟨_, _, ⟨⟩, _⟩ := EStateM.bind_eq_ok.1 h
  obtain ⟨scope, τ, opens, hkind⟩ := EStateM.bind_eq_ok.1 h
  cases kind : m.kind with
  | primitive tag =>
    rw [kind] at hkind
    cases hkind
    exact .primitive kind opens
  | code b =>
    rw [kind] at hkind
    obtain ⟨b', _, resolves, hlast⟩ := EStateM.bind_eq_ok.1 hkind
    obtain ⟨_, _, ⟨⟩, ⟨⟩⟩ := EStateM.bind_eq_ok.1 hlast
    exact .code kind opens resolves

/-- A main body is resolved in a class scope of its own. -/
theorem mainBody_eq_ok {m m' : MainBody} (h : mainBody m σ = .ok m' σ') :
    ∃ (classScope : ScopeId) (τ : Resolver) (scope : ScopeId × List String) (τ' : Resolver)
      (b : Body), σ.layouts[mainClass]? = none
      ∧ addScope { name := mainClass, kind := .cls, parent := some ScopeTree.globalId } σ
        = .ok classScope τ
      ∧ openCode mainSelector (.method false) classScope [] m.locals τ = .ok scope τ'
      ∧ body (σ.layouts.getD rootClass []) mainSelector scope m.body τ' = .ok b σ'
      ∧ m' = { m with body := b, scope := some scope.1 } := by
  obtain ⟨_, _, ⟨⟩, hmain⟩ := EStateM.bind_eq_ok.1 h
  split at hmain
  · obtain ⟨_, _, ⟨⟩, _⟩ := EStateM.bind_eq_ok.1 hmain
  rename_i fresh
  obtain ⟨classScope, τ, adds, hopen⟩ := EStateM.bind_eq_ok.1 hmain
  obtain ⟨scope, τ', opens, hbody⟩ := EStateM.bind_eq_ok.1 hopen
  obtain ⟨b, _, resolves, ⟨⟩⟩ := EStateM.bind_eq_ok.1 hbody
  exact ⟨classScope, τ, scope, τ', b, Std.HashMap.getElem?_eq_none fresh, adds, opens, resolves,
    rfl⟩

/-- How a program is resolved: first its classes, and then its main body if it has one. -/
inductive ProgramResolves (p : Program) (σ : Resolver) : Program → Resolver → Prop
  | bare {cs : List ClassDef} {τ : Resolver} (main : p.main = none)
      (classes : classes p.classes [] σ = .ok cs τ) :
      ProgramResolves p σ { classes := cs, main := none } τ
  | main {cs : List ClassDef} {τ τ' : Resolver} {m m' : MainBody} (main : p.main = some m)
      (classes : classes p.classes [] σ = .ok cs τ) (resolves : mainBody m τ = .ok m' τ') :
      ProgramResolves p σ { classes := cs, main := some m' } τ'

theorem program_resolves {p p' : Program} (h : program p σ = .ok p' σ') :
    ProgramResolves p σ p' σ' := by
  obtain ⟨cs, τ, classes, hmain⟩ := EStateM.bind_eq_ok.1 h
  cases main : p.main with
  | none =>
    rw [main] at hmain
    cases hmain
    exact .bare main classes
  | some m =>
    rw [main] at hmain
    obtain ⟨m', _, resolves, ⟨⟩⟩ := EStateM.bind_eq_ok.1 hmain
    exact .main main classes resolves

/-! ### Scoped methods and programs -/

/-- Scopes have been added, and no class. -/
structure Adds (σ σ' : Resolver) : Prop where
  grows : σ.tree.Grows σ'.tree
  layouts : σ'.layouts = σ.layouts

theorem Adds.trans (h : Adds σ τ) (h' : Adds τ σ') : Adds σ σ' :=
  ⟨h.grows.trans h'.grows, h'.layouts.trans h.layouts⟩

theorem Taken.adds {blocks : List (BlockHead × List Stat)} (h : Taken σ σ' blocks) : Adds σ σ' :=
  ⟨h.grows, h.layouts⟩

theorem body_scoped (hf : fields.length ≤ maxSlots) {scope : ScopeId × List String} {b b' : Body}
    (around : Around σ.tree [scope]) (h : body fields selector scope b σ = .ok b' σ') :
    Adds σ σ' ∧ ∀ tree, σ'.tree.Grows tree → BodyScoped tree fields.length scope.1 b'.stats := by
  obtain ⟨stats', hstats, rfl⟩ := body_eq_ok h
  have around' : Around ({ σ with nextBlock := 0 } : Resolver).tree [scope] := around
  obtain ⟨_, rfl, taken, each⟩ := stats_scoped hf around' b.stats [] hstats
  refine ⟨⟨taken.grows, taken.layouts⟩, fun tree grows => each _ ⟨grows, rfl, fun p hp => ?_⟩⟩
  exact getElem?_of_numbered taken.numbered hp

theorem method_scoped (hf : fields.length ≤ maxSlots) {className : String} {classScope : ScopeId}
    {seen : Std.HashMap String Unit} {m m' : Method}
    (h : method className classScope fields seen m σ = .ok m' σ') :
    Adds σ σ' ∧ ∀ tree, σ'.tree.Grows tree → MethodScoped tree fields.length m' := by
  cases method_resolves h with
  | primitive kind opens =>
    obtain ⟨taken, -, s, here, -, vars, nargs, hvars⟩ := openCode_eq_ok opens
    refine ⟨taken.adds, fun tree grows => ⟨⟨_, s, rfl, grows _ _ here, ?_⟩, ?_⟩⟩
    · rw [nargs, vars, hvars, List.length_append]
      exact Nat.le_add_right _ _
    · rintro _ _ ⟨⟩ ⟨⟩
  | code kind opens resolves =>
    obtain ⟨taken, room, s, here, -, vars, nargs, hvars⟩ := openCode_eq_ok opens
    obtain ⟨adds, each⟩ := body_scoped hf
      ⟨List.forall_mem_singleton.2 ⟨room, s, here, vars⟩, List.cons_ne_nil _ _⟩ resolves
    refine ⟨taken.adds.trans adds, fun tree grows =>
      ⟨⟨_, s, rfl, grows _ _ (adds.grows _ _ here), ?_⟩, ?_⟩⟩
    · rw [nargs, vars, hvars, List.length_append]
      exact Nat.le_add_right _ _
    · rintro _ _ ⟨⟩ ⟨⟩
      exact each tree grows

theorem methods_scoped (hf : fields.length ≤ maxSlots) {className : String} {classScope : ScopeId}
    {ms done ms' : List Method} {seen : Std.HashMap String Unit}
    (h : methods className classScope fields ms seen done σ = .ok ms' σ') :
    Adds σ σ' ∧ ∃ new, ms' = done.reverse ++ new
      ∧ ∀ tree, σ'.tree.Grows tree → ∀ m ∈ new, MethodScoped tree fields.length m := by
  induction ms generalizing σ seen done with
  | nil =>
    cases h
    exact ⟨⟨.refl _, rfl⟩, [], (List.append_nil _).symm, fun _ _ => List.forall_mem_nil _⟩
  | cons m rest ih =>
    obtain ⟨m', τ, hm, hrest⟩ := EStateM.bind_eq_ok.1 h
    obtain ⟨adds, first⟩ := method_scoped hf hm
    obtain ⟨adds', new, rfl, later⟩ := ih hrest
    refine ⟨adds.trans adds', m' :: new, by simp, fun tree grows => ?_⟩
    exact List.forall_mem_cons.2 ⟨first tree (adds'.grows.trans grows), later tree grows⟩

theorem addFields_eq_ok {className : String} {own all result : List String}
    (h : addFields className own all = .ok result) : result = all.reverse ++ own := by
  induction own generalizing all with
  | nil =>
    cases h
    simp
  | cons f rest ih =>
    rw [addFields] at h
    split at h
    · cases h
    · rw [ih h]
      simp

theorem inheritedFields_eq_ok {layouts : Layouts} {c : ClassDef} {inherited : List String}
    (h : inheritedFields layouts c = .ok inherited) :
    (superclassOf c = none → inherited = [])
      ∧ ∀ above, superclassOf c = some above → layouts[above]? = some inherited := by
  unfold inheritedFields at h
  cases hc : superclassOf c with
  | none =>
    rw [hc] at h
    cases h
    exact ⟨fun _ => rfl, nofun⟩
  | some name =>
    rw [hc] at h
    dsimp only at h
    split at h
    · rename_i found
      cases h
      refine ⟨nofun, fun above habove => ?_⟩
      cases habove
      exact found
    · cases h

/-- How a class is resolved: under a new name, and with the fields it inherits before its own. -/
theorem cls_eq_ok {c c' : ClassDef} (h : cls c σ = .ok c' σ') :
    σ.layouts[c.name]? = none ∧ ∃ inherited scope ms τ τ',
      inheritedFields σ.layouts c = .ok inherited ∧ (inherited ++ c.fields).length ≤ maxSlots
      ∧ methods c.name scope (inherited ++ c.fields) c.methods {} [] τ = .ok ms τ'
      ∧ σ.tree.Grows τ.tree ∧ τ.layouts = σ.layouts
      ∧ c' = { c with superclass := superclassOf c, methods := ms }
      ∧ σ'.tree = τ'.tree ∧ σ'.layouts = τ'.layouts.insert c.name (inherited ++ c.fields) := by
  obtain ⟨_, _, ⟨⟩, hcls⟩ := EStateM.bind_eq_ok.1 h
  split at hcls
  · obtain ⟨_, _, ⟨⟩, _⟩ := EStateM.bind_eq_ok.1 hcls
  · rename_i fresh
    obtain ⟨inherited, _, hinherited, hfields⟩ := EStateM.bind_eq_ok.1 hcls
    obtain ⟨hinherited, rfl⟩ := check_eq_ok.1 hinherited
    obtain ⟨fields, _, hadd, hscope⟩ := EStateM.bind_eq_ok.1 hfields
    obtain ⟨added, rfl⟩ := check_eq_ok.1 hadd
    obtain rfl : fields = inherited ++ c.fields := by
      rw [addFields_eq_ok added, List.reverse_reverse]
    split at hscope
    · obtain ⟨_, _, ⟨⟩, _⟩ := EStateM.bind_eq_ok.1 hscope
    · rename_i room
      obtain ⟨scope, _, ⟨⟩, hmethods⟩ := EStateM.bind_eq_ok.1 hscope
      obtain ⟨ms, τ', hall, hlast⟩ := EStateM.bind_eq_ok.1 hmethods
      obtain ⟨_, _, ⟨⟩, ⟨⟩⟩ := EStateM.bind_eq_ok.1 hlast
      refine ⟨?_, inherited, _, ms, _, τ', hinherited, Nat.not_lt.1 room, hall,
        (get?_add _ _).1, rfl, rfl, rfl, rfl⟩
      exact Std.HashMap.getElem?_eq_none fresh

/-- **Resolving a class** leaves a scoped one, with its fields known. -/
theorem cls_scoped {c c' : ClassDef} (h : cls c σ = .ok c' σ') :
    σ.tree.Grows σ'.tree ∧ ∃ fields, σ'.layouts = σ.layouts.insert c'.name fields
      ∧ fields.length ≤ maxSlots
      ∧ ∀ tree, σ'.tree.Grows tree → ClassScoped tree σ.layouts c' fields := by
  obtain ⟨-, inherited, _, ms, τ, τ', hinherited, room, hall, grows, same, rfl, htree, hlayouts⟩ :=
    cls_eq_ok h
  obtain ⟨root, inherits⟩ := inheritedFields_eq_ok hinherited
  obtain ⟨adds, _, rfl, each⟩ := methods_scoped room hall
  rw [htree, hlayouts, adds.layouts, same]
  refine ⟨grows.trans adds.grows, _, rfl, room, fun tree grows => ⟨?_, ?_, each tree grows⟩⟩
  · intro hroot
    rw [root hroot, List.nil_append]
  · intro above habove
    exact ⟨inherited, inherits above habove, rfl⟩

theorem classes_scoped {cs done cs' : List ClassDef} (h : classes cs done σ = .ok cs' σ') :
    σ.tree.Grows σ'.tree
      ∧ (∀ (name : String) (fs : List String), σ'.layouts[name]? = some fs →
        σ.layouts[name]? = some fs ∨ fs.length ≤ maxSlots)
      ∧ ∃ new, cs' = done.reverse ++ new
        ∧ ∀ tree, σ'.tree.Grows tree → ClassesScoped tree σ.layouts new σ'.layouts := by
  induction cs generalizing σ done with
  | nil =>
    cases h
    exact ⟨.refl _, fun _ _ => .inl, [], (List.append_nil _).symm, fun _ _ => .nil _⟩
  | cons c rest ih =>
    obtain ⟨c', τ, hc, hrest⟩ := EStateM.bind_eq_ok.1 h
    obtain ⟨grows, fields, layouts, room, first⟩ := cls_scoped hc
    obtain ⟨grows', short, new, rfl, later⟩ := ih hrest
    refine ⟨grows.trans grows', fun name fs hfs => ?_, c' :: new, by simp, fun tree ht => ?_⟩
    · rcases short name fs hfs with hfs | hfs
      · rw [layouts, Std.HashMap.getElem?_insert] at hfs
        split at hfs
        · cases hfs
          exact .inr room
        · exact .inl hfs
      · exact .inr hfs
    exact .cons (first tree (grows'.trans ht)) (layouts ▸ later tree ht)

/-- The main body does not see too many fields. -/
theorem room_of_classes {cs cs' : List ClassDef} (h : classes cs [] {} = .ok cs' σ) :
    (σ.layouts.getD rootClass []).length ≤ maxSlots := by
  obtain ⟨-, short, -⟩ := classes_scoped h
  rw [Std.HashMap.getD_eq_getD_getElem?]
  cases hroot : σ.layouts[rootClass]? with
  | none => exact Nat.zero_le _
  | some fs =>
    refine (short _ _ hroot).resolve_left fun h => ?_
    simp at h

theorem mainBody_scoped {m m' : MainBody} (h : mainBody m σ = .ok m' σ')
    (hf : (σ.layouts.getD rootClass []).length ≤ maxSlots) :
    σ.tree.Grows σ'.tree ∧ MainScoped σ'.tree (σ.layouts.getD rootClass []).length m' := by
  obtain ⟨_, _, _, _, _, -, ⟨⟩, opens, resolves, rfl⟩ := mainBody_eq_ok h
  obtain ⟨taken, room, s, here, -, vars, nargs, -⟩ := openCode_eq_ok opens
  obtain ⟨adds, each⟩ := body_scoped hf
    ⟨List.forall_mem_singleton.2 ⟨room, s, here, vars⟩, List.cons_ne_nil _ _⟩ resolves
  refine ⟨((get?_add _ _).1.trans taken.grows).trans adds.grows,
    ⟨_, s, rfl, adds.grows _ _ here, nargs⟩, ?_⟩
  rintro _ ⟨⟩
  exact each _ (.refl _)

end Resolve

theorem resolve_eq_ok {p : Program} {log : Log} {r : Resolution}
    (h : resolve p = (log, .ok r)) :
    ∃ p' σ, Resolve.program p {} = .ok p' σ ∧ r = ⟨p', σ.tree⟩ := by
  unfold resolve at h
  split at h
  · rename_i p' σ resolves
    cases h
    exact ⟨p', σ, resolves, rfl⟩
  · cases h

/-- **Resolution answers scoped programs.** -/
theorem resolve_scoped {p : Program} {log : Log} {r : Resolution}
    (h : resolve p = (log, .ok r)) :
    ∃ layouts, ClassesScoped r.tree {} r.program.classes layouts
      ∧ ∀ m, r.program.main = some m → MainScoped r.tree (layouts.getD rootClass []).length m := by
  obtain ⟨p', σ, hp, rfl⟩ := resolve_eq_ok h
  cases Resolve.program_resolves hp with
  | bare _ classes =>
    obtain ⟨-, -, _, rfl, each⟩ := Resolve.classes_scoped classes
    refine ⟨_, each _ (.refl _), ?_⟩
    rintro _ ⟨⟩
  | main _ classes resolves =>
    obtain ⟨-, -, _, rfl, each⟩ := Resolve.classes_scoped classes
    obtain ⟨grows, main⟩ := Resolve.mainBody_scoped resolves (Resolve.room_of_classes classes)
    refine ⟨_, each _ grows, ?_⟩
    rintro _ ⟨⟩
    exact main

end Colloquy
