import Colloquy.Proofs.Compile.Demands

/-!
# Which programs code can be generated for

A step of code generation on a resolved tree never stops because an annotation is missing, a
variable is out of reach or a block is numbered wrongly: the numbers that resolution gives follow
one another, and scopes are numbered behind those around them (`Resolve.Climbs`).  So whether code
is generated for a resolved program can be read off its text.

Main statement: `generates_iff_generable`.
-/

namespace Colloquy

/-! ## Scopes around a place -/

/-- **A scope around a place can be reached** by hops that fit in a short. -/
theorem ScopeTree.climb_of_linked {tree : ScopeTree} {source target : ScopeId} {rest : List ScopeId}
    {depth : Nat} (linked : tree.Linked (source :: rest)) (down : (source :: rest).Pairwise (· > ·))
    (around : target ∈ source :: rest) (short : depth + rest.length ≤ 65535) :
    ∃ hops, tree.climb target source depth = some hops := by
  induction rest generalizing source depth with
  | nil =>
    obtain rfl := List.mem_singleton.1 around
    exact ⟨depth, Direct.climb_self tree target depth⟩
  | cons above rest ih =>
    by_cases here : source = target
    · subst here
      exact ⟨depth, Direct.climb_self tree source depth⟩
    · obtain ⟨lower, down⟩ := List.pairwise_cons.1 down
      rw [List.length_cons] at short
      rw [Direct.climb_up here linked.rel (lower above List.mem_cons_self) (by omega)]
      refine ih linked.tail down ?_ (by omega)
      exact (List.mem_cons.1 around).resolve_left (Ne.symm here)

namespace Resolve

variable {σ σ' : Resolver} {chain inner : ScopeChain} {fields : List String} {selector : String}
  {tree : ScopeTree} {scope : ScopeId} {options : CompilerOptions}

/-- The scopes around a place are numbered behind one another, and are no more than the block
literals so far. -/
structure Climbs (σ : Resolver) (chain : ScopeChain) : Prop where
  nests : σ.tree.Nests chain
  down : (chain.map Prod.fst).Pairwise (· > ·)
  deep : chain.length ≤ σ.nextBlock + 1
  few : σ.nextBlock ≤ maxSlots

theorem Climbs.after {α : Type} {x : Resolve α} {a : α} {n : Nat} {ok : Prop} (h : Climbs σ chain)
    (needs : Needs x n ok) (run : x σ = .ok a σ') (grows : σ.tree.Grows σ'.tree) :
    Climbs σ' chain := by
  have next := needs.next σ a σ' run
  have few := ((needs.succeeds σ h.few).1 ⟨a, σ', run⟩).2
  have deep := h.deep
  exact ⟨h.nests.mono grows, h.down, by omega, by omega⟩

/-- The scope of a block literal is numbered behind all scopes so far. -/
theorem openBlock_behind {head head' : BlockHead}
    (run : openBlock selector chain head σ = .ok (head', inner) σ') {b : ScopeId}
    (opened : head'.scope = some b) : σ.tree.scopes.size ≤ b := by
  obtain ⟨index, τ, hindex, run⟩ := EStateM.bind_eq_ok.1 run
  obtain ⟨-, rfl⟩ := takeBlockIndex_eq_ok hindex
  obtain ⟨scope, _, hopen, ⟨⟩⟩ := EStateM.bind_eq_ok.1 run
  cases opened
  have fresh := openCode_fresh hopen
  exact Array.getElem?_eq_none_iff.1 fresh

/-- Inside a block literal there is one scope more around. -/
theorem Climbs.openBlock {head head' : BlockHead} (h : Climbs σ chain)
    (run : openBlock selector chain head σ = .ok (head', inner) σ') : Climbs σ' inner := by
  obtain ⟨grows, nests, b, opened, rfl⟩ := openBlock_nests h.nests run
  have after := h.after needs_openBlock run grows
  have next := needs_openBlock.next σ _ σ' run
  refine ⟨nests, List.pairwise_cons.2 ⟨fun id hid => ?_, h.down⟩, ?_, after.few⟩
  · obtain ⟨entry, hentry, rfl⟩ := List.mem_map.1 hid
    obtain ⟨-, s, here, -⟩ := h.nests.around.inTree entry hentry
    exact Nat.lt_of_lt_of_le (Array.getElem?_eq_some_iff.1 here).1 (openBlock_behind run opened)
  · have := h.deep
    rw [List.length_cons, next]
    omega

theorem Climbs.reach {owner : ScopeId} {vars : List String} {k : Nat} (h : Climbs σ chain)
    (grows : σ.tree.Grows tree) (innermost : chain.head?.map Prod.fst = some scope)
    (entry : chain[k]? = some (owner, vars)) :
    ∃ depth, tree.relativeDepth scope owner = some depth := by
  obtain ⟨first, rest, rfl⟩ := List.exists_cons_of_ne_nil h.nests.around.inside
  cases innermost
  refine ScopeTree.climb_of_linked (h.nests.mono grows).linked h.down ?_ ?_
  · exact List.mem_map.2 ⟨_, List.mem_of_getElem? entry, rfl⟩
  · have deep := h.deep
    have few : σ.nextBlock ≤ 65535 := h.few
    rw [List.length_cons] at deep
    rw [List.length_map]
    omega

theorem Climbs.known (h : Climbs σ chain) (grows : σ.tree.Grows tree)
    (innermost : chain.head?.map Prod.fst = some scope) : ∃ s, tree.get? scope = some s := by
  obtain ⟨first, rest, rfl⟩ := List.exists_cons_of_ne_nil h.nests.around.inside
  cases innermost
  obtain ⟨-, s, here, -⟩ := h.nests.around.inTree first List.mem_cons_self
  exact ⟨s, grows _ _ here⟩

/-! ## Resolved trees -/

theorem standsFor_global_iff {symbol : Symbol} {a : Address}
    (h : symbol.StandsFor fields chain a) : a = .global ↔ symbol = .global := by
  cases symbol <;> cases a <;> simp_all [Symbol.StandsFor]

/-- What a name is resolved to can be reached. -/
theorem Climbs.reach_slot {owner : ScopeId} {i : UInt16} {name : String} (climbs : Climbs σ chain)
    (grows : σ.tree.Grows tree) (innermost : chain.head?.map Prod.fst = some scope)
    (symbol : resolveName fields name chain = .slot owner i) :
    ∃ depth, tree.relativeDepth scope owner = some depth := by
  have found := resolveName_standsFor fields name chain
  rw [symbol] at found
  generalize Names.find ⟨chain.map Prod.snd, fields⟩ name = a at found
  cases a with
  | slot hops index =>
    obtain ⟨vars, entry, -⟩ := found
    exact climbs.reach grows innermost entry
  | field index | global => exact found.elim

/-- **A name can be read**, be it a variable, a field or a global. -/
theorem covers_load {n : Nat} (climbs : Climbs σ chain) (grows : σ.tree.Grows tree)
    (innermost : chain.head?.map Prod.fst = some scope) (name : Ident) :
    Emit.Covers options ⟨chain.map Prod.snd, fields⟩ n [.read name.name] []
      (Emit.load ⟨tree, options, scope⟩ (name.resolve fields chain)) := by
  have global := standsFor_global_iff (resolveName_standsFor fields name.name chain)
  refine Emit.covers_item ?_
  rw [Emit.load, Ident.resolve]
  dsimp only
  cases symbol : resolveName fields name.name chain with
  | field i =>
    refine (Emit.quiet_instruction _).runs.congr rfl ?_ Iff.rfl
    simp [stringsOf, Item.string?, global, symbol]
  | slot owner i =>
    obtain ⟨depth, reached⟩ := climbs.reach_slot grows innermost symbol
    have loaded := (Emit.quiet_depthTo (c := ⟨tree, options, scope⟩) reached
      (name.resolve fields chain)).bind fun d => Emit.quiet_instruction (.pushLocal d i)
    refine loaded.runs.congr rfl ?_ Iff.rfl
    simp [stringsOf, Item.string?, global, symbol]
  | global =>
    refine ((Emit.runs_literal name.name).before fun _ => Emit.quiet_instruction _).congr rfl ?_
      Iff.rfl
    simp [stringsOf, Item.string?, global, symbol]

/-- **A name can be assigned to** unless it is a global. -/
theorem covers_store {n : Nat} (climbs : Climbs σ chain) (grows : σ.tree.Grows tree)
    (innermost : chain.head?.map Prod.fst = some scope) (name : Ident) :
    Emit.Covers options ⟨chain.map Prod.snd, fields⟩ n [.assign name.name] []
      (Emit.store ⟨tree, options, scope⟩ (name.resolve fields chain)) := by
  have global := standsFor_global_iff (resolveName_standsFor fields name.name chain)
  refine Emit.covers_item ?_
  rw [Emit.store, Ident.resolve]
  dsimp only
  cases symbol : resolveName fields name.name chain with
  | field i =>
    refine (Emit.quiet_instruction _).runs.congr rfl rfl ?_
    simp [Item.Fits, global, symbol]
  | slot owner i =>
    obtain ⟨depth, reached⟩ := climbs.reach_slot grows innermost symbol
    have stored := (Emit.quiet_depthTo (c := ⟨tree, options, scope⟩) reached
      (name.resolve fields chain)).bind fun d => Emit.quiet_instruction (.storeLocal d i)
    refine stored.runs.congr rfl rfl ?_
    simp [Item.Fits, global, symbol]
  | global =>
    exact fun g _ _ => .inr ⟨_, g, rfl, rfl, fun fits => fits.1 (global.2 symbol)⟩

mutual

/-- **There is code for an expression** just if there is code for its items and its block
literals. -/
theorem expr_covers (room : fields.length ≤ maxSlots) {chain : ScopeChain} {scope : ScopeId}
    {σ σ' : Resolver} (climbs : Climbs σ chain) (innermost : chain.head?.map Prod.fst = some scope)
    (e : Expr) {e' : Expr} (h : expr fields selector chain e σ = .ok e' σ')
    (grows : σ'.tree.Grows tree) :
    Emit.Covers options ⟨chain.map Prod.snd, fields⟩ σ.nextBlock e.items
      (e.blockLiterals ⟨chain.map Prod.snd, fields⟩) (Emit.expr ⟨tree, options, scope⟩ e') := by
  cases e with
  | literal value =>
    cases h
    exact Emit.covers_constant value
  | self =>
    cases h
    exact (Emit.quiet_instruction _).covers
  | ident name =>
    cases h
    exact covers_load climbs grows innermost name
  | array items =>
    obtain ⟨_, τ, hitems, ⟨⟩⟩ := EStateM.bind_eq_ok.1 h
    obtain ⟨_, rfl, count, each⟩ := exprs_covers room climbs innermost items [] hitems grows
    refine each.last fun _ => Emit.covers_item ?_
    rw [← count]
    exact (Emit.runs_short _ _).before fun _ => Emit.quiet_instruction _
  | block head body =>
    obtain ⟨⟨head', inner⟩, τ, hopen, hbody⟩ := EStateM.bind_eq_ok.1 h
    obtain ⟨body', τ', hstats, ⟨⟩⟩ := EStateM.bind_eq_ok.1 hbody
    obtain ⟨-, nests', b, opened, rfl⟩ := openBlock_nests climbs.nests hopen
    obtain ⟨number, next, opens⟩ := openBlock_numbers hopen
    obtain ⟨s, here, -⟩ := opens b opened
    obtain ⟨_, -, taken, -⟩ := stats_scoped room nests'.around body [] hstats
    have known := grows _ _ (taken.grows _ _ here)
    obtain ⟨_, rfl, inside, -⟩ :=
      stats_covers room (climbs.openBlock hopen) rfl body [] hstats grows
    rw [next] at inside
    have ending : Emit.Quiet (do
        if body'.isEmpty then Emit.instruction .pushNil
        Emit.mark ⟨tree, options, b⟩ head'.stop.before
        Emit.instruction .blockReturn : Emit Unit) :=
      Emit.quiet_ifEmpty ((Emit.quiet_mark _).bind fun _ => Emit.quiet_instruction _)
    have entered (code : Array Instruction) (pool : LiteralPool) : Emit.Enters σ.nextBlock (do
        let compiled ← Emit.finish tree b code pool
        Emit.report .debug ("compiled " ++ compiled.qualified)
        Emit.enter head'.index compiled
        Emit.instruction (.block head'.index) : Emit Unit) :=
      .after (Emit.quiet_finish known code pool) fun _ => .after (Emit.quiet_report _ _) fun _ =>
        (number ▸ Emit.enters_enter head'.index _).before fun _ => Emit.quiet_instruction _
    have built := Emit.runs_inBlock (c := ⟨tree, options, scope⟩) (inside.before fun _ => ending)
    rw [Emit.expr, opened]
    refine (built.enter fun made => entered made.1 made.2).congr rfl rfl ?_
    constructor
    · rintro ⟨⟨items, blocks⟩, strings⟩
      exact ⟨List.forall_mem_nil _, List.forall_mem_cons.2 ⟨⟨items, strings⟩, blocks⟩⟩
    · rintro ⟨-, fits⟩
      obtain ⟨own, blocks⟩ := List.forall_mem_cons.1 fits
      exact ⟨⟨own.items, blocks⟩, own.strings⟩
  | send receiver message args position =>
    obtain ⟨receiver', τ, hreceiver, hrest⟩ := EStateM.bind_eq_ok.1 h
    obtain ⟨_, τ', hargs, ⟨⟩⟩ := EStateM.bind_eq_ok.1 hrest
    have taken := (expr_scoped room climbs.nests.around receiver hreceiver).1
    have climbs' := climbs.after (expr_needs chain receiver) hreceiver taken.grows
    have next := (expr_needs chain receiver).next σ _ τ hreceiver
    obtain ⟨_, -, taken', -⟩ := exprs_scoped room climbs'.nests.around args [] hargs
    obtain ⟨_, rfl, count, each⟩ := exprs_covers room climbs' innermost args [] hargs grows
    have first := expr_covers room climbs innermost receiver hreceiver (taken'.grows.trans grows)
    rw [next, ← Expr.length_blockLiterals ⟨chain.map Prod.snd, fields⟩] at each
    refine first.bind fun _ => each.last fun _ => ?_
    rw [← count]
    exact Emit.covers_send message _ position .send
  | superSend message args position =>
    obtain ⟨_, τ, hargs, ⟨⟩⟩ := EStateM.bind_eq_ok.1 h
    obtain ⟨_, rfl, count, each⟩ := exprs_covers room climbs innermost args [] hargs grows
    refine Emit.Covers.then (Emit.quiet_instruction _) fun _ => each.last fun _ => ?_
    rw [← count]
    exact Emit.covers_send message _ position .sendSuper
termination_by structural e

theorem exprs_covers (room : fields.length ≤ maxSlots) {chain : ScopeChain} {scope : ScopeId}
    {σ σ' : Resolver} (climbs : Climbs σ chain) (innermost : chain.head?.map Prod.fst = some scope)
    (es done : List Expr) {es' : List Expr} (h : exprs fields selector chain es done σ = .ok es' σ')
    (grows : σ'.tree.Grows tree) :
    ∃ new, es' = done.reverse ++ new ∧ new.length = es.length
      ∧ Emit.Covers options ⟨chain.map Prod.snd, fields⟩ σ.nextBlock (Expr.itemsAll es)
        (Expr.blockLiteralsAll ⟨chain.map Prod.snd, fields⟩ es)
        (Emit.exprs ⟨tree, options, scope⟩ new) := by
  cases es with
  | nil =>
    cases h
    exact ⟨[], (List.append_nil _).symm, rfl, (Emit.quiet_pure ()).covers⟩
  | cons e rest =>
    obtain ⟨e', τ, he, hrest⟩ := EStateM.bind_eq_ok.1 h
    have taken := (expr_scoped room climbs.nests.around e he).1
    have climbs' := climbs.after (expr_needs chain e) he taken.grows
    have next := (expr_needs chain e).next σ _ τ he
    obtain ⟨_, -, taken', -⟩ := exprs_scoped room climbs'.nests.around rest (e' :: done) hrest
    obtain ⟨new, rfl, count, later⟩ :=
      exprs_covers room climbs' innermost rest (e' :: done) hrest grows
    refine ⟨e' :: new, by simp, by simp [count], ?_⟩
    rw [next, ← Expr.length_blockLiterals ⟨chain.map Prod.snd, fields⟩] at later
    exact (expr_covers room climbs innermost e he (taken'.grows.trans grows)).bind fun _ => later
termination_by structural es

theorem stat_covers (room : fields.length ≤ maxSlots) {chain : ScopeChain} {scope : ScopeId}
    {σ σ' : Resolver} (climbs : Climbs σ chain) (innermost : chain.head?.map Prod.fst = some scope)
    (s : Stat) {s' : Stat} (h : stat fields selector chain s σ = .ok s' σ')
    (grows : σ'.tree.Grows tree) :
    Emit.Covers options ⟨chain.map Prod.snd, fields⟩ σ.nextBlock s.items
      (s.blockLiterals ⟨chain.map Prod.snd, fields⟩) (Emit.stat ⟨tree, options, scope⟩ s') := by
  cases s with
  | expr value =>
    obtain ⟨_, τ, hvalue, ⟨⟩⟩ := EStateM.bind_eq_ok.1 h
    exact expr_covers room climbs innermost value hvalue grows
  | assign target value position =>
    obtain ⟨_, τ, hvalue, ⟨⟩⟩ := EStateM.bind_eq_ok.1 h
    have taken := (expr_scoped room climbs.nests.around value hvalue).1
    refine Emit.Covers.then (Emit.quiet_mark _) fun _ => ?_
    exact (expr_covers room climbs innermost value hvalue grows).last fun _ =>
      covers_store climbs (taken.grows.trans grows) innermost target
  | ret value position =>
    obtain ⟨_, τ, hvalue, ⟨⟩⟩ := EStateM.bind_eq_ok.1 h
    exact (expr_covers room climbs innermost value hvalue grows).before fun _ =>
      (Emit.quiet_mark _).bind fun _ => Emit.quiet_instruction _
termination_by structural s

theorem stats_covers (room : fields.length ≤ maxSlots) {chain : ScopeChain} {scope : ScopeId}
    {σ σ' : Resolver} (climbs : Climbs σ chain) (innermost : chain.head?.map Prod.fst = some scope)
    (ss done : List Stat) {ss' : List Stat} (h : stats fields selector chain ss done σ = .ok ss' σ')
    (grows : σ'.tree.Grows tree) :
    ∃ new, ss' = done.reverse ++ new
      ∧ Emit.Covers options ⟨chain.map Prod.snd, fields⟩ σ.nextBlock (Stat.itemsAll ss)
        (Stat.blockLiteralsAll ⟨chain.map Prod.snd, fields⟩ ss)
        (Emit.stats ⟨tree, options, scope⟩ new)
      ∧ ∀ previous, Emit.Covers options ⟨chain.map Prod.snd, fields⟩ σ.nextBlock (Stat.itemsAll ss)
        (Stat.blockLiteralsAll ⟨chain.map Prod.snd, fields⟩ ss)
        (Emit.statsAfter ⟨tree, options, scope⟩ previous new) := by
  cases ss with
  | nil =>
    cases h
    have nothing := Emit.quiet_pure ()
    exact ⟨[], (List.append_nil _).symm, nothing.covers, fun _ => nothing.covers⟩
  | cons s rest =>
    obtain ⟨s', τ, hs, hrest⟩ := EStateM.bind_eq_ok.1 h
    have taken := (stat_scoped room climbs.nests.around s hs).1
    have climbs' := climbs.after (stat_needs chain s) hs taken.grows
    have next := (stat_needs chain s).next σ _ τ hs
    obtain ⟨_, -, taken', -⟩ := stats_scoped room climbs'.nests.around rest (s' :: done) hrest
    obtain ⟨new, rfl, -, later⟩ :=
      stats_covers room climbs' innermost rest (s' :: done) hrest grows
    rw [next, ← Stat.length_blockLiterals ⟨chain.map Prod.snd, fields⟩] at later
    have both := (stat_covers room climbs innermost s hs (taken'.grows.trans grows)).bind
      fun _ => later (Emit.returnPosition s')
    obtain ⟨known, here⟩ := climbs.known (taken.grows.trans (taken'.grows.trans grows)) innermost
    refine ⟨s' :: new, by simp, both, fun previous => ?_⟩
    exact .then (Emit.quiet_instruction _) fun _ =>
      .then (Emit.quiet_warnAfter here _) fun _ => both
termination_by structural ss

end

end Resolve

/-! ## Methods, classes and programs -/

namespace Emit

variable {α β γ : Type} {excuse excuse' : CompileError → Prop} {options : CompilerOptions}
  {tree : ScopeTree} {c : EmitContext} {g : Generator} {ok ok' : Prop} {k : Nat} {S : Finset String}

/-- The step comes to a result just if `ok`; if it stops, it is with an error of the given kind. -/
def Decides (excuse : CompileError → Prop) (ok : Prop) (x : Emit α) : Prop :=
  ∀ g, g.pool.Valid → (∃ a g', x g = .ok a g' ∧ ok ∧ g'.pool.Valid)
    ∨ ∃ e g', x g = .error e g' ∧ excuse e ∧ ¬ ok

theorem Decides.imp {x : Emit α} (h : Decides excuse ok x) (weaker : ∀ e, excuse e → excuse' e)
    (same : ok ↔ ok') : Decides excuse' ok' x := by
  rw [← propext same]
  exact fun g valid => (h g valid).imp_right fun ⟨e, g', stop, excused, fails⟩ =>
    ⟨e, g', stop, weaker e excused, fails⟩

theorem Decides.bind {x : Emit α} {f : α → Emit β} (first : Decides excuse ok x)
    (later : ∀ a, Decides excuse ok' (f a)) : Decides excuse (ok ∧ ok') (x >>= f) := by
  intro g valid
  rcases first g valid with ⟨a, t, run, holds, valid'⟩ | ⟨e, t, stop, excused, fails⟩
  · rw [EStateM.bind_of_ok run]
    rcases later a t valid' with ⟨b, g', run', holds', valid''⟩ | ⟨e, g', stop, excused, fails⟩
    · exact .inl ⟨b, g', run', ⟨holds, holds'⟩, valid''⟩
    · exact .inr ⟨e, g', stop, excused, fun h => fails h.2⟩
  · exact .inr ⟨e, t, EStateM.bind_of_error stop, excused, fun h => fails h.1⟩

theorem Quiet.decides {x : Emit α} (h : Quiet x) : Decides excuse True x := by
  intro g valid
  obtain ⟨a, g', run, pool, -⟩ := h g
  exact .inl ⟨a, g', run, trivial, pool ▸ valid⟩

theorem Decides.then {x : Emit α} {f : α → Emit β} (first : Quiet x)
    (later : ∀ a, Decides excuse ok (f a)) : Decides excuse ok (x >>= f) :=
  (first.decides.bind later).imp (fun _ h => h) (and_iff_right trivial)

theorem Decides.before {x : Emit α} {f : α → Emit β} (first : Decides excuse ok x)
    (later : ∀ a, Quiet (f a)) : Decides excuse ok (x >>= f) :=
  (first.bind fun a => (later a).decides).imp (fun _ h => h) (and_iff_left trivial)

/-- What is decided one by one is decided in a row. -/
theorem decides_mapM {holds : α → Prop} {f : β → Emit γ} {as : List α} {bs : List β}
    (each : List.Forall₂ (fun a b => Decides excuse (holds a) (f b)) as bs) :
    Decides excuse (∀ a ∈ as, holds a) (bs.mapM f) := by
  induction each with
  | nil =>
    exact (quiet_pure _).decides.imp (fun _ h => h)
      (iff_of_true trivial (List.forall_mem_nil _))
  | cons first _ ih =>
    rw [List.mapM_cons]
    refine (first.bind fun _ => ih.before fun _ => quiet_pure _).imp (fun _ h => h) ?_
    exact List.forall_mem_cons.symm

theorem tableBlocks_of_filled {qualified : String} {table : List (Option Block)} {i : Nat}
    {done : List Block} (full : ∀ entry ∈ table, entry.isSome) :
    ∃ blocks, tableBlocks qualified table i done = .ok blocks := by
  induction table generalizing i done with
  | nil => exact ⟨done.reverse, rfl⟩
  | cons entry rest ih =>
    obtain ⟨here, others⟩ := List.forall_mem_cons.1 full
    obtain ⟨b, rfl⟩ := Option.isSome_iff_exists.1 here
    exact ih others

/-- **A table without gaps can be taken.** -/
theorem takeBlocks_of_filled {id : ScopeId} {s : Scope} (known : tree.get? id = some s)
    (full : ∀ i, i < g.table.size → Filled g i) :
    ∃ bs g', takeBlocks tree id g = .ok bs g' ∧ g'.pool = g.pool := by
  obtain ⟨name, t, named, pool, table⟩ := quiet_qualifiedName known g
  have entries : ∀ entry ∈ t.table.toList, entry.isSome := by
    intro entry hentry
    obtain ⟨i, hi, rfl⟩ := Array.getElem_of_mem (Array.mem_def.2 hentry)
    obtain ⟨b, filled⟩ := full i (table ▸ hi)
    rw [← table, Array.getElem?_eq_getElem hi] at filled
    rw [Option.some.inj filled]
    rfl
  obtain ⟨bs, taken⟩ : ∃ bs, tableBlocks name t.table.toList 0 [] = .ok bs :=
    tableBlocks_of_filled entries
  refine ⟨bs, { t with table := #[] }, ?_, pool⟩
  rw [takeBlocks, EStateM.bind_of_ok named]
  exact EStateM.bind_eq_ok.2 ⟨t.table, { t with table := #[] }, rfl, check_eq_ok.2 ⟨taken, rfl⟩⟩

/-- **A body with its table**: all numbers from zero on are used, so nothing is missing. -/
theorem decides_withTable {build : Emit Unit} {s : Scope} (known : c.tree.get? c.scope = some s)
    (builds : Runs 0 k S ok build) :
    Decides (·.internal = false) (ok ∧ (c.options.strings ∪ S).card ≤ 65536)
      (withTable c build) := by
  intro g valid
  have cleared : (modify fun g => { g with table := #[] } : Emit Unit) g
      = .ok () { g with table := #[] } := rfl
  rw [withTable, EStateM.bind_of_ok cleared]
  rcases runs_inBlock (c := c) builds { g with table := #[] } valid (Nat.zero_le _) with
    ⟨⟨code, literals⟩, t, run, holds, ran⟩ | ⟨e, t, stop, blamed, fails⟩
  · rw [EStateM.bind_of_ok run]
    have full : ∀ i, i < t.table.size → Filled t i := fun i hi =>
      (ran.filled i).2 (.inr ⟨Nat.zero_le i, Nat.lt_of_lt_of_le hi ran.size⟩)
    obtain ⟨bs, t', taken, pool⟩ := takeBlocks_of_filled known full
    obtain ⟨b, t'', finished, pool', -⟩ := quiet_finish known code literals t'
    refine .inl ⟨{ b with blocks := bs.toArray }, t'', ?_, holds, ?_⟩
    · refine EStateM.bind_eq_ok.2 ⟨bs, t', taken, EStateM.bind_eq_ok.2 ⟨b, t'', finished, rfl⟩⟩
    · rw [pool', pool]
      exact ran.valid
  · rw [EStateM.bind_of_error stop]
    refine .inr ⟨e, t, rfl, blamed, fun h => fails ⟨h, ?_⟩⟩
    rw [Finset.union_empty, valid.card_strings]
    exact valid.short

/-- **A primitive** is compiled if its tag is known and it has as many arguments. -/
theorem decides_primitiveMethod {m : Method} {scope : ScopeId} {s : Scope} {tag : String}
    (known : tree.get? scope = some s) (kind : m.kind = .primitive tag) :
    Decides m.Excuses (∃ p, Primitive.ofTag? tag = some p ∧ p.arity = m.args.length)
      (primitiveMethod tree m scope tag) := by
  unfold primitiveMethod
  refine Decides.then (quiet_qualifiedName known) fun qualified => ?_
  cases tagged : Primitive.ofTag? tag with
  | none => exact fun g _ => .inr ⟨_, g, rfl, .inl rfl, by simp⟩
  | some p =>
    dsimp only
    by_cases arity : p.arity = m.args.length
    · rw [if_neg (not_not.2 arity)]
      exact (quiet_pure _).decides.imp (fun _ h => h) (iff_of_true trivial ⟨p, rfl, arity⟩)
    · rw [if_pos arity]
      refine fun g _ => .inr ⟨_, g, rfl, .inr ⟨_, rfl, tag, p, qualified, kind, tagged, arity, rfl⟩,
        ?_⟩
      rintro ⟨q, ⟨⟩, same⟩
      exact arity same

/-- What is decided of methods and main bodies is decided of a program. -/
theorem decides_program {p p' : Program} {holds : ClassDef → Method → Prop}
    {mainHolds : MainBody → Prop}
    (classes : List.Forall₂ (fun c c' => List.Forall₂
      (fun m m' => Decides excuse (holds c m) (method tree options m')) c.methods c'.methods)
      p.classes p'.classes)
    (main : List.Forall₂ (fun m m' => Decides excuse (mainHolds m) (mainBody tree options m'))
      p.main.toList p'.main.toList) :
    Decides excuse
      ((∀ c ∈ p.classes, ∀ m ∈ c.methods, holds c m) ∧ ∀ m ∈ p.main.toList, mainHolds m)
      (program tree options p') := by
  have all := decides_mapM (f := cls tree options)
    (classes.imp fun c c' each => (decides_mapM each).before fun _ => quiet_pure _)
  refine all.bind fun compiled => ?_
  cases hm : p'.main with
  | none =>
    rw [hm] at main
    rw [List.forall₂_nil_right_iff.1 main]
    exact (quiet_pure _).decides.imp (fun _ h => h) (iff_of_true trivial (List.forall_mem_nil _))
  | some m' =>
    rw [hm] at main
    obtain ⟨m, rest, first, others, same⟩ := List.forall₂_cons_right_iff.1 main
    cases others
    rw [same, List.forall_mem_singleton]
    exact (first.before fun _ => quiet_pure _).before fun _ => quiet_pure _

end Emit

namespace Resolve

variable {σ σ' : Resolver} {fields : List String} {selector : String} {tree : ScopeTree}
  {options : CompilerOptions}

/-- **There is code for a body** just if there is code for its statements and its block literals. -/
theorem body_decides {scope : ScopeId × List String} {b b' : Body} {last : Emit Unit}
    (room : fields.length ≤ maxSlots) (nests : σ.tree.Nests [scope])
    (h : body fields selector scope b σ = .ok b' σ') (grows : σ'.tree.Grows tree)
    (quiet : Emit.Quiet last) (ending : Ending) :
    Emit.Decides (·.internal = false)
      (BodyText.Generable options ⟨selector, ⟨[scope.2], fields⟩, b.stats, ending⟩)
      (Emit.withTable ⟨tree, options, scope.1⟩ do
        Emit.stats ⟨tree, options, scope.1⟩ b'.stats
        last) := by
  obtain ⟨_, _, ⟨⟩, hbody⟩ := EStateM.bind_eq_ok.1 h
  obtain ⟨_, _, hstats, ⟨⟩⟩ := EStateM.bind_eq_ok.1 hbody
  have climbs : Climbs { σ with nextBlock := 0 } [scope] :=
    ⟨nests, List.pairwise_singleton _ _, Nat.le_refl _, Nat.zero_le _⟩
  obtain ⟨_, rfl, covers, -⟩ := stats_covers room climbs rfl b.stats [] hstats grows
  obtain ⟨_, -, taken, -⟩ := stats_scoped room climbs.nests.around b.stats [] hstats
  obtain ⟨s, known⟩ := climbs.known (taken.grows.trans grows) rfl
  refine (Emit.decides_withTable known (covers.before fun _ => quiet)).imp (fun _ h => h) ?_
  constructor
  · rintro ⟨⟨items, blocks⟩, strings⟩
    exact ⟨⟨items, strings⟩, blocks⟩
  · intro generable
    exact ⟨⟨generable.own.items, generable.blocks⟩, generable.own.strings⟩

/-- **There is code for a method** just if its text or its tag is right. -/
theorem method_decides : MethodsShow tree fun fields m m' =>
    Emit.Decides m.Excuses (m.Generable options fields) (Emit.method tree options m') := by
  intro σ σ' fields className classScope seen m m' room h grows
  cases method_resolves h with
  | @primitive scope _ tag kind opens =>
    have made := Emit.decides_primitiveMethod (m := { m with scope := some scope.1 })
      (grows _ _ (openCode_scope opens)) kind
    refine (made.before fun _ => ?_).imp (fun _ h => h) ?_
    · exact (Emit.quiet_report _ _).bind fun _ => Emit.quiet_pure _
    · constructor
      · intro tagged
        refine ⟨fun t ht => ?_, fun tag' same => ?_⟩
        · rw [Method.text, kind] at ht
          cases ht
        · cases kind.symm.trans same
          exact tagged
      · intro generable
        exact generable.primitive tag kind
  | @code scope _ _ b b' kind opens resolves =>
    obtain ⟨nests, vars⟩ := openCode_nests opens
    have self : Emit.Quiet (do
        Emit.instruction .pushSelf
        Emit.instruction .ret : Emit Unit) :=
      (Emit.quiet_instruction _).bind fun _ => Emit.quiet_instruction _
    have ending : Emit.Quiet (do
        Emit.mark ⟨tree, options, scope.1⟩ b'.stop.before
        if !b'.stats.isEmpty then Emit.instruction .pop
        Emit.instruction .pushSelf
        Emit.instruction .ret : Emit Unit) := by
      refine (Emit.quiet_mark _).bind fun _ => ?_
      split
      · exact (Emit.quiet_instruction _).bind fun _ => self
      · exact self
    have made : Emit.Decides _ (BodyText.Generable options _) _ :=
      body_decides room nests resolves grows ending .method
    refine (made.before fun _ => ?_).imp (fun _ => .inl) ?_
    · exact (Emit.quiet_report _ _).bind fun _ => Emit.quiet_pure _
    · rw [vars]
      have text : m.text fields
          = some ⟨m.selector, ⟨[m.args ++ m.locals], fields⟩, b.stats, .method⟩ := by
        rw [Method.text, kind]
      constructor
      · intro generable
        refine ⟨fun t ht => ?_, fun tag same => ?_⟩
        · cases text.symm.trans ht
          exact generable
        · cases kind.symm.trans same
      · intro generable
        exact generable.body _ text

/-- **There is code for a main body** just if its text is right. -/
theorem mainBody_decides {m m' : MainBody} (room : (σ.layouts.getD rootClass []).length ≤ maxSlots)
    (h : mainBody m σ = .ok m' σ') (grows : σ'.tree.Grows tree) :
    Emit.Decides (·.internal = false)
      (∀ t ∈ m.text (σ.layouts.getD rootClass []), t.Generable options)
      (Emit.mainBody tree options m') := by
  obtain ⟨_, _, scope, _, b', -, -, opens, resolves, rfl⟩ := mainBody_eq_ok h
  obtain ⟨nests, vars⟩ := openCode_nests opens
  have ending : Emit.Quiet (do
      if b'.stats.isEmpty then Emit.instruction .pushSelf
      Emit.mark ⟨tree, options, scope.1⟩ b'.stop
      Emit.instruction .ret : Emit Unit) :=
    Emit.quiet_ifEmpty ((Emit.quiet_mark _).bind fun _ => Emit.quiet_instruction _)
  have made : Emit.Decides _ (BodyText.Generable options _) _ :=
    body_decides room nests resolves grows ending .main
  refine (made.before fun _ => (Emit.quiet_report _ _).bind fun _ => Emit.quiet_pure _).imp
    (fun _ h => h) ?_
  rw [vars, MainBody.text]
  simp

/-- **There is code for a program** just if there is code for all methods and the main body. -/
theorem program_decides {p p' : Program} (h : program p {} = .ok p' σ) :
    Emit.Decides (fun e => e.internal = false ∨ ∃ c ∈ p.classes, ∃ m ∈ c.methods, m.Excuses e)
      (p.Generable options) (Emit.program σ.tree options p') := by
  obtain ⟨classes, main⟩ := program_show
    (R := fun fields m m' =>
      Emit.Decides m.Excuses (m.Generable options fields) (Emit.method σ.tree options m'))
    (S := fun fields m m' => Emit.Decides (·.internal = false)
      (∀ t ∈ m.text fields, t.Generable options) (Emit.mainBody σ.tree options m'))
    h method_decides mainBody_decides
  have methods : List.Forall₂ (fun c c' => List.Forall₂ (fun m m' => Emit.Decides
      (fun e => e.internal = false ∨ ∃ c ∈ p.classes, ∃ m ∈ c.methods, m.Excuses e)
      (m.Generable options (p.fieldsOf c.name)) (Emit.method σ.tree options m'))
      c.methods c'.methods) p.classes p'.classes := by
    refine ((List.forall₂_and_left _ _).2 ⟨fun c hc => hc, classes⟩).imp ?_
    rintro c c' ⟨hc, each⟩
    refine ((List.forall₂_and_left _ _).2 ⟨fun m hm => hm, each⟩).imp ?_
    rintro m m' ⟨hm, decides⟩
    exact decides.imp (fun e excused => .inr ⟨c, hc, m, hm, excused⟩) Iff.rfl
  have all := Emit.decides_program methods (main.imp fun _ _ h => h.imp (fun _ => .inl) Iff.rfl)
  refine all.imp (fun _ h => h) ?_
  constructor
  · rintro ⟨methods, main⟩
    exact ⟨methods, fun m hm => main m (Option.mem_toList.2 hm)⟩
  · intro generable
    exact ⟨generable.methods, fun m hm => generable.main m (Option.mem_toList.1 hm)⟩

end Resolve

/-- **Code generation stops only for what is in the text.**  Once a program is resolved, code is
generated for it just if every name that is assigned to is a variable or a field; every primitive
has a known tag and as many arguments as that takes; characters, sizes of arrays and counts of
arguments fit in a short; and no body or block literal, taken by itself, refers to more than 65536
different strings, the file name among them if positions are recorded.  No annotation is ever found
missing, and the program is called malformed only for a primitive that takes other arguments. -/
theorem generates_iff_generable {p : Program} {log : Log} {r : Resolution}
    (resolved : resolve p = (log, .ok r)) (options : CompilerOptions) :
    ((∃ log compiled, generate options r = (log, .ok compiled)) ↔ p.Generable options)
      ∧ ∀ log e, generate options r = (log, .error e) → (∀ what, e ≠ .unresolved what)
        ∧ ∀ reason, e = .malformed reason →
          ∃ c ∈ p.classes, ∃ m ∈ c.methods, m.Mismatch reason := by
  obtain ⟨p', σ, hp, rfl⟩ := resolve_eq_ok resolved
  unfold generate
  have decided : Emit.Decides _ (p.Generable options) _ := Resolve.program_decides hp
  rcases decided {} LiteralPool.valid_empty with
    ⟨cs, g, made, holds, -⟩ | ⟨e, g, stop, excused, fails⟩
  · rw [made]
    refine ⟨iff_of_true ⟨_, _, rfl⟩ holds, ?_⟩
    rintro _ _ ⟨⟩
  · rw [stop]
    refine ⟨iff_of_false ?_ fails, ?_⟩
    · rintro ⟨_, _, ⟨⟩⟩
    · rintro _ _ ⟨⟩
      rcases excused with blamed | ⟨c, hc, m, hm, blamed | ⟨reason, rfl, mismatch⟩⟩
      · exact CompileError.of_not_internal blamed
      · exact CompileError.of_not_internal blamed
      · refine ⟨nofun, ?_⟩
        rintro _ ⟨⟩
        exact ⟨c, hc, m, hm, mismatch⟩

/-- A program that code is generated for, by its text. -/
theorem generates_iff_generable_block : ∃ log r, resolve Direct.blockProgram = (log, .ok r)
    ∧ (∃ log compiled, generate {} r = (log, .ok compiled)) ∧ Direct.blockProgram.Generable {} := by
  obtain ⟨_, compiled, accepted, -⟩ := Direct.blockProgram_compiles true
  obtain ⟨log, log', r, resolved, generated⟩ := Direct.compileBare_eq_ok accepted
  exact ⟨log, r, resolved, ⟨log', compiled, generated⟩,
    (generates_iff_generable resolved {}).1.1 ⟨log', compiled, generated⟩⟩

end Colloquy
