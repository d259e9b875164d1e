import Colloquy.Proofs.Compile.Addressing
import Colloquy.Proofs.Compile.SendSites

/-!
# What the compiler warns about

The compiler looks at every body it generates code for: if a return statement is not the last
statement of its body, it warns that what comes behind is unreachable.  Resolution changes no
statement into another kind of statement (`Resolve.stats_kinds`), and each step of code generation
adds as many warnings as there are such returns in the text that it is about (`Emit.Warns`).

Main statement: `compileBare_warnings`.
-/

namespace Colloquy

/-! ## Returns that are not the last statement -/

/-- The statement is a return. -/
def Stat.isRet : Stat → Bool
  | .ret _ _ => true
  | _ => false

/-- How many return statements of a body are not its last statement; those of block literals in it
apart. -/
def Stat.strays (body : List Stat) : Nat := body.dropLast.countP Stat.isRet

/-- A body with the bodies of the block literals in it. -/
def Stat.bodies (body : List Stat) : List (List Stat) :=
  body :: (Stat.blocksAll body).map Prod.snd

/-- The bodies of a method; none if the machine carries it out itself. -/
def Method.bodies (m : Method) : List (List Stat) :=
  match m.kind with
  | .primitive _ => []
  | .code body => Stat.bodies body.stats

namespace Program

/-- All bodies of a program: those of methods, of the main body, and of block literals. -/
def bodies (p : Program) : List (List Stat) :=
  p.classes.flatMap (·.methods.flatMap Method.bodies)
    ++ p.main.toList.flatMap fun m => Stat.bodies m.body.stats

/-- How many return statements of a program are not the last statement of their body. -/
def strays (p : Program) : Nat := (p.bodies.map Stat.strays).sum

end Program

/-- The returns of block literals that are not the last statement of their body. -/
def blockStrays (blocks : List (BlockHead × List Stat)) : Nat :=
  (blocks.map fun b => Stat.strays b.2).sum

theorem blockStrays_append (bs cs : List (BlockHead × List Stat)) :
    blockStrays (bs ++ cs) = blockStrays bs + blockStrays cs := by
  simp [blockStrays]

theorem Stat.strays_cons (s t : Stat) (rest : List Stat) :
    Stat.strays (s :: t :: rest) = (if s.isRet then 1 else 0) + Stat.strays (t :: rest) := by
  rw [strays, List.dropLast_cons_cons, List.countP_cons, Nat.add_comm]
  rfl

theorem Stat.sum_bodies (body : List Stat) :
    ((Stat.bodies body).map Stat.strays).sum
      = Stat.strays body + blockStrays (Stat.blocksAll body) := by
  simp [bodies, blockStrays, Function.comp_def]

/-! ## Resolution -/

/-- Which statements of a body are returns. -/
def Stat.kinds (body : List Stat) : List Bool := body.map Stat.isRet

/-- Which statements of block literals are returns. -/
def blockKinds (blocks : List (BlockHead × List Stat)) : List (List Bool) :=
  blocks.map fun b => Stat.kinds b.2

theorem blockKinds_append (bs cs : List (BlockHead × List Stat)) :
    blockKinds (bs ++ cs) = blockKinds bs ++ blockKinds cs := List.map_append

theorem Stat.strays_eq (body : List Stat) :
    Stat.strays body = (Stat.kinds body).dropLast.countP id := by
  rw [kinds, ← List.map_dropLast, List.countP_map]
  rfl

namespace Resolve

variable {σ σ' : Resolver} {fields : List String} {selector : String}

mutual

/-- **Resolving an expression** leaves the kinds of statements in its block literals as they are. -/
theorem expr_kinds {chain : ScopeChain} {σ σ' : Resolver} (e : Expr) {e' : Expr}
    (h : expr fields selector chain e σ = .ok e' σ') :
    blockKinds e'.blocks = blockKinds e.blocks := by
  cases e with
  | literal value | self | ident name =>
    cases h
    rfl
  | array items =>
    obtain ⟨_, τ, hitems, ⟨⟩⟩ := EStateM.bind_eq_ok.1 h
    obtain ⟨_, rfl, same⟩ := exprs_kinds items [] hitems
    exact same
  | block head body =>
    obtain ⟨⟨head', inner⟩, τ, hopen, hbody⟩ := EStateM.bind_eq_ok.1 h
    obtain ⟨body', τ', hstats, ⟨⟩⟩ := EStateM.bind_eq_ok.1 hbody
    obtain ⟨_, rfl, own, inside⟩ := stats_kinds body [] hstats
    exact congrArg₂ List.cons own inside
  | send receiver message args position =>
    obtain ⟨receiver', τ, hreceiver, hrest⟩ := EStateM.bind_eq_ok.1 h
    obtain ⟨args', τ', hargs, ⟨⟩⟩ := EStateM.bind_eq_ok.1 hrest
    obtain ⟨_, rfl, others⟩ := exprs_kinds args [] hargs
    rw [Expr.blocks, Expr.blocks, blockKinds_append, blockKinds_append,
      expr_kinds receiver hreceiver]
    exact congrArg (_ ++ ·) others
  | superSend message args position =>
    obtain ⟨args', τ, hargs, ⟨⟩⟩ := EStateM.bind_eq_ok.1 h
    obtain ⟨_, rfl, same⟩ := exprs_kinds args [] hargs
    exact same
termination_by structural e

theorem exprs_kinds {chain : ScopeChain} {σ σ' : Resolver} (es done : List Expr) {es' : List Expr}
    (h : exprs fields selector chain es done σ = .ok es' σ') :
    ∃ new, es' = done.reverse ++ new
      ∧ blockKinds (Expr.blocksAll new) = blockKinds (Expr.blocksAll es) := by
  cases es with
  | nil =>
    cases h
    exact ⟨[], (List.append_nil _).symm, rfl⟩
  | cons e rest =>
    obtain ⟨e', τ, he, hrest⟩ := EStateM.bind_eq_ok.1 h
    obtain ⟨new, rfl, others⟩ := exprs_kinds rest (e' :: done) hrest
    refine ⟨e' :: new, by simp, ?_⟩
    rw [Expr.blocksAll, Expr.blocksAll, blockKinds_append, blockKinds_append, expr_kinds e he,
      others]
termination_by structural es

theorem stat_kinds {chain : ScopeChain} {σ σ' : Resolver} (s : Stat) {s' : Stat}
    (h : stat fields selector chain s σ = .ok s' σ') :
    s'.isRet = s.isRet ∧ blockKinds s'.blocks = blockKinds s.blocks := by
  cases s with
  | expr value | assign target value position | ret value position =>
    obtain ⟨value', τ, hvalue, ⟨⟩⟩ := EStateM.bind_eq_ok.1 h
    exact ⟨rfl, expr_kinds value hvalue⟩
termination_by structural s

/-- **Resolving statements** leaves their kinds as they are, and those in their block literals. -/
theorem stats_kinds {chain : ScopeChain} {σ σ' : Resolver} (ss done : List Stat) {ss' : List Stat}
    (h : stats fields selector chain ss done σ = .ok ss' σ') :
    ∃ new, ss' = done.reverse ++ new ∧ Stat.kinds new = Stat.kinds ss
      ∧ blockKinds (Stat.blocksAll new) = blockKinds (Stat.blocksAll ss) := by
  cases ss with
  | nil =>
    cases h
    exact ⟨[], (List.append_nil _).symm, rfl, rfl⟩
  | cons s rest =>
    obtain ⟨s', τ, hs, hrest⟩ := EStateM.bind_eq_ok.1 h
    obtain ⟨kind, inside⟩ := stat_kinds s hs
    obtain ⟨new, rfl, kinds, others⟩ := stats_kinds rest (s' :: done) hrest
    refine ⟨s' :: new, by simp, congrArg₂ List.cons kind kinds, ?_⟩
    rw [Stat.blocksAll, Stat.blocksAll, blockKinds_append, blockKinds_append, inside, others]
termination_by structural ss

end

theorem body_kinds {scope : ScopeId × List String} {b b' : Body}
    (h : body fields selector scope b σ = .ok b' σ') :
    (Stat.bodies b'.stats).map Stat.kinds = (Stat.bodies b.stats).map Stat.kinds := by
  obtain ⟨new, hstats, rfl⟩ := body_eq_ok h
  obtain ⟨_, rfl, own, inside⟩ := stats_kinds b.stats [] hstats
  rw [Stat.bodies, Stat.bodies, List.map_cons, List.map_cons, List.map_map, List.map_map]
  exact congrArg₂ List.cons own inside

theorem method_kinds {className : String} {classScope : ScopeId} {seen : Std.HashMap String Unit}
    {m m' : Method} (h : method className classScope fields seen m σ = .ok m' σ') :
    m'.bodies.map Stat.kinds = m.bodies.map Stat.kinds := by
  cases method_resolves h with
  | primitive kind => rw [Method.bodies, Method.bodies, kind]
  | code kind _ resolves =>
    rw [Method.bodies, Method.bodies, kind]
    exact body_kinds resolves

theorem mainBody_kinds {m m' : MainBody} (h : mainBody m σ = .ok m' σ') :
    (Stat.bodies m'.body.stats).map Stat.kinds = (Stat.bodies m.body.stats).map Stat.kinds := by
  obtain ⟨_, _, _, _, _, -, -, -, resolves, rfl⟩ := mainBody_eq_ok h
  exact body_kinds resolves

/-- **Resolution changes no return into another statement**, and nothing else into a return. -/
theorem program_strays {p p' : Program} (h : program p {} = .ok p' σ) : p'.strays = p.strays := by
  obtain ⟨classes, main⟩ := program_show
    (R := fun _ m m' => m'.bodies.map Stat.kinds = m.bodies.map Stat.kinds)
    (S := fun _ m m' => (Stat.bodies m'.body.stats).map Stat.kinds
      = (Stat.bodies m.body.stats).map Stat.kinds)
    h (fun _ h _ => method_kinds h) fun _ h _ => mainBody_kinds h
  have same {as bs : List (List Bool)} (h : bs = as) : List.Forall₂ Eq as bs :=
    h ▸ List.forall₂_refl _
  have kinds : p'.bodies.map Stat.kinds = p.bodies.map Stat.kinds := by
    rw [Program.bodies, Program.bodies, List.map_append, List.map_append, List.map_flatMap,
      List.map_flatMap, List.map_flatMap, List.map_flatMap]
    refine Eq.symm (List.forall₂_eq_eq_eq ▸ List.rel_append ?_ ?_)
    · refine List.rel_flatMap classes fun c c' methods => ?_
      rw [List.map_flatMap, List.map_flatMap]
      exact List.rel_flatMap methods fun m m' kinds => same kinds
    · exact List.rel_flatMap main fun m m' kinds => same kinds
  have counts (p : Program) : p.strays
      = ((p.bodies.map Stat.kinds).map fun ks => ks.dropLast.countP id).sum := by
    rw [Program.strays, List.map_map]
    exact congrArg List.sum (List.map_congr_left fun body _ => Stat.strays_eq body)
  rw [counts, counts, kinds]

end Resolve

/-! ## Code generation -/

namespace Emit

variable {α β : Type} {c : EmitContext} {n k : Nat}

/-- The step adds `n` warnings whenever it succeeds. -/
def Warns (n : Nat) (x : Emit α) : Prop :=
  ∀ g a g', x g = .ok a g' → g'.warnings.size = g.warnings.size + n

theorem Warns.congr {x : Emit α} (h : Warns n x) (count : n = k) : Warns k x := count ▸ h

theorem Warns.bind {x : Emit α} {f : α → Emit β} (first : Warns n x) (later : ∀ a, Warns k (f a)) :
    Warns (n + k) (x >>= f) := by
  intro g b g'' h
  obtain ⟨a, g', hx, hf⟩ := EStateM.bind_eq_ok.1 h
  rw [later a g' b g'' hf, first g a g' hx, Nat.add_assoc]

/-- A step without a warning, and what comes behind it. -/
theorem Warns.then {x : Emit α} {f : α → Emit β} (first : Warns 0 x) (later : ∀ a, Warns k (f a)) :
    Warns k (x >>= f) :=
  (first.bind later).congr (Nat.zero_add k)

/-- What comes before a step without a warning. -/
theorem Warns.before {x : Emit α} {f : α → Emit β} (first : Warns n x) (last : ∀ a, Warns 0 (f a)) :
    Warns n (x >>= f) :=
  (first.bind last).congr (Nat.add_zero n)

theorem warns_pure (a : α) : Warns 0 (pure a) := by
  rintro g _ _ ⟨⟩
  rfl

theorem warns_throw (e : CompileError) : Warns 0 (throw e : Emit α) := by
  rintro g _ _ ⟨⟩

theorem warns_instruction (i : Instruction) : Warns 0 (instruction i) := by
  rintro g _ _ ⟨⟩
  rfl

theorem warns_report (level : Level) (message : String) : Warns 0 (report level message) := by
  rintro g _ _ ⟨⟩
  rfl

theorem warns_check (x : Except CompileError α) : Warns 0 (check x) := by
  intro g a g' h
  obtain ⟨-, rfl⟩ := check_eq_ok.1 h
  rfl

theorem warns_literal (s : String) : Warns 0 (literal s) := by
  rintro ⟨code, pool, table, warnings, log⟩ l g' h
  unfold literal at h
  dsimp only at h
  split at h
  · cases h
    rfl
  · cases h

theorem warns_scopeOf (scope : Option ScopeId) (what : String) : Warns 0 (scopeOf scope what) := by
  intro g a g' h
  obtain ⟨rfl, -⟩ := scopeOf_eq_ok h
  rfl

theorem warns_qualifiedName (tree : ScopeTree) (id : ScopeId) :
    Warns 0 (qualifiedName tree id) := by
  intro g a g' h
  obtain rfl := qualifiedName_eq_ok h
  rfl

theorem warns_finish (tree : ScopeTree) (id : ScopeId) (code : Array Instruction)
    (pool : LiteralPool) : Warns 0 (finish tree id code pool) := by
  unfold finish
  split
  · exact warns_throw _
  · exact warns_pure _

theorem warns_enter (index : UInt16) (b : Block) : Warns 0 (enter index b) := by
  rintro ⟨code, pool, table, warnings, log⟩ _ g' h
  unfold enter at h
  dsimp only at h
  split at h <;> cases h
  rfl

theorem warns_mark (position : Position) : Warns 0 (mark c position) := by
  unfold mark
  split
  · exact warns_instruction _
  · exact warns_pure ()

theorem warns_named (make : UInt16 → Instruction) (s : String) :
    Warns 0 (do instruction (make (← literal s))) :=
  (warns_literal s).then fun _ => warns_instruction _

theorem warns_constant (value : Literal) : Warns 0 (constant value) := by
  cases value with
  | nil | int n | float x => exact warns_instruction _
  | bool b => cases b <;> exact warns_instruction _
  | char ch => exact (warns_check _).then fun _ => warns_instruction _
  | string s => exact warns_named .pushLiteral s

theorem warns_depthTo (owner : ScopeId) (x : Ident) : Warns 0 (depthTo c owner x) := by
  unfold depthTo
  split
  · exact warns_pure _
  · exact warns_throw _

theorem warns_load (x : Ident) : Warns 0 (load c x) := by
  unfold load
  split
  · exact warns_instruction _
  · exact (warns_depthTo _ x).then fun _ => warns_instruction _
  · exact warns_named .pushGlobal x.name
  · exact warns_named .pushGlobal x.name

theorem warns_store (x : Ident) : Warns 0 (store c x) := by
  unfold store
  split
  · exact warns_instruction _
  · exact (warns_depthTo _ x).then fun _ => warns_instruction _
  · exact warns_throw _
  · exact warns_throw _

/-- **A warning** if the statement before was a return. -/
theorem warns_warnAfter (s : Stat) :
    Warns (if s.isRet then 1 else 0) (warnAfter c (returnPosition s)) := by
  cases s with
  | expr value | assign target value position => exact warns_pure ()
  | ret value position =>
    refine (warns_qualifiedName c.tree c.scope).then fun name => ?_
    rintro g _ _ ⟨⟩
    exact Array.size_push _

theorem warns_inBlock {build : Emit Unit} (h : Warns n build) : Warns n (inBlock c build) := by
  have opened : Warns 0 (modifyGet fun g => ((g.code, g.pool), { g with code := #[], pool := {} })
      : Emit (Array Instruction × LiteralPool)) := by
    rintro g _ _ ⟨⟩
    rfl
  have closed (outer : Array Instruction × LiteralPool) :
      Warns 0 (modifyGet fun g => ((g.code, g.pool), { g with code := outer.1, pool := outer.2 })
        : Emit (Array Instruction × LiteralPool)) := by
    rintro g _ _ ⟨⟩
    rfl
  refine opened.then fun outer => ?_
  dsimp only
  split
  · exact ((warns_literal _).then fun _ => warns_pure ()).then fun _ =>
      h.before fun _ => closed outer
  · exact h.before fun _ => closed outer

/-! ### Statements and expressions -/

mutual

/-- **The code of an expression** is generated with the warnings for its block literals. -/
theorem expr_warns (c : EmitContext) (e : Expr) : Warns (blockStrays e.blocks) (expr c e) := by
  cases e with
  | literal value => exact warns_constant value
  | self => exact warns_instruction _
  | ident x => exact warns_load x
  | array items =>
    exact (exprs_warns c items).before fun _ => (warns_check _).then fun _ => warns_instruction _
  | block head body =>
    refine (warns_scopeOf _ _).then fun scope => ?_
    have inner : Warns (Stat.strays body + blockStrays (Stat.blocksAll body)) (do
        stats { c with scope } body
        if body.isEmpty then instruction .pushNil
        mark { c with scope } head.stop.before
        instruction .blockReturn : Emit Unit) := by
      refine (stats_warns _ body).before fun _ => ?_
      have ending : Warns 0 (do
          mark { c with scope } head.stop.before
          instruction .blockReturn : Emit Unit) :=
        (warns_mark _).then fun _ => warns_instruction _
      dsimp only
      split
      · exact (warns_instruction _).then fun _ => ending
      · exact ending
    have count : blockStrays (Expr.blocks (.block head body))
        = Stat.strays body + blockStrays (Stat.blocksAll body) := rfl
    rw [count]
    exact (warns_inBlock inner).before fun _ => (warns_finish _ _ _ _).then fun _ =>
      (warns_report _ _).then fun _ => (warns_enter _ _).then fun _ => warns_instruction _
  | send receiver selector args position =>
    rw [Expr.blocks, blockStrays_append]
    exact (expr_warns c receiver).bind fun _ => (exprs_warns c args).before fun _ =>
      (warns_mark _).then fun _ => (warns_check _).then fun argc => warns_named (.send argc) _
  | superSend selector args position =>
    exact (warns_instruction _).then fun _ => (exprs_warns c args).before fun _ =>
      (warns_mark _).then fun _ => (warns_check _).then fun argc => warns_named (.sendSuper argc) _
termination_by structural e

theorem exprs_warns (c : EmitContext) (es : List Expr) :
    Warns (blockStrays (Expr.blocksAll es)) (exprs c es) := by
  cases es with
  | nil => exact warns_pure ()
  | cons e rest =>
    rw [Expr.blocksAll, blockStrays_append]
    exact (expr_warns c e).bind fun _ => exprs_warns c rest
termination_by structural es

theorem stat_warns (c : EmitContext) (s : Stat) : Warns (blockStrays s.blocks) (stat c s) := by
  cases s with
  | expr value => exact expr_warns c value
  | assign target value position =>
    exact (warns_mark _).then fun _ => (expr_warns c value).before fun _ => warns_store target
  | ret value position =>
    exact (expr_warns c value).before fun _ => (warns_mark _).then fun _ => warns_instruction _
termination_by structural s

/-- **The code of statements** is generated with a warning for each return that is not the last
one, and those for block literals. -/
theorem stats_warns (c : EmitContext) (ss : List Stat) :
    Warns (Stat.strays ss + blockStrays (Stat.blocksAll ss)) (stats c ss) := by
  cases ss with
  | nil => exact warns_pure ()
  | cons s rest =>
    rw [Stat.blocksAll, blockStrays_append]
    exact ((stat_warns c s).bind fun _ => statsAfter_warns c s rest).congr (by omega)
termination_by structural ss

theorem statsAfter_warns (c : EmitContext) (s : Stat) (ss : List Stat) :
    Warns (Stat.strays (s :: ss) + blockStrays (Stat.blocksAll ss))
      (statsAfter c (returnPosition s) ss) := by
  cases ss with
  | nil => exact warns_pure ()
  | cons t rest =>
    rw [Stat.blocksAll, blockStrays_append, Stat.strays_cons]
    exact ((warns_instruction _).then fun _ => (warns_warnAfter s).bind fun _ =>
      (stat_warns c t).bind fun _ => statsAfter_warns c t rest).congr (by omega)
termination_by structural ss

end

/-! ### Methods, classes and programs -/

theorem warns_takeBlocks (tree : ScopeTree) (id : ScopeId) : Warns 0 (takeBlocks tree id) := by
  have taken : Warns 0 (modifyGet fun g => (g.table, { g with table := #[] })
      : Emit (Array (Option Block))) := by
    rintro g _ _ ⟨⟩
    rfl
  exact (warns_qualifiedName tree id).then fun _ => taken.then fun _ => warns_check _

theorem warns_withTable {build : Emit Unit} (h : Warns n build) : Warns n (withTable c build) := by
  have cleared : Warns 0 (modify fun g => { g with table := #[] } : Emit Unit) := by
    rintro g _ _ ⟨⟩
    rfl
  exact cleared.then fun _ => (warns_inBlock h).before fun _ => (warns_takeBlocks _ _).then fun _ =>
    (warns_finish _ _ _ _).then fun _ => warns_pure _

theorem warns_primitiveMethod (tree : ScopeTree) (m : Method) (scope : ScopeId) (tag : String) :
    Warns 0 (primitiveMethod tree m scope tag) := by
  refine (warns_qualifiedName tree scope).then fun _ => ?_
  dsimp only
  split
  · exact warns_throw _
  · split
    · exact (warns_throw _).then fun _ => warns_pure _
    · exact warns_pure _

/-- **The code of a method** is generated with the warnings for its bodies. -/
theorem method_warns (tree : ScopeTree) (options : CompilerOptions) (m : Method) :
    Warns ((m.bodies.map Stat.strays).sum) (method tree options m) := by
  refine (warns_scopeOf _ _).then fun scope => ?_
  have reported (b : Block) : Warns 0 (do
      report .debug ("compiled " ++ b.qualified)
      return { b with classSide := m.classSide } : Emit Block) :=
    (warns_report _ _).then fun _ => warns_pure _
  unfold Method.bodies
  cases m.kind with
  | primitive tag => exact (warns_primitiveMethod tree m scope tag).before reported
  | code body =>
    dsimp only
    rw [Stat.sum_bodies]
    refine (warns_withTable ((stats_warns _ body.stats).before fun _ =>
      (warns_mark _).then fun _ => ?_)).before reported
    have answer : Warns 0 (do instruction .pushSelf; instruction .ret : Emit Unit) :=
      (warns_instruction _).then fun _ => warns_instruction _
    split
    · exact (warns_instruction _).then fun _ => answer
    · exact answer

theorem mainBody_warns (tree : ScopeTree) (options : CompilerOptions) (m : MainBody) :
    Warns (((Stat.bodies m.body.stats).map Stat.strays).sum) (mainBody tree options m) := by
  refine (warns_scopeOf _ _).then fun scope => ?_
  rw [Stat.sum_bodies]
  refine (warns_withTable ((stats_warns _ m.body.stats).before fun _ => ?_)).before fun _ =>
    (warns_report _ _).then fun _ => warns_pure _
  have ending : Warns 0 (do
      mark { tree, options, scope } m.body.stop
      instruction .ret : Emit Unit) := (warns_mark _).then fun _ => warns_instruction _
  dsimp only
  split
  · exact (warns_instruction _).then fun _ => ending
  · exact ending

theorem warns_mapM {count : α → Nat} {f : α → Emit β} (each : ∀ a, Warns (count a) (f a))
    (as : List α) : Warns ((as.map count).sum) (as.mapM f) := by
  induction as with
  | nil =>
    rw [List.mapM_nil]
    exact warns_pure _
  | cons a rest ih =>
    rw [List.mapM_cons, List.map_cons, List.sum_cons]
    exact (each a).bind fun b => ih.before fun bs => warns_pure _

/-- **The code of a program** is generated with the warnings for all its bodies. -/
theorem program_warns (tree : ScopeTree) (options : CompilerOptions) (p : Program) :
    Warns p.strays (program tree options p) := by
  have cls (c : ClassDef) : Warns (((c.methods.flatMap Method.bodies).map Stat.strays).sum)
      (cls tree options c) := by
    refine ((warns_mapM (method_warns tree options) c.methods).congr ?_).before fun _ =>
      warns_pure _
    rw [List.map_flatMap, List.flatMap, List.sum_flatten, List.map_map]
    rfl
  have classes := (warns_mapM cls p.classes).congr
    (k := ((p.classes.flatMap (·.methods.flatMap Method.bodies)).map Stat.strays).sum) (by
      rw [List.map_flatMap, List.flatMap, List.sum_flatten, List.map_map]
      rfl)
  rw [Program.strays, Program.bodies, List.map_append, List.sum_append]
  refine classes.bind fun _ => ?_
  cases p.main with
  | none => exact warns_pure _
  | some m =>
    have main : Warns (((Stat.bodies m.body.stats).map Stat.strays).sum)
        (mainAsClass tree options m) :=
      (mainBody_warns tree options m).before fun _ => warns_pure _
    refine (main.before fun _ => warns_pure _).congr ?_
    rw [Option.toList_some, List.flatMap_singleton]

end Emit

/-- **The compiler warns of every return that is not the last statement of its body**, and of
nothing else. -/
theorem compileBare_warnings {options : CompilerOptions} {p : Program} {log : Log}
    {compiled : CompiledProgram} (accepted : compileBare options p = (log, .ok compiled)) :
    compiled.warnings.length = p.strays := by
  obtain ⟨_, _, _, _, hp, hcs, rfl⟩ := Direct.compileBare_phases accepted
  have warned := Emit.program_warns _ _ _ _ _ _ hcs
  rw [← Resolve.program_strays hp, Array.length_toList, warned]
  exact Nat.zero_add _

end Colloquy
