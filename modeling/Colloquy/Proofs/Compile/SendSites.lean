import Colloquy.Proofs.Compile.Loading
import Colloquy.Proofs.Compile.Sealing

/-!
# Where sends stand in the source

The sends of a body, in the order in which they are carried out, and those of each block literal in
it, are the *outline* of the body (`Stat.outline`).  Resolution leaves outlines as they are.  In
code with source positions there is one send instruction for each send of the outline, in the same
order, and right before it a `debug` instruction with the position of the send (`Announces`).

Main statements: `resolve_outlines`, and `Emit.method_outlined` and `Emit.mainBody_outlined`.
-/

namespace Colloquy

open Instruction (Reads stored)

/-! ## Sends of a tree -/

/-- A send as it stands in a tree; `position` is that of the selector. -/
structure SendSite where
  toSuper : Bool
  selector : String
  argc : Nat
  position : Position
deriving DecidableEq, Inhabited

mutual

/-- The sends of an expression in the order in which they are carried out, those inside block
literals apart. -/
def Expr.sends : Expr → List SendSite
  | .literal _ => []
  | .self => []
  | .ident _ => []
  | .array items => Expr.sendsAll items
  | .block _ _ => []
  | .send receiver selector args position =>
    receiver.sends ++ (Expr.sendsAll args ++ [⟨false, selector, args.length, position⟩])
  | .superSend selector args position =>
    Expr.sendsAll args ++ [⟨true, selector, args.length, position⟩]

def Expr.sendsAll : List Expr → List SendSite
  | [] => []
  | e :: rest => e.sends ++ Expr.sendsAll rest

end

def Stat.sends : Stat → List SendSite
  | .expr value => value.sends
  | .assign _ value _ => value.sends
  | .ret value _ => value.sends

def Stat.sendsAll : List Stat → List SendSite
  | [] => []
  | s :: rest => s.sends ++ Stat.sendsAll rest

/-- The sends of block literals. -/
def blockSends (blocks : List (BlockHead × List Stat)) : List (List SendSite) :=
  blocks.map fun b => Stat.sendsAll b.2

theorem blockSends_append (bs cs : List (BlockHead × List Stat)) :
    blockSends (bs ++ cs) = blockSends bs ++ blockSends cs := List.map_append

/-- The sends of a method or main body. -/
structure Outline where
  /-- Those that stand in no block literal. -/
  sends : List SendSite
  /-- Those of each block literal, by its number. -/
  blocks : List (List SendSite)

/-- The sends of the code at the end of a path through the tables of nested blocks. -/
def Outline.at? (o : Outline) : List Nat → Option (List SendSite)
  | [] => some o.sends
  | [k] => o.blocks[k]?
  | _ => none

def Stat.outline (ss : List Stat) : Outline := ⟨Stat.sendsAll ss, blockSends (Stat.blocksAll ss)⟩

/-- The statements of a method; none if the machine carries it out itself. -/
def Method.stats (m : Method) : List Stat :=
  match m.kind with
  | .primitive _ => []
  | .code body => body.stats

namespace Program

/-- The outlines of all methods in order, that of the main body last. -/
def outlines (p : Program) : List Outline :=
  p.classes.flatMap (·.methods.map fun m => Stat.outline m.stats)
    ++ p.main.toList.map fun m => Stat.outline m.body.stats

/-- The sends that loaded code was compiled from. -/
def sends? (p : Program) (id : BlockId) : Option (List SendSite) :=
  p.outlines[id.method]?.bind (·.at? id.path)

end Program

/-! ## Resolution -/

namespace Resolve

variable {σ σ' : Resolver} {fields : List String} {selector : String}

mutual

/-- Resolving an expression keeps its sends and those of its block literals. -/
theorem expr_sends {chain : ScopeChain} {σ σ' : Resolver} (e : Expr) {e' : Expr}
    (h : expr fields selector chain e σ = .ok e' σ') :
    e'.sends = e.sends ∧ blockSends e'.blocks = blockSends e.blocks := by
  cases e with
  | literal value | self | ident name =>
    cases h
    exact ⟨rfl, rfl⟩
  | array items =>
    obtain ⟨_, τ, hitems, ⟨⟩⟩ := EStateM.bind_eq_ok.1 h
    obtain ⟨_, rfl, -, sends, blocks⟩ := exprs_sends items [] hitems
    exact ⟨sends, blocks⟩
  | block head body =>
    obtain ⟨⟨head', inner⟩, τ, hopen, hbody⟩ := EStateM.bind_eq_ok.1 h
    obtain ⟨body', τ', hstats, ⟨⟩⟩ := EStateM.bind_eq_ok.1 hbody
    obtain ⟨_, rfl, sends, blocks⟩ := stats_sends body [] hstats
    refine ⟨rfl, ?_⟩
    show Stat.sendsAll body' :: blockSends (Stat.blocksAll body')
      = Stat.sendsAll body :: blockSends (Stat.blocksAll body)
    rw [sends, blocks]
  | send receiver message args position =>
    obtain ⟨receiver', τ, hreceiver, hrest⟩ := EStateM.bind_eq_ok.1 h
    obtain ⟨args', τ', hargs, ⟨⟩⟩ := EStateM.bind_eq_ok.1 hrest
    obtain ⟨first, inside⟩ := expr_sends receiver hreceiver
    obtain ⟨_, rfl, count, sends, blocks⟩ := exprs_sends args [] hargs
    refine ⟨?_, ?_⟩
    · show
        receiver'.sends ++ (Expr.sendsAll args' ++ [⟨false, message, args'.length, position⟩]) = _
      rw [first, sends, count]
      rfl
    · show blockSends (receiver'.blocks ++ Expr.blocksAll args') = _
      rw [blockSends_append, inside, blocks, ← blockSends_append]
      rfl
  | superSend message args position =>
    obtain ⟨args', τ, hargs, ⟨⟩⟩ := EStateM.bind_eq_ok.1 h
    obtain ⟨_, rfl, count, sends, blocks⟩ := exprs_sends args [] hargs
    refine ⟨?_, blocks⟩
    show Expr.sendsAll args' ++ [⟨true, message, args'.length, position⟩] = _
    rw [sends, count]
    rfl
termination_by structural e

theorem exprs_sends {chain : ScopeChain} {σ σ' : Resolver} (es done : List Expr) {es' : List Expr}
    (h : exprs fields selector chain es done σ = .ok es' σ') :
    ∃ new, es' = done.reverse ++ new ∧ new.length = es.length
      ∧ Expr.sendsAll new = Expr.sendsAll es
      ∧ blockSends (Expr.blocksAll new) = blockSends (Expr.blocksAll es) := by
  cases es with
  | nil =>
    cases h
    exact ⟨[], (List.append_nil _).symm, rfl, rfl, rfl⟩
  | cons e rest =>
    obtain ⟨e', τ, he, hrest⟩ := EStateM.bind_eq_ok.1 h
    obtain ⟨first, inside⟩ := expr_sends e he
    obtain ⟨new, rfl, count, sends, blocks⟩ := exprs_sends rest (e' :: done) hrest
    refine ⟨e' :: new, by simp, by simp [count], ?_, ?_⟩
    · rw [Expr.sendsAll, first, sends, Expr.sendsAll]
    · rw [Expr.blocksAll, blockSends_append, inside, blocks, Expr.blocksAll, blockSends_append]
termination_by structural es

theorem stat_sends {chain : ScopeChain} {σ σ' : Resolver} (s : Stat) {s' : Stat}
    (h : stat fields selector chain s σ = .ok s' σ') :
    s'.sends = s.sends ∧ blockSends s'.blocks = blockSends s.blocks := by
  cases s with
  | expr value | assign target value position | ret value position =>
    obtain ⟨value', τ, hvalue, ⟨⟩⟩ := EStateM.bind_eq_ok.1 h
    exact expr_sends value hvalue
termination_by structural s

theorem stats_sends {chain : ScopeChain} {σ σ' : Resolver} (ss done : List Stat) {ss' : List Stat}
    (h : stats fields selector chain ss done σ = .ok ss' σ') :
    ∃ new, ss' = done.reverse ++ new ∧ Stat.sendsAll new = Stat.sendsAll ss
      ∧ blockSends (Stat.blocksAll new) = blockSends (Stat.blocksAll ss) := by
  cases ss with
  | nil =>
    cases h
    exact ⟨[], (List.append_nil _).symm, rfl, rfl⟩
  | cons s rest =>
    obtain ⟨s', τ, hs, hrest⟩ := EStateM.bind_eq_ok.1 h
    obtain ⟨first, inside⟩ := stat_sends s hs
    obtain ⟨new, rfl, sends, blocks⟩ := stats_sends rest (s' :: done) hrest
    refine ⟨s' :: new, by simp, ?_, ?_⟩
    · rw [Stat.sendsAll, first, sends, Stat.sendsAll]
    · rw [Stat.blocksAll, blockSends_append, inside, blocks, Stat.blocksAll, blockSends_append]
termination_by structural ss

end

theorem body_outline {scope : ScopeId × List String} {b b' : Body}
    (h : body fields selector scope b σ = .ok b' σ') :
    Stat.outline b'.stats = Stat.outline b.stats := by
  obtain ⟨new, hstats, rfl⟩ := body_eq_ok h
  obtain ⟨_, rfl, sends, blocks⟩ := stats_sends b.stats [] hstats
  show Outline.mk (Stat.sendsAll new) (blockSends (Stat.blocksAll new)) = _
  rw [sends, blocks]
  rfl

theorem method_outline {className : String} {classScope : ScopeId} {seen : Std.HashMap String Unit}
    {m m' : Method} (h : method className classScope fields seen m σ = .ok m' σ') :
    Stat.outline m'.stats = Stat.outline m.stats := by
  cases method_resolves h with
  | primitive kind => simp only [Method.stats, kind]
  | code kind _ resolves =>
    simp only [Method.stats, kind]
    exact body_outline resolves

theorem methods_outlines {className : String} {classScope : ScopeId} {ms done ms' : List Method}
    {seen : Std.HashMap String Unit}
    (h : methods className classScope fields ms seen done σ = .ok ms' σ') :
    ∃ new, ms' = done.reverse ++ new
      ∧ new.map (fun m => Stat.outline m.stats) = ms.map fun m => Stat.outline m.stats := by
  induction ms generalizing σ seen done with
  | nil =>
    cases h
    exact ⟨[], (List.append_nil _).symm, rfl⟩
  | cons m rest ih =>
    obtain ⟨m', τ, hm, hrest⟩ := EStateM.bind_eq_ok.1 h
    obtain ⟨new, rfl, later⟩ := ih hrest
    exact ⟨m' :: new, by simp, by rw [List.map_cons, method_outline hm, later, List.map_cons]⟩

theorem classes_outlines {cs done cs' : List ClassDef} (h : classes cs done σ = .ok cs' σ') :
    ∃ new, cs' = done.reverse ++ new
      ∧ new.flatMap (·.methods.map fun m => Stat.outline m.stats)
        = cs.flatMap (·.methods.map fun m => Stat.outline m.stats) := by
  induction cs generalizing σ done with
  | nil =>
    cases h
    exact ⟨[], (List.append_nil _).symm, rfl⟩
  | cons c rest ih =>
    obtain ⟨c', τ, hc, hrest⟩ := EStateM.bind_eq_ok.1 h
    obtain ⟨-, _, _, ms, _, _, -, -, hall, -, -, rfl, -⟩ := cls_eq_ok hc
    obtain ⟨new, rfl, later⟩ := ih hrest
    obtain ⟨_, rfl, first⟩ := methods_outlines hall
    refine ⟨{ c with superclass := superclassOf c, methods := ms } :: new, by simp, ?_⟩
    rw [List.flatMap_cons, later, List.flatMap_cons]
    exact congrArg (· ++ _) first

theorem mainBody_outline {m m' : MainBody} (h : mainBody m σ = .ok m' σ') :
    Stat.outline m'.body.stats = Stat.outline m.body.stats := by
  obtain ⟨_, _, _, _, _, -, -, -, resolves, rfl⟩ := mainBody_eq_ok h
  exact body_outline resolves

end Resolve

/-- **Resolution keeps the sends of a program** where they are. -/
theorem resolve_outlines {p : Program} {log : Log} {r : Resolution}
    (h : resolve p = (log, .ok r)) : r.program.outlines = p.outlines := by
  obtain ⟨p', σ, hp, rfl⟩ := resolve_eq_ok h
  cases Resolve.program_resolves hp with
  | bare main classes =>
    obtain ⟨_, rfl, each⟩ := Resolve.classes_outlines classes
    simp only [Program.outlines, main]
    exact congrArg (· ++ _) each
  | main main classes resolves =>
    obtain ⟨_, rfl, each⟩ := Resolve.classes_outlines classes
    simp only [Program.outlines, main, Option.toList_some, List.map_singleton,
      Resolve.mainBody_outline resolves]
    exact congrArg (· ++ _) each

/-! ## Block literals of scoped trees -/

mutual

/-- The block literals of a scoped expression are known, those inside others too. -/
theorem Expr.Scoped.known {x : Site} {chain : List ScopeId} (e : Expr) (h : e.Scoped x chain) :
    ∀ b ∈ e.blocks, x.blocks b.1 b.2 := by
  cases e with
  | literal value | self | ident name => exact List.forall_mem_nil _
  | array items =>
    cases h with
    | array each => exact Expr.Scoped.known_all items each
  | block head body =>
    cases h with
    | block opens known each =>
      exact List.forall_mem_cons.2 ⟨known, Stat.Scoped.known_all body each⟩
  | send receiver selector args position =>
    cases h with
    | send first each =>
      exact List.forall_mem_append.2 ⟨first.known receiver, Expr.Scoped.known_all args each⟩
  | superSend selector args position =>
    cases h with
    | superSend each => exact Expr.Scoped.known_all args each
termination_by structural e

theorem Expr.Scoped.known_all {x : Site} {chain : List ScopeId} (es : List Expr)
    (h : ∀ e ∈ es, Expr.Scoped x chain e) : ∀ b ∈ Expr.blocksAll es, x.blocks b.1 b.2 := by
  cases es with
  | nil => exact List.forall_mem_nil _
  | cons e rest =>
    obtain ⟨first, later⟩ := List.forall_mem_cons.1 h
    exact List.forall_mem_append.2 ⟨first.known e, Expr.Scoped.known_all rest later⟩
termination_by structural es

theorem Stat.Scoped.known {x : Site} {chain : List ScopeId} (s : Stat) (h : s.Scoped x chain) :
    ∀ b ∈ s.blocks, x.blocks b.1 b.2 := by
  cases s with
  | expr value =>
    cases h with
    | expr first => exact first.known value
  | assign target value position =>
    cases h with
    | assign first visible => exact first.known value
  | ret value position =>
    cases h with
    | ret first => exact first.known value
termination_by structural s

theorem Stat.Scoped.known_all {x : Site} {chain : List ScopeId} (ss : List Stat)
    (h : ∀ s ∈ ss, Stat.Scoped x chain s) : ∀ b ∈ Stat.blocksAll ss, x.blocks b.1 b.2 := by
  cases ss with
  | nil => exact List.forall_mem_nil _
  | cons s rest =>
    obtain ⟨first, later⟩ := List.forall_mem_cons.1 h
    exact List.forall_mem_append.2 ⟨first.known s, Stat.Scoped.known_all rest later⟩
termination_by structural ss

end

/-! ## Sends in code -/

namespace Instruction

def isSend : Instruction → Bool
  | send _ _ | sendSuper _ _ => true
  | _ => false

theorem isSend_stored (i : Instruction) : i.stored.isSend = i.isSend := by
  cases i <;> rfl

end Instruction

/-- The instruction is what a send is compiled to. -/
def SendSite.Coded (lits : Array String) (site : SendSite) : Instruction → Prop
  | .send argc l =>
    site.toSuper = false ∧ argc.toNat = site.argc ∧ lits[l.toNat]? = some site.selector
  | .sendSuper argc l =>
    site.toSuper = true ∧ argc.toNat = site.argc ∧ lits[l.toNat]? = some site.selector
  | _ => False

theorem SendSite.Coded.isSend {lits : Array String} {site : SendSite} {i : Instruction}
    (h : site.Coded lits i) : i.isSend = true := by
  cases i with
  | send argc l | sendSuper argc l => rfl
  | _ => exact h.elim

/-- The send instructions are those of the given sends, each right behind the position of its
send. -/
inductive Announces (lits : Array String) : List SendSite → List Instruction → Prop where
  | nil : Announces lits [] []
  | plain {ss : List SendSite} {i : Instruction} {is : List Instruction} (other : i.isSend = false)
      (later : Announces lits ss is) : Announces lits ss (i :: is)
  | send {site : SendSite} {ss : List SendSite} {i : Instruction} {is : List Instruction}
      (coded : site.Coded lits i) (later : Announces lits ss is) :
      Announces lits (site :: ss) (.debug Emit.fileLiteral site.position.saturate :: i :: is)

namespace Announces

variable {lits : Array String} {ss ts : List SendSite} {i : Instruction} {is js : List Instruction}

theorem one (other : i.isSend = false) : Announces lits [] [i] := .plain other .nil

theorem append (h : Announces lits ss is) (h' : Announces lits ts js) :
    Announces lits (ss ++ ts) (is ++ js) := by
  induction h with
  | nil => exact h'
  | plain other _ ih => exact .plain other ih
  | send coded _ ih => exact .send coded ih

/-- **The `n`-th send instruction is that of the `n`-th send**, and its position comes right before
it. -/
theorem split (h : Announces lits ss (is ++ i :: js)) (hi : i.isSend = true) :
    ∃ site before, ss[is.countP Instruction.isSend]? = some site ∧ site.Coded lits i
      ∧ is = before ++ [.debug Emit.fileLiteral site.position.saturate] := by
  generalize hall : is ++ i :: js = all at h
  induction h generalizing is with
  | nil => simp at hall
  | @plain ss k ks other later ih =>
    cases is with
    | nil =>
      obtain ⟨rfl, -⟩ := List.cons.inj hall
      rw [hi] at other
      cases other
    | cons k is =>
      rw [List.cons_append, List.cons.injEq] at hall
      obtain ⟨rfl, hall⟩ := hall
      obtain ⟨site, before, found, coded, rfl⟩ := ih hall
      refine ⟨site, k :: before, ?_, coded, rfl⟩
      rwa [List.countP_cons_of_neg (by simp [other])]
  | @send first ss k ks coded later ih =>
    cases is with
    | nil =>
      obtain ⟨rfl, -⟩ := List.cons.inj hall
      cases hi
    | cons mark is =>
      rw [List.cons_append, List.cons.injEq] at hall
      obtain ⟨rfl, hall⟩ := hall
      cases is with
      | nil =>
        obtain ⟨rfl, -⟩ := List.cons.inj hall
        exact ⟨first, [], rfl, coded, rfl⟩
      | cons k is =>
        rw [List.cons_append, List.cons.injEq] at hall
        obtain ⟨rfl, hall⟩ := hall
        obtain ⟨site, before, found, coded', rfl⟩ := ih hall
        refine
          ⟨site, .debug Emit.fileLiteral first.position.saturate :: k :: before, ?_, coded', rfl⟩
        rw [List.countP_cons_of_neg (by simp [Instruction.isSend]),
          List.countP_cons_of_pos coded.isSend]
        exact found

end Announces

/-- The block has the given sends, each announced with its position in the given file. -/
structure Block.Announces (file : String) (ss : List SendSite) (b : Block) : Prop where
  code : ∃ is, Reads b.bytecode 0 is b.bytecode.size ∧ Colloquy.Announces b.literals ss is
  file : ss ≠ [] → b.literals[0]? = some file

/-- The method or main body has the sends of an outline, and so have the blocks nested in it. -/
structure Block.Outlined (file : String) (o : Outline) (b : Block) : Prop where
  outer : b.Announces file o.sends
  nested : ∀ (k : Nat) (b' : Block), b.blocks[k]? = some b' → b'.blocks = #[]
    ∧ ∃ ss, o.blocks[k]? = some ss ∧ b'.Announces file ss

/-! ## Code generation -/

namespace Emit

variable {c : EmitContext} {g g' : Generator} {ss ts : List SendSite}
  {bs cs : List (BlockHead × List Stat)}

/-- The block literal has been compiled to an entry of the table that announces its sends. -/
def Entered (blocks : Array Block) (b : BlockHead × List Stat) : Prop :=
  ∃ compiled, blocks[b.1.index.toNat]? = some compiled ∧ compiled.blocks = #[]
    ∧ ∃ is, Reads compiled.bytecode 0 is compiled.bytecode.size
      ∧ Announces compiled.literals (Stat.sendsAll b.2) is

/-- The step writes code that announces the given sends, and enters the given block literals. -/
def Sends (ss : List SendSite) (bs : List (BlockHead × List Stat)) {α : Type} (m : Emit α) : Prop :=
  ∀ g a g', m g = .ok a g' → g.pool.Valid →
    ∃ is, Writes g g' is ∧ ∀ lits blocks, Within g' lits blocks →
      Announces lits ss (is.map stored) ∧ ∀ b ∈ bs, Entered blocks b

theorem Sends.bind {α β : Type} {x : Emit α} {f : α → Emit β} (first : Sends ss bs x)
    (later : ∀ a, Sends ts cs (f a)) : Sends (ss ++ ts) (bs ++ cs) (x >>= f) := by
  intro g b g' h valid
  obtain ⟨a, t, hx, hf⟩ := EStateM.bind_eq_ok.1 h
  obtain ⟨is, writes, announced⟩ := first g a t hx valid
  obtain ⟨js, writes', announced'⟩ := later a t b g' hf (writes.valid valid)
  refine ⟨is ++ js, writes.append writes', fun lits blocks within => ?_⟩
  obtain ⟨code, entered⟩ := announced lits blocks (within.before writes')
  obtain ⟨code', entered'⟩ := announced' lits blocks within
  rw [List.map_append]
  exact ⟨code.append code', fun b hb => (List.mem_append.1 hb).elim (entered b) (entered' b)⟩

/-- A step without sends in front of others. -/
theorem Sends.then {α β : Type} {x : Emit α} {f : α → Emit β} (first : Sends [] [] x)
    (later : ∀ a, Sends ts cs (f a)) : Sends ts cs (x >>= f) :=
  Sends.bind first later

/-- Steps that write one instruction, which is no send. -/
theorem sends_of_one {α : Type} {m : Emit α}
    (h : ∀ g a g', m g = .ok a g' → g.pool.Valid →
      ∃ i, Writes g g' [i] ∧ i.stored.isSend = false) : Sends [] [] m := by
  intro g a g' hm valid
  obtain ⟨i, writes, other⟩ := h g a g' hm valid
  exact ⟨[i], writes, fun _ _ _ => ⟨.one other, List.forall_mem_nil _⟩⟩

/-- Steps that write nothing. -/
theorem sends_of_none {α : Type} {m : Emit α}
    (h : ∀ g a g', m g = .ok a g' → g.pool.Valid → Writes g g' []) : Sends [] [] m :=
  fun g a g' hm valid => ⟨[], h g a g' hm valid, fun _ _ _ => ⟨.nil, List.forall_mem_nil _⟩⟩

theorem sends_pure {α : Type} (a : α) : Sends [] [] (pure a : Emit α) :=
  sends_of_none fun g b g' h _ => by
    cases h
    exact writes_nil rfl rfl rfl

theorem sends_instruction {i : Instruction} (other : i.isSend = false) :
    Sends [] [] (instruction i) :=
  sends_of_one fun _ _ _ h _ => ⟨i, writes_instruction h, (i.isSend_stored).trans other⟩

theorem sends_mark (position : Position) : Sends [] [] (mark c position) := by
  unfold mark
  split
  · exact sends_instruction rfl
  · exact sends_pure ()

theorem sends_check {α : Type} (x : Except CompileError α) : Sends [] [] (check x) :=
  sends_of_none fun g a g' h _ => by
    obtain ⟨-, rfl⟩ := check_eq_ok.1 h
    exact writes_nil rfl rfl rfl

theorem sends_literal (text : String) : Sends [] [] (literal text) :=
  sends_of_none fun _ _ _ h valid => (writes_literal valid h).1

theorem sends_warnAfter (previous : Option Position) : Sends [] [] (warnAfter c previous) :=
  sends_of_none fun _ _ _ h _ => writes_warnAfter h

theorem sends_depthTo (owner : ScopeId) (name : Ident) : Sends [] [] (depthTo c owner name) :=
  sends_of_none fun _ _ _ h _ => by
    obtain ⟨rfl, -⟩ := depthTo_eq_ok h
    exact writes_nil rfl rfl rfl

/-- Loads, stores and constants are no sends. -/
theorem sends_load (name : Ident) : Sends [] [] (load c name) := by
  have global : Sends [] [] (do instruction (.pushGlobal (← literal name.name))) :=
    (sends_literal _).then fun _ => sends_instruction rfl
  unfold load
  split
  · exact sends_instruction rfl
  · exact (sends_depthTo _ _).then fun _ => sends_instruction rfl
  · exact global
  · exact global

theorem sends_store (name : Ident) : Sends [] [] (store c name) := by
  have never (cause : CompileError) : Sends [] [] (throw cause : Emit Unit) :=
    fun g a g' h => by cases h
  unfold store
  split
  · exact sends_instruction rfl
  · exact (sends_depthTo _ _).then fun _ => sends_instruction rfl
  · exact never _
  · exact never _

theorem sends_constant (value : Literal) : Sends [] [] (constant value) := by
  unfold constant
  split
  · exact sends_instruction rfl
  · exact sends_instruction rfl
  · exact sends_instruction rfl
  · exact sends_instruction rfl
  · exact sends_instruction rfl
  · exact (sends_check _).then fun _ => sends_instruction rfl
  · exact (sends_literal _).then fun _ => sends_instruction rfl

theorem sends_ifEmpty {stats : List Stat} {i : Instruction} {rest : Emit Unit}
    (other : i.isSend = false) (later : Sends ss bs rest) :
    Sends ss bs (if stats.isEmpty = true then (do instruction i; rest) else rest) := by
  split
  · exact (sends_instruction other).then fun _ => later
  · exact later

/-- **The end of a send**: its position and the instruction, behind the code of its operands. -/
theorem sends_site (wanted : c.options.debugInfo = true) (toSuper : Bool) (selector : String)
    (args : List Expr) (position : Position) {i : UInt16 → UInt16 → Instruction}
    (coded : ∀ lits argc l, argc.toNat = args.length → lits[l.toNat]? = some selector →
      SendSite.Coded lits ⟨toSuper, selector, args.length, position⟩ (i argc l))
    (same : ∀ argc l, (i argc l).stored = i argc l) :
    Sends [⟨toSuper, selector, args.length, position⟩] [] (do
      mark c position
      let argc ← check (short "argument count" args.length)
      instruction (i argc (← literal selector)) : Emit Unit) := by
  intro g _ g' h valid
  obtain ⟨_, t₁, hmark, hrest⟩ := EStateM.bind_eq_ok.1 h
  obtain ⟨argc, t₂, hargc, hrest⟩ := EStateM.bind_eq_ok.1 hrest
  obtain ⟨l, t₃, hl, hi⟩ := EStateM.bind_eq_ok.1 hrest
  obtain ⟨fits, rfl⟩ := check_eq_ok.1 hargc
  obtain ⟨small, rfl⟩ := short_eq_ok fits
  rw [mark, if_pos wanted] at hmark
  have marked := writes_instruction hmark
  obtain ⟨inserted, found⟩ := writes_literal (marked.valid valid) hl
  have sent := writes_instruction hi
  refine ⟨_, marked.append (inserted.append sent), fun lits blocks within =>
    ⟨?_, List.forall_mem_nil _⟩⟩
  have number : args.length.toUInt16.toNat = args.length := by
    rw [Nat.toUInt16_eq, UInt16.toNat_ofNat', Nat.mod_eq_of_lt small]
  have here := coded lits _ l number (found lits blocks (within.before sent))
  rw [← same] at here
  exact .send here .nil

/-! ### Trees -/

mutual

/-- **The code of an expression announces its sends.** -/
theorem expr_sends (c : EmitContext) (wanted : c.options.debugInfo = true) (e : Expr) :
    Sends e.sends e.blocks (expr c e) := by
  cases e with
  | literal value => exact sends_constant value
  | self => exact sends_instruction rfl
  | ident name => exact sends_load name
  | array items =>
    have last : Sends [] [] (do
        instruction (.pushArray (← check (short "array size" items.length))) : Emit Unit) :=
      (sends_check _).then fun _ => sends_instruction rfl
    have all := (exprs_sends c wanted items).bind fun _ => last
    rwa [List.append_nil, List.append_nil] at all
  | block head body =>
    intro g _ g' h valid
    rw [expr] at h
    obtain ⟨b, t₀, hscope, hblock⟩ := EStateM.bind_eq_ok.1 h
    obtain ⟨rfl, opened⟩ := scopeOf_eq_ok hscope
    obtain ⟨⟨code, pool⟩, t₁, hin, hfinish⟩ := EStateM.bind_eq_ok.1 hblock
    obtain ⟨compiled, t₂, hcompiled, hreport⟩ := EStateM.bind_eq_ok.1 hfinish
    obtain ⟨_, t₃, hlog, henter⟩ := EStateM.bind_eq_ok.1 hreport
    obtain ⟨_, t₄, hentered, hlast⟩ := EStateM.bind_eq_ok.1 henter
    obtain ⟨t, t', hbuild, fresh, valid', table, rfl, rfl, code', pool', table'⟩ :=
      inBlock_eq_ok hin
    -- the body of the block, in a block of its own
    have ending : Sends [] [] (do
        if body.isEmpty then instruction .pushNil
        mark { c with scope := b } head.stop.before
        instruction .blockReturn : Emit Unit) :=
      sends_ifEmpty rfl ((sends_mark _).then fun _ => sends_instruction rfl)
    obtain ⟨is, whole, announced⟩ :=
      (stats_sends { c with scope := b } wanted body).bind (fun _ => ending) t _ t' hbuild valid'
    rw [List.append_nil, List.append_nil] at announced
    obtain ⟨rfl, -, bytes, literals⟩ := finish_eq_ok (whole.valid valid') hcompiled
    have reads := reads_fresh fresh whole bytes
    have none := blocks_finish hcompiled
    -- the block around it
    have noted := writes_report hlog
    obtain ⟨entered, entry⟩ := writes_enter hentered
    have last := writes_instruction hlast
    have kept : Writes t₀ t₂ [] :=
      ⟨by rw [code', List.append_nil], pool' ▸ List.prefix_refl _, pool' ▸ id, fun i b' hb' => by
        rw [table']
        exact whole.table i b' (table ▸ hb')⟩
    refine ⟨_, kept.append (noted.append (entered.append last)), fun lits blocks hw =>
      ⟨.one rfl, ?_⟩⟩
    have inTable : Within t₄ lits blocks := hw.before last
    have inner : Within t' compiled.literals blocks := by
      refine ⟨literals ▸ List.prefix_refl _, fun i b' hb' => ?_⟩
      exact inTable.table i b' (entered.table i b' (noted.table i b' (table' ▸ hb')))
    obtain ⟨sends, inside⟩ := announced _ _ inner
    exact List.forall_mem_cons.2
      ⟨⟨compiled, inTable.table _ _ entry, none, _, reads, sends⟩, inside⟩
  | send receiver selector args position =>
    have site := sends_site wanted false selector args position (i := .send)
      (fun _ _ _ hargc hl => ⟨rfl, hargc, hl⟩) fun _ _ => rfl
    have all := (expr_sends c wanted receiver).bind fun _ =>
      (exprs_sends c wanted args).bind fun _ => site
    rwa [List.append_nil] at all
  | superSend selector args position =>
    have site := sends_site wanted true selector args position (i := .sendSuper)
      (fun _ _ _ hargc hl => ⟨rfl, hargc, hl⟩) fun _ _ => rfl
    have all := (sends_instruction (i := .pushSelf) rfl).then fun _ =>
      (exprs_sends c wanted args).bind fun _ => site
    rwa [List.append_nil] at all
termination_by structural e

theorem exprs_sends (c : EmitContext) (wanted : c.options.debugInfo = true) (es : List Expr) :
    Sends (Expr.sendsAll es) (Expr.blocksAll es) (exprs c es) := by
  cases es with
  | nil => exact sends_pure ()
  | cons e rest => exact (expr_sends c wanted e).bind fun _ => exprs_sends c wanted rest
termination_by structural es

theorem stat_sends (c : EmitContext) (wanted : c.options.debugInfo = true) (s : Stat) :
    Sends s.sends s.blocks (stat c s) := by
  cases s with
  | expr value => exact expr_sends c wanted value
  | assign target value position =>
    have all := (sends_mark (c := c) position).then fun _ =>
      (expr_sends c wanted value).bind fun _ => sends_store (c := c) target
    rwa [List.append_nil, List.append_nil] at all
  | ret value position =>
    have all := (expr_sends c wanted value).bind fun _ =>
      (sends_mark (c := c) position).then fun _ => sends_instruction (i := .ret) rfl
    rwa [List.append_nil, List.append_nil] at all
termination_by structural s

theorem stats_sends (c : EmitContext) (wanted : c.options.debugInfo = true) (ss : List Stat) :
    Sends (Stat.sendsAll ss) (Stat.blocksAll ss) (stats c ss) := by
  cases ss with
  | nil => exact sends_pure ()
  | cons s rest =>
    exact (stat_sends c wanted s).bind fun _ => statsAfter_sends c wanted _ rest
termination_by structural ss

theorem statsAfter_sends (c : EmitContext) (wanted : c.options.debugInfo = true)
    (previous : Option Position) (ss : List Stat) :
    Sends (Stat.sendsAll ss) (Stat.blocksAll ss) (statsAfter c previous ss) := by
  cases ss with
  | nil => exact sends_pure ()
  | cons s rest =>
    exact (sends_instruction rfl).then fun _ => (sends_warnAfter previous).then fun _ =>
      (stat_sends c wanted s).bind fun _ => statsAfter_sends c wanted _ rest
termination_by structural ss

end

/-! ### Methods and main bodies -/

/-- A body is compiled into a block that announces its sends, with a table of its block literals. -/
theorem withTable_sends {build : Emit Unit} {b : Block} (builds : Sends ss bs build)
    (h : withTable c build g = .ok b g') :
    (∃ is, Reads b.bytecode 0 is b.bytecode.size ∧ Announces b.literals ss is)
      ∧ ∀ e ∈ bs, Entered b.blocks e := by
  obtain ⟨t, t', hbuild, fresh, valid, compiledOf⟩ := withTable_eq_ok h
  obtain ⟨is, whole, announced⟩ := builds t () t' hbuild valid
  obtain ⟨-, bytes, inner⟩ := compiledOf (whole.valid valid)
  obtain ⟨code, entered⟩ := announced _ _ inner
  exact ⟨⟨_, reads_fresh fresh whole bytes, code⟩, entered⟩

/-- A body announces its sends, and so does every block literal in it. -/
theorem outlined_of_announced {options : CompilerOptions} {tree : ScopeTree} {fields : Nat}
    {scope : ScopeId} {stats : List Stat} {b : Block} (wanted : options.debugInfo = true)
    (resolved : BodyScoped tree fields scope stats)
    (whole : Whole options (indices (Stat.blocksAll stats)) b)
    (code : ∃ is, Reads b.bytecode 0 is b.bytecode.size
      ∧ Announces b.literals (Stat.sendsAll stats) is)
    (entered : ∀ e ∈ Stat.blocksAll stats, Entered b.blocks e) :
    b.Outlined options.fileName (Stat.outline stats) := by
  refine ⟨⟨code, fun _ => whole.outer.file wanted⟩, fun k b' hk => ?_⟩
  obtain ⟨closed, number⟩ := whole.nested k b' hk
  obtain ⟨e, he, rfl⟩ := List.mem_map.1 number
  obtain ⟨compiled, here, none, code'⟩ := entered e he
  cases hk.symm.trans here
  refine ⟨none, Stat.sendsAll e.2, ?_, code', fun _ => closed.file wanted⟩
  have place : (Stat.blocksAll stats)[e.1.index.toNat]? = some e :=
    Stat.Scoped.known_all stats resolved e he
  simp only [Stat.outline, blockSends, List.getElem?_map, place, Option.map_some]

/-- **A compiled method has the sends of its outline**, each announced with its position. -/
theorem method_outlined {tree : ScopeTree} {options : CompilerOptions} {fields : Nat} {m : Method}
    {b : Block} (wanted : options.debugInfo = true) (resolved : MethodScoped tree fields m)
    (h : method tree options m g = .ok b g') :
    b.Outlined options.fileName (Stat.outline m.stats) := by
  obtain ⟨scope, opened, primitive, -⟩ := method_code h
  cases hm : m.kind with
  | primitive tag =>
    obtain ⟨p, isPrimitive⟩ := primitive tag hm
    simp only [Method.stats, hm]
    refine ⟨⟨⟨[], ?_, .nil⟩, fun hne => absurd rfl hne⟩, fun k b' hk => ?_⟩
    · rw [isPrimitive.bytecode]
      exact .nil 0
    · simp [isPrimitive.blocks] at hk
  | code body =>
    have whole := method_whole hm h
    have inside := resolved.body scope body opened hm
    obtain ⟨_, t₀, hscope, hkind⟩ := EStateM.bind_eq_ok.1 h
    obtain ⟨rfl, same⟩ := scopeOf_eq_ok hscope
    cases opened.symm.trans same
    rw [hm] at hkind
    obtain ⟨compiled, t₁, htable, hlast⟩ := EStateM.bind_eq_ok.1 hkind
    obtain ⟨_, t₂, hlog, ⟨⟩⟩ := EStateM.bind_eq_ok.1 hlast
    have self : Sends [] [] (do instruction .pushSelf; instruction .ret : Emit Unit) :=
      (sends_instruction rfl).then fun _ => sends_instruction rfl
    have ending : Sends [] [] (do
        mark ⟨tree, options, scope⟩ body.stop.before
        if !body.stats.isEmpty then instruction .pop
        instruction .pushSelf
        instruction .ret : Emit Unit) := by
      refine (sends_mark _).then fun _ => ?_
      split
      · exact (sends_instruction rfl).then fun _ => self
      · exact self
    have all := (stats_sends ⟨tree, options, scope⟩ wanted body.stats).bind fun _ => ending
    rw [List.append_nil, List.append_nil] at all
    obtain ⟨code, entered⟩ := withTable_sends all htable
    simp only [Method.stats, hm]
    exact outlined_of_announced wanted inside whole code entered

/-- **A compiled main body has the sends of its outline.** -/
theorem mainBody_outlined {tree : ScopeTree} {options : CompilerOptions} {fields : Nat}
    {m : MainBody} {b : Block} (wanted : options.debugInfo = true)
    (resolved : MainScoped tree fields m) (h : mainBody tree options m g = .ok b g') :
    b.Outlined options.fileName (Stat.outline m.body.stats) := by
  have whole := mainBody_whole h
  obtain ⟨scope, t₀, hscope, hrest⟩ := EStateM.bind_eq_ok.1 h
  obtain ⟨rfl, opened⟩ := scopeOf_eq_ok hscope
  obtain ⟨compiled, t₁, htable, hlast⟩ := EStateM.bind_eq_ok.1 hrest
  obtain ⟨_, t₂, hlog, ⟨⟩⟩ := EStateM.bind_eq_ok.1 hlast
  have ending : Sends [] [] (do
      if m.body.stats.isEmpty then instruction .pushSelf
      mark ⟨tree, options, scope⟩ m.body.stop
      instruction .ret : Emit Unit) :=
    sends_ifEmpty rfl ((sends_mark _).then fun _ => sends_instruction rfl)
  have all := (stats_sends ⟨tree, options, scope⟩ wanted m.body.stats).bind fun _ => ending
  rw [List.append_nil, List.append_nil] at all
  obtain ⟨code, entered⟩ := withTable_sends all htable
  exact outlined_of_announced wanted (resolved.body scope opened) whole code entered

end Emit

/-! ## Programs -/

/-- The methods of classes have the sends of their outlines. -/
theorem Emit.classes_outlined {tree : ScopeTree} {options : CompilerOptions} {cs : List ClassDef}
    {cs' : List CompiledClass} {layouts layouts' : Layouts} (wanted : options.debugInfo = true)
    (resolved : ClassesScoped tree layouts cs layouts')
    (code : List.Forall₂ (ClassCode (Makes tree options)) cs cs') :
    List.Forall₂ (fun o b => Block.Outlined options.fileName o b)
      (cs.flatMap (·.methods.map fun m => Stat.outline m.stats)) (cs'.flatMap (·.methods)) := by
  induction resolved generalizing cs' with
  | nil =>
    cases code
    exact .nil
  | @cons layouts layouts' c rest fields first _ ih =>
    cases code with
    | @cons _ c' _ rest' head tail =>
      rw [List.flatMap_cons, List.flatMap_cons]
      refine List.rel_append ?_ (ih tail)
      rw [List.forall₂_map_left_iff]
      have each := (List.forall₂_and_left _ _).2 ⟨first.methods, head.methods⟩
      refine each.imp fun m b hb => ?_
      obtain ⟨inside, _, _, made⟩ := hb
      exact method_outlined wanted inside made

/-- **The methods of an accepted program have the sends of their outlines**, in the order of their
numbers, each announced with its position. -/
theorem compileBare_outlined {options : CompilerOptions} {p : Program} {compiled : CompiledProgram}
    {log : Log} (wanted : options.debugInfo = true)
    (accepted : compileBare options p = (log, .ok compiled)) :
    List.Forall₂ (fun o b => Block.Outlined options.fileName o b) p.outlines
      (compiled.classes.flatMap (·.methods)) := by
  obtain ⟨_, _, r, resolved, generated⟩ := Direct.compileBare_eq_ok accepted
  obtain ⟨layouts, classes, main⟩ := resolve_scoped resolved
  rw [← resolve_outlines resolved, Program.outlines]
  obtain ⟨cs, g, hcs, rfl⟩ := Direct.generate_eq_ok generated
  obtain ⟨made, each, without, with_⟩ := Emit.program_makes hcs
  have outlined := Emit.classes_outlined wanted classes each
  cases hmain : r.program.main with
  | none =>
    cases without hmain
    simpa using outlined
  | some m =>
    obtain ⟨b, _, _, hb, rfl⟩ := with_ m hmain
    rw [List.flatMap_append]
    refine List.rel_append outlined (.cons ?_ .nil)
    exact Emit.mainBody_outlined wanted (main m hmain) hb

end Colloquy
