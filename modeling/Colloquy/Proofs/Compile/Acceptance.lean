import Colloquy.Proofs.Compile.Addressing

/-!
# Which programs can be resolved

Resolution stops at the first fault that it comes to, in the order of its walk.  Which programs it
gets through can be said without that order (`Program.WellFormed`): names are given once,
superclasses come before their subclasses, and whatever is numbered by shorts is not too much.

`Resolve.Needs` says what a part of the walk depends on: a condition on the tree alone, and numbers
for its block literals.

Main statement: `resolves_iff_wellFormed`.
-/

namespace Colloquy

/-! ## Well-formed programs -/

/-- Arguments and locals that can have slots of their own. -/
structure Declarable (args locals : List String) : Prop where
  distinct : (args ++ locals).Nodup
  few : (args ++ locals).length ≤ 65535

/-- The block literals of a body declare their variables rightly, and are not too many. -/
structure BlocksFormed (stats : List Stat) : Prop where
  declare : ∀ b ∈ Stat.blocksAll stats, Declarable b.1.args b.1.locals
  few : (Stat.blocksAll stats).length ≤ 65535

/-- A method that the machine carries out itself declares arguments and locals too. -/
structure Method.Formed (m : Method) : Prop where
  declares : Declarable m.args m.locals
  blocks : BlocksFormed m.stats

structure MainBody.Formed (m : MainBody) : Prop where
  declares : Declarable [] m.locals
  blocks : BlocksFormed m.body.stats

/-- A class, given the fields that it inherits. -/
structure ClassDef.Formed (inherited : List String) (c : ClassDef) : Prop where
  distinct : c.fields.Nodup
  own : ∀ f ∈ c.fields, f ∉ inherited
  few : (inherited ++ c.fields).length ≤ 65535
  /-- A selector is given once, be it to the class or to its instances. -/
  selectors : (c.methods.map (·.selector)).Nodup
  methods : ∀ m ∈ c.methods, m.Formed

/-- The fields that a class inherits, with the classes before it given last first. -/
def ClassDef.inheritedFields (before : List ClassDef) (c : ClassDef) : List String :=
  match Resolve.superclassOf c with
  | none => []
  | some above => ClassDef.allFields before above

/-- The names of classes. -/
def ClassDef.names (cs : List ClassDef) : List String := cs.map (·.name)

/-- What is asked of a program for its names to be resolved. -/
structure Program.WellFormed (p : Program) : Prop where
  distinct : (ClassDef.names p.classes).Nodup
  mainName : p.main.isSome → mainClass ∉ ClassDef.names p.classes
  root : ∀ before c after, p.classes = before ++ c :: after → c.superclass = none →
    c.name ≠ rootClass → rootClass ∈ ClassDef.names before
  superclass : ∀ before c after above, p.classes = before ++ c :: after →
    c.superclass = some above → above ∈ ClassDef.names before
  classes : ∀ c ∈ p.classes, c.Formed (c.inheritedFields p.classes.reverse)
  main : ∀ m, p.main = some m → m.Formed

namespace Resolve

variable {α β : Type} {σ σ' : Resolver} {fields : List String} {selector : String}

/-! ## What a part of the walk needs -/

/-- The step comes to a result. -/
def Succeeds (x : Resolve α) (σ : Resolver) : Prop := ∃ a σ', x σ = .ok a σ'

theorem succeeds_bind {x : Resolve α} {f : α → Resolve β} :
    Succeeds (x >>= f) σ ↔ ∃ a σ', x σ = .ok a σ' ∧ Succeeds (f a) σ' := by
  constructor
  · rintro ⟨b, σ'', h⟩
    obtain ⟨a, σ', first, later⟩ := EStateM.bind_eq_ok.1 h
    exact ⟨a, σ', first, b, σ'', later⟩
  · rintro ⟨a, σ', first, b, σ'', later⟩
    exact ⟨b, σ'', EStateM.bind_eq_ok.2 ⟨a, σ', first, later⟩⟩

/-- The step comes to a result just if `ok` and there are `n` numbers left for block literals; it
takes these. -/
structure Needs (x : Resolve α) (n : Nat) (ok : Prop) : Prop where
  succeeds : ∀ σ, σ.nextBlock ≤ maxSlots → (Succeeds x σ ↔ ok ∧ σ.nextBlock + n ≤ maxSlots)
  next : ∀ σ a σ', x σ = .ok a σ' → σ'.nextBlock = σ.nextBlock + n

theorem Needs.congr {x : Resolve α} {n k : Nat} {ok ok' : Prop} (h : Needs x n ok) (count : n = k)
    (same : ok ↔ ok') : Needs x k ok' := by
  subst count
  exact ⟨fun σ room => (h.succeeds σ room).trans (and_congr_left' same), h.next⟩

/-- One step after another. -/
theorem Needs.bind {x : Resolve α} {f : α → Resolve β} {n k : Nat} {ok ok' : Prop}
    (first : Needs x n ok) (later : ∀ a, Needs (f a) k ok') :
    Needs (x >>= f) (n + k) (ok ∧ ok') := by
  refine ⟨fun σ room => ?_, fun σ b σ'' h => ?_⟩
  · rw [succeeds_bind]
    constructor
    · rintro ⟨a, σ', h, succeeds⟩
      obtain ⟨here, few⟩ := (first.succeeds σ room).1 ⟨a, σ', h⟩
      have next := first.next σ a σ' h
      obtain ⟨there, more⟩ := ((later a).succeeds σ' (next ▸ few)).1 succeeds
      exact ⟨⟨here, there⟩, by omega⟩
    · rintro ⟨⟨here, there⟩, few⟩
      obtain ⟨a, σ', h⟩ := (first.succeeds σ room).2 ⟨here, by omega⟩
      have next := first.next σ a σ' h
      exact ⟨a, σ', h, ((later a).succeeds σ' (by omega)).2 ⟨there, by omega⟩⟩
  · obtain ⟨a, σ', h, h'⟩ := EStateM.bind_eq_ok.1 h
    rw [(later a).next σ' b σ'' h', first.next σ a σ' h, Nat.add_assoc]

theorem needs_pure (a : α) : Needs (pure a) 0 True := by
  refine ⟨fun σ room => ⟨fun _ => ⟨trivial, room⟩, fun _ => ⟨a, σ, rfl⟩⟩, fun σ b σ' h => ?_⟩
  cases h
  rfl

/-- What is made of a result does not matter. -/
theorem Needs.map {x : Resolve α} {n : Nat} {ok : Prop} (h : Needs x n ok) (f : α → β) :
    Needs (do return f (← x)) n ok :=
  (h.bind fun a => needs_pure (f a)).congr rfl (and_iff_left trivial)

/-- None of the names is among those seen before, and none comes twice. -/
def New (names seen : List String) : Prop := names.Nodup ∧ ∀ name ∈ names, name ∉ seen

theorem new_cons {name : String} {rest seen : List String} :
    New (name :: rest) seen ↔ name ∉ seen ∧ New rest (name :: seen) := by
  have apart : (∀ other ∈ rest, other ∉ name :: seen) ↔
      name ∉ rest ∧ ∀ other ∈ rest, other ∉ seen := by
    simp only [List.mem_cons, not_or, forall_and, and_congr_left_iff]
    intro _
    exact ⟨fun h there => h name there rfl, fun h other there same => h (same ▸ there)⟩
  rw [New, New, List.nodup_cons, List.forall_mem_cons, apart]
  tauto

/-- Variables pass if they are new, and there is room for all. -/
theorem checkVars_eq_ok_iff {scope : String} {vars seen : List String} {count : Nat}
    (room : count ≤ maxSlots) : checkVars scope vars seen count = .ok () ↔
      New vars seen ∧ count + vars.length ≤ maxSlots := by
  induction vars generalizing seen count with
  | nil => simpa [checkVars, New] using room
  | cons v rest ih =>
    rw [checkVars, new_cons, List.length_cons]
    by_cases old : v ∈ seen
    · simp [old]
    · by_cases full : count ≥ maxSlots
      · rw [if_neg (by simpa using old), if_pos full]
        refine iff_of_false (fun h => ?_) fun h => ?_
        · cases h
        · omega
      · rw [if_neg (by simpa using old), if_neg full, ih (by omega), and_iff_right old]
        exact and_congr_right fun _ => by omega

/-- **A scope for code can be opened** if its variables can have slots. -/
theorem succeeds_openCode {name : String} {kind : ScopeKind} {parent : ScopeId}
    {args locals : List String} :
    Succeeds (openCode name kind parent args locals) σ ↔ Declarable args locals := by
  have checked : checkVars (σ.tree.qualify (some parent) name) (args ++ locals) [] 0 = .ok () ↔
      Declarable args locals := by
    rw [checkVars_eq_ok_iff (Nat.zero_le _), Nat.zero_add]
    constructor
    · rintro ⟨⟨distinct, -⟩, few⟩
      exact ⟨distinct, few⟩
    · intro h
      exact ⟨⟨h.distinct, fun _ _ => List.not_mem_nil⟩, h.few⟩
  rw [← checked]
  constructor
  · rintro ⟨scope, σ', h⟩
    obtain ⟨_, _, ⟨⟩, h⟩ := EStateM.bind_eq_ok.1 h
    obtain ⟨_, _, vars, -⟩ := EStateM.bind_eq_ok.1 h
    exact (check_eq_ok.1 vars).1
  · intro vars
    refine ⟨_, _, EStateM.bind_eq_ok.2 ⟨_, _, rfl, EStateM.bind_eq_ok.2 ⟨(), σ, ?_, rfl⟩⟩⟩
    exact check_eq_ok.2 ⟨vars, rfl⟩

theorem needs_openCode {name : String} {kind : ScopeKind} {parent : ScopeId}
    {args locals : List String} :
    Needs (openCode name kind parent args locals) 0 (Declarable args locals) :=
  ⟨fun _ room => succeeds_openCode.trans (and_iff_left room).symm,
    fun _ _ _ h => (openCode_eq_ok h).1.next⟩

theorem needs_takeBlockIndex : Needs takeBlockIndex 1 True := by
  refine ⟨fun σ _ => ?_, fun σ index σ' h => ?_⟩
  · rw [true_and, Nat.succ_le_iff]
    constructor
    · rintro ⟨index, σ', h⟩
      obtain ⟨_, _, ⟨⟩, taken⟩ := EStateM.bind_eq_ok.1 h
      by_contra full
      rw [if_neg full] at taken
      cases taken
    · intro room
      refine ⟨σ.nextBlock.toUInt16, { σ with nextBlock := σ.nextBlock + 1 },
        EStateM.bind_eq_ok.2 ⟨σ, σ, rfl, ?_⟩⟩
      rw [if_pos room]
      rfl
  · rw [(takeBlockIndex_eq_ok h).2]

theorem needs_openBlock {chain : ScopeChain} {head : BlockHead} :
    Needs (openBlock selector chain head) 1 (Declarable head.args head.locals) :=
  (needs_takeBlockIndex.bind fun _ => needs_openCode.bind fun _ => needs_pure _).congr rfl (by simp)

/-! ## Expressions and statements -/

/-- What the block literals of a tree need. -/
abbrev AllDeclare (blocks : List (BlockHead × List Stat)) : Prop :=
  ∀ b ∈ blocks, Declarable b.1.args b.1.locals

mutual

/-- **An expression can be resolved** if its block literals can be opened and numbered. -/
theorem expr_needs (chain : ScopeChain) (e : Expr) :
    Needs (expr fields selector chain e) e.blocks.length (AllDeclare e.blocks) := by
  cases e with
  | literal value => exact (needs_pure _).congr rfl (iff_of_true trivial (List.forall_mem_nil _))
  | self => exact (needs_pure _).congr rfl (iff_of_true trivial (List.forall_mem_nil _))
  | ident name => exact (needs_pure _).congr rfl (iff_of_true trivial (List.forall_mem_nil _))
  | array items => exact (exprs_needs chain items []).map _
  | block head body =>
    refine Needs.congr
      (needs_openBlock.bind fun opened => (stats_needs opened.2 body []).map _) ?_ ?_
    · exact Nat.add_comm _ _
    · rw [AllDeclare, AllDeclare, Expr.blocks, List.forall_mem_cons]
  | send receiver message args position =>
    refine Needs.congr ((expr_needs chain receiver).bind fun _ => (exprs_needs chain args []).map _)
      ?_ ?_
    · exact List.length_append.symm
    · exact List.forall_mem_append.symm
  | superSend message args position => exact (exprs_needs chain args []).map _

theorem exprs_needs (chain : ScopeChain) (es done : List Expr) :
    Needs (exprs fields selector chain es done) (Expr.blocksAll es).length
      (AllDeclare (Expr.blocksAll es)) := by
  cases es with
  | nil => exact (needs_pure _).congr rfl (iff_of_true trivial (List.forall_mem_nil _))
  | cons e rest =>
    refine Needs.congr ((expr_needs chain e).bind fun e' => exprs_needs chain rest (e' :: done))
      ?_ ?_
    · exact List.length_append.symm
    · exact List.forall_mem_append.symm

theorem stat_needs (chain : ScopeChain) (s : Stat) :
    Needs (stat fields selector chain s) s.blocks.length (AllDeclare s.blocks) := by
  cases s with
  | expr value => exact (expr_needs chain value).map _
  | assign target value position => exact (expr_needs chain value).map _
  | ret value position => exact (expr_needs chain value).map _

theorem stats_needs (chain : ScopeChain) (ss done : List Stat) :
    Needs (stats fields selector chain ss done) (Stat.blocksAll ss).length
      (AllDeclare (Stat.blocksAll ss)) := by
  cases ss with
  | nil => exact (needs_pure _).congr rfl (iff_of_true trivial (List.forall_mem_nil _))
  | cons s rest =>
    refine Needs.congr ((stat_needs chain s).bind fun s' => stats_needs chain rest (s' :: done))
      ?_ ?_
    · exact List.length_append.symm
    · exact List.forall_mem_append.symm

end

/-! ## Methods, classes and programs -/

/-- **A body can be resolved** if its block literals are well formed: they are numbered from
zero. -/
theorem succeeds_body {scope : ScopeId × List String} {b : Body} :
    Succeeds (body fields selector scope b) σ ↔ BlocksFormed b.stats := by
  have started : Succeeds (body fields selector scope b) σ ↔
      Succeeds (do return { b with stats := ← stats fields selector [scope] b.stats [] })
        { σ with nextBlock := 0 } := by
    unfold body
    rw [succeeds_bind]
    constructor
    · rintro ⟨_, _, ⟨⟩, h⟩
      exact h
    · intro h
      exact ⟨_, _, rfl, h⟩
  rw [started, ((stats_needs [scope] b.stats []).map _).succeeds _ (Nat.zero_le _), Nat.zero_add]
  constructor
  · rintro ⟨declare, few⟩
    exact ⟨declare, few⟩
  · intro formed
    exact ⟨formed.declare, formed.few⟩

/-- What comes after a step does not matter if it never fails. -/
theorem succeeds_first {x : Resolve α} {f : α → Resolve β} (always : ∀ a τ, Succeeds (f a) τ) :
    Succeeds (x >>= f) σ ↔ Succeeds x σ := by
  rw [succeeds_bind]
  constructor
  · rintro ⟨a, σ', h, -⟩
    exact ⟨a, σ', h⟩
  · rintro ⟨a, σ', h⟩
    exact ⟨a, σ', h, always a σ'⟩

/-- A step behind a check that must not find anything. -/
theorem succeeds_unless {c : Prop} [Decidable c] {e : CompileError} {f : α → Resolve β}
    {x : Resolve β} : Succeeds (if c then throw e >>= f else x) σ ↔ ¬ c ∧ Succeeds x σ := by
  by_cases found : c
  · rw [if_pos found, succeeds_bind]
    refine iff_of_false ?_ fun h => h.1 found
    rintro ⟨_, _, ⟨⟩, _⟩
  · rw [if_neg found, and_iff_right found]

theorem succeeds_check {x : Except CompileError α} {f : α → Resolve β} :
    Succeeds (check x >>= f) σ ↔ ∃ a, x = .ok a ∧ Succeeds (f a) σ := by
  rw [succeeds_bind]
  constructor
  · rintro ⟨a, σ', h, later⟩
    obtain ⟨passed, rfl⟩ := check_eq_ok.1 h
    exact ⟨a, passed, later⟩
  · rintro ⟨a, passed, later⟩
    exact ⟨a, σ, check_eq_ok.2 ⟨passed, rfl⟩, later⟩

/-- Something inside a scope for code, where success does not hang on what went before. -/
theorem succeeds_in_code {name : String} {kind : ScopeKind} {parent : ScopeId}
    {args locals : List String} {f : ScopeId × List String → Resolve α} {ok : Prop}
    (inside : ∀ scope τ, Succeeds (f scope) τ ↔ ok) :
    Succeeds (openCode name kind parent args locals >>= f) σ ↔ Declarable args locals ∧ ok := by
  rw [succeeds_bind]
  constructor
  · rintro ⟨scope, τ, opened, h⟩
    exact ⟨succeeds_openCode.1 ⟨scope, τ, opened⟩, (inside scope τ).1 h⟩
  · rintro ⟨declares, h⟩
    obtain ⟨scope, τ, opened⟩ := succeeds_openCode.2 declares
    exact ⟨scope, τ, opened, (inside scope τ).2 h⟩

theorem succeeds_method {className : String} {classScope : ScopeId}
    {seen : Std.HashMap String Unit} {m : Method} :
    Succeeds (method className classScope fields seen m) σ ↔
      seen.contains m.selector = false ∧ m.Formed := by
  refine succeeds_unless.trans (and_congr (Bool.not_eq_true _).to_iff ?_)
  refine (succeeds_in_code fun scope τ => ?_ : _ ↔ _ ∧ BlocksFormed m.stats).trans ?_
  · rw [Method.stats]
    cases m.kind with
    | primitive tag => exact iff_of_true ⟨_, _, rfl⟩ ⟨List.forall_mem_nil _, Nat.zero_le _⟩
    | code b => exact (succeeds_first fun _ _ => ⟨_, _, rfl⟩).trans succeeds_body
  · constructor
    · rintro ⟨declares, blocks⟩
      exact ⟨declares, blocks⟩
    · intro formed
      exact ⟨formed.declares, formed.blocks⟩

theorem method_selector {className : String} {classScope : ScopeId}
    {seen : Std.HashMap String Unit} {m m' : Method}
    (h : method className classScope fields seen m σ = .ok m' σ') : m'.selector = m.selector := by
  rw [method] at h
  split at h
  · obtain ⟨_, _, ⟨⟩, _⟩ := EStateM.bind_eq_ok.1 h
  · obtain ⟨scope, τ, -, h⟩ := EStateM.bind_eq_ok.1 h
    cases kind : m.kind with
    | primitive tag =>
      rw [kind] at h
      cases h
      rfl
    | code b =>
      rw [kind] at h
      obtain ⟨_, _, -, h⟩ := EStateM.bind_eq_ok.1 h
      cases h
      rfl

/-- **Methods can be resolved** if their selectors are new and each is well formed. -/
theorem succeeds_methods {className : String} {classScope : ScopeId} {ms done : List Method}
    {seen : Std.HashMap String Unit} {selectors : List String}
    (same : ∀ selector, selector ∈ seen ↔ selector ∈ selectors) :
    Succeeds (methods className classScope fields ms seen done) σ ↔
      New (ms.map (·.selector)) selectors ∧ ∀ m ∈ ms, m.Formed := by
  induction ms generalizing σ seen done selectors with
  | nil =>
    exact iff_of_true ⟨_, _, rfl⟩
      ⟨⟨List.nodup_nil, List.forall_mem_nil _⟩, List.forall_mem_nil _⟩
  | cons m rest ih =>
    have later {m' : Method} {τ : Resolver}
        (h : method className classScope fields seen m σ = .ok m' τ) :
        Succeeds (methods className classScope fields rest (seen.insert m'.selector ())
          (m' :: done)) τ ↔
          New (rest.map (·.selector)) (m.selector :: selectors) ∧ ∀ m ∈ rest, m.Formed := by
      refine ih fun selector => ?_
      rw [method_selector h, Std.HashMap.mem_insert, beq_iff_eq, same, List.mem_cons, eq_comm]
    have unseen : seen.contains m.selector = false ↔ m.selector ∉ selectors := by
      rw [← same, ← Std.HashMap.contains_iff_mem, Bool.not_eq_true]
    rw [methods, succeeds_bind, List.map_cons, new_cons, List.forall_mem_cons]
    constructor
    · rintro ⟨m', τ, h, others⟩
      obtain ⟨new, formed⟩ := succeeds_method.1 ⟨m', τ, h⟩
      obtain ⟨distinct, each⟩ := (later h).1 others
      exact ⟨⟨unseen.1 new, distinct⟩, formed, each⟩
    · rintro ⟨⟨new, distinct⟩, formed, each⟩
      obtain ⟨m', τ, h⟩ := succeeds_method.2 ⟨unseen.2 new, formed⟩
      exact ⟨m', τ, h, (later h).2 ⟨distinct, each⟩⟩

/-- **Fields can be added** if they are new. -/
theorem addFields_eq_ok_iff {className : String} {own all result : List String} :
    addFields className own all = .ok result ↔ New own all ∧ result = all.reverse ++ own := by
  induction own generalizing all with
  | nil => simp [addFields, New, eq_comm]
  | cons f rest ih =>
    rw [addFields, new_cons]
    by_cases old : f ∈ all
    · simp [old]
    · rw [if_neg (by simpa using old), ih, and_iff_right old, List.reverse_cons, List.append_assoc,
        List.singleton_append]

/-- The classes so far, last first, are those that the text has. -/
structure Lists (σ : Resolver) (before : List ClassDef) : Prop where
  knows : Knows σ before
  named : ∀ name, σ.layouts[name]?.isSome ↔ name ∈ ClassDef.names before

/-- What is asked of a class, given those before it. -/
structure Follows (before : List ClassDef) (c : ClassDef) : Prop where
  new : c.name ∉ ClassDef.names before
  known : ∀ above, superclassOf c = some above → above ∈ ClassDef.names before
  formed : c.Formed (c.inheritedFields before)

/-- The fields that are inherited are found if the superclass is known. -/
theorem Lists.inheritedFields_eq_ok_iff {before : List ClassDef} (lists : Lists σ before)
    {c : ClassDef} {inherited : List String} :
    inheritedFields σ.layouts c = .ok inherited ↔
      (∀ above, superclassOf c = some above → above ∈ ClassDef.names before)
        ∧ inherited = c.inheritedFields before := by
  rw [inheritedFields, ClassDef.inheritedFields]
  cases superclassOf c with
  | none => simp [eq_comm]
  | some above =>
    have named := lists.named above
    have fields := lists.knows above
    rw [Std.HashMap.getD_eq_getD_getElem?] at fields
    cases found : σ.layouts[above]? with
    | none => simp_all
    | some known => simp_all [eq_comm]

/-- **A class can be resolved** if it goes with those before it. -/
theorem succeeds_cls {before : List ClassDef} (lists : Lists σ before) {c : ClassDef} :
    Succeeds (cls c) σ ↔ Follows before c := by
  have absent : ¬ σ.layouts.contains c.name ↔ c.name ∉ ClassDef.names before := by
    rw [Std.HashMap.contains_eq_isSome_getElem?, lists.named]
  have checks : Succeeds (cls c) σ ↔ c.name ∉ ClassDef.names before
      ∧ ∃ inherited, inheritedFields σ.layouts c = .ok inherited
        ∧ ∃ fields, addFields c.name c.fields inherited.reverse = .ok fields
          ∧ ¬ fields.length > maxSlots
          ∧ New (c.methods.map (·.selector)) [] ∧ ∀ m ∈ c.methods, m.Formed := by
    refine succeeds_unless.trans (and_congr absent ?_)
    refine succeeds_check.trans (exists_congr fun inherited => and_congr_right fun _ => ?_)
    refine succeeds_check.trans (exists_congr fun fields => and_congr_right fun _ => ?_)
    refine succeeds_unless.trans (and_congr_right fun _ => ?_)
    change Succeeds (methods c.name _ fields c.methods {} [] >>= _) _ ↔ _
    exact (succeeds_first fun _ _ => ⟨_, _, rfl⟩).trans (succeeds_methods fun _ => by simp)
  rw [checks]
  constructor
  · rintro ⟨new, inherited, found, fields, added, room, ⟨selectors, -⟩, methods⟩
    obtain ⟨known, rfl⟩ := lists.inheritedFields_eq_ok_iff.1 found
    obtain ⟨⟨distinct, own⟩, rfl⟩ := addFields_eq_ok_iff.1 added
    rw [List.reverse_reverse] at room
    exact ⟨new, known, distinct, by simpa using own, Nat.not_lt.1 room, selectors, methods⟩
  · rintro ⟨new, known, formed⟩
    refine ⟨new, _, lists.inheritedFields_eq_ok_iff.2 ⟨known, rfl⟩, _,
      addFields_eq_ok_iff.2 ⟨⟨formed.distinct, by simpa using formed.own⟩, rfl⟩, ?_,
      ⟨formed.selectors, fun _ _ => List.not_mem_nil⟩, formed.methods⟩
    rw [List.reverse_reverse]
    exact Nat.not_lt.2 formed.few

theorem Lists.cls {before : List ClassDef} (lists : Lists σ before) {c c' : ClassDef}
    (h : cls c σ = .ok c' σ') : Lists σ' (c :: before) := by
  obtain ⟨-, _, -, -, named, -⟩ := cls_laid h
  refine ⟨(cls_knows lists.knows h).1, fun name => ?_⟩
  rw [named, lists.named, ClassDef.names, ClassDef.names, List.map_cons, List.mem_cons]

/-- A property of every place in a list, taken from the front. -/
theorem forall_split_cons {P : List α → α → Prop} {a : α} {as : List α} :
    (∀ before b after, a :: as = before ++ b :: after → P before b) ↔
      P [] a ∧ ∀ before b after, as = before ++ b :: after → P (a :: before) b := by
  constructor
  · intro h
    refine ⟨h [] a as rfl, fun before b after split => h (a :: before) b after ?_⟩
    rw [split, List.cons_append]
  · rintro ⟨first, later⟩ before b after split
    cases before with
    | nil =>
      cases split
      exact first
    | cons c before =>
      obtain ⟨rfl, rest⟩ := List.cons.inj split
      exact later before b after rest

/-- **Classes can be resolved** if each goes with those before it. -/
theorem succeeds_classes {before cs done : List ClassDef} (lists : Lists σ before) :
    Succeeds (classes cs done) σ ↔
      ∀ earlier c later, cs = earlier ++ c :: later → Follows (earlier.reverse ++ before) c := by
  induction cs generalizing σ done before with
  | nil => exact iff_of_true ⟨_, _, rfl⟩ (by simp)
  | cons c rest ih =>
    rw [classes, succeeds_bind, forall_split_cons]
    simp only [List.reverse_nil, List.nil_append, List.reverse_cons, List.append_assoc,
      List.singleton_append]
    constructor
    · rintro ⟨c', τ, h, others⟩
      exact ⟨(succeeds_cls lists).1 ⟨c', τ, h⟩, (ih (lists.cls h)).1 others⟩
    · rintro ⟨first, others⟩
      obtain ⟨c', τ, h⟩ := (succeeds_cls lists).2 first
      exact ⟨c', τ, h, (ih (lists.cls h)).2 others⟩

theorem succeeds_mainBody {m : MainBody} :
    Succeeds (mainBody m) σ ↔ ¬ σ.layouts.contains mainClass ∧ m.Formed := by
  refine succeeds_unless.trans (and_congr_right fun _ => ?_)
  change Succeeds (openCode mainSelector (.method false) _ [] m.locals >>= _) _ ↔ _
  refine (succeeds_in_code fun scope τ =>
    (succeeds_first fun _ _ => ⟨_, _, rfl⟩).trans succeeds_body).trans ?_
  constructor
  · rintro ⟨declares, blocks⟩
    exact ⟨declares, blocks⟩
  · intro formed
    exact ⟨formed.declares, formed.blocks⟩

theorem Lists.classes {before cs done cs' : List ClassDef} (lists : Lists σ before)
    (h : classes cs done σ = .ok cs' σ') : Lists σ' (cs.reverse ++ before) := by
  induction cs generalizing σ done before with
  | nil =>
    cases h
    exact lists
  | cons c rest ih =>
    obtain ⟨c', τ, hc, hrest⟩ := EStateM.bind_eq_ok.1 h
    rw [List.reverse_cons, List.append_assoc]
    exact ih (lists.cls hc) hrest

theorem succeeds_program {p : Program} : Succeeds (program p) {} ↔
    (∀ before c after, p.classes = before ++ c :: after → Follows before.reverse c)
      ∧ ∀ m, p.main = some m → mainClass ∉ ClassDef.names p.classes ∧ m.Formed := by
  have start : Lists {} [] :=
    ⟨fun name => Std.HashMap.getD_empty, fun name => by simp [ClassDef.names]⟩
  have classes : Succeeds (classes p.classes []) {} ↔ _ := succeeds_classes start
  simp only [List.append_nil] at classes
  rw [← classes, program, succeeds_bind]
  cases hm : p.main with
  | none =>
    constructor
    · rintro ⟨cs, τ, h, -⟩
      refine ⟨⟨cs, τ, h⟩, fun m main => ?_⟩
      cases main
    · rintro ⟨⟨cs, τ, h⟩, -⟩
      exact ⟨cs, τ, h, _, _, rfl⟩
  | some m =>
    have last {cs : List ClassDef} {τ : Resolver}
        (h : Resolve.classes p.classes [] {} = .ok cs τ) :
        Succeeds (do return { classes := cs, main := some (← mainBody m) } : Resolve Program) τ
          ↔ mainClass ∉ ClassDef.names p.classes ∧ m.Formed := by
      have named := (start.classes h).named mainClass
      refine (succeeds_first fun _ _ => ⟨_, _, rfl⟩).trans (succeeds_mainBody.trans ?_)
      rw [Std.HashMap.contains_eq_isSome_getElem?, named]
      simp [ClassDef.names]
    constructor
    · rintro ⟨cs, τ, h, main⟩
      refine ⟨⟨cs, τ, h⟩, fun m' same => ?_⟩
      cases same
      exact (last h).1 main
    · rintro ⟨⟨cs, τ, h⟩, main⟩
      exact ⟨cs, τ, h, (last h).2 (main m rfl)⟩

end Resolve

/-! ## The order of classes -/

namespace ClassDef

variable {cs before after : List ClassDef} {c : ClassDef} {name : String}

/-- The fields of a class do not hang on classes of other names. -/
theorem allFields_append (away : name ∉ names after) :
    allFields (after ++ before) name = allFields before name := by
  induction after with
  | nil => rfl
  | cons c rest ih =>
    obtain ⟨other, away⟩ := not_or.1 (mt List.mem_cons.2 away)
    rw [List.cons_append, allFields, if_neg (Ne.symm other), ih away]

theorem mem_names_reverse : name ∈ names cs.reverse ↔ name ∈ names cs := by
  rw [names, List.map_reverse, List.mem_reverse, names]

/-- Names are distinct if each is new where it comes. -/
theorem nodup_names_iff : (names cs).Nodup ↔
    ∀ before c after, cs = before ++ c :: after → c.name ∉ names before := by
  constructor
  · rintro distinct before c after rfl there
    rw [names, List.map_append, List.map_cons] at distinct
    obtain ⟨-, -, apart⟩ := List.nodup_append.1 distinct
    exact apart _ there _ List.mem_cons_self rfl
  · intro new
    induction cs using List.reverseRecOn with
    | nil => exact List.nodup_nil
    | append_singleton cs c ih =>
      have earlier : (names cs).Nodup := by
        refine ih fun before d after split => new before d (after ++ [c]) ?_
        rw [split, List.append_assoc, List.cons_append]
      rw [names, List.map_append, List.map_singleton]
      refine List.nodup_append.2 ⟨earlier, List.pairwise_singleton _ _, fun name there => ?_⟩
      exact List.forall_mem_singleton.2 (ne_of_mem_of_not_mem there (new cs c [] rfl))

/-- The superclass of a class is known if the one that is given is, and else the root class. -/
theorem superclass_known_iff :
    (∀ above, Resolve.superclassOf c = some above → above ∈ names before) ↔
    (c.superclass = none → c.name ≠ rootClass → rootClass ∈ names before)
      ∧ ∀ above, c.superclass = some above → above ∈ names before := by
  rw [Resolve.superclassOf]
  cases c.superclass with
  | some above => simp
  | none => by_cases root : c.name = rootClass <;> simp [root]

/-- What a class inherits comes from the classes before it. -/
theorem inheritedFields_before (distinct : (names (before ++ c :: after)).Nodup)
    (known : ∀ above, Resolve.superclassOf c = some above → above ∈ names before) :
    c.inheritedFields (before ++ c :: after).reverse = c.inheritedFields before.reverse := by
  rw [inheritedFields, inheritedFields]
  cases superclass : Resolve.superclassOf c with
  | none => rfl
  | some above =>
    have away : above ∉ names (c :: after).reverse := by
      intro there
      rw [names, List.map_append] at distinct
      obtain ⟨-, -, apart⟩ := List.nodup_append.1 distinct
      exact apart _ (known above superclass) _ (mem_names_reverse.1 there) rfl
    rw [List.reverse_append]
    exact allFields_append away

end ClassDef

/-- **The programs that can be resolved** are the well-formed ones: class names are distinct, and
none is that of the class of the main body if there is one; superclasses come before their
subclasses; the fields of a class are distinct, its own and the inherited ones, and so are its
selectors, on either side; the arguments and locals of every method, main body and block literal are
distinct; and no more than 65535 fields, variables or block literals are to be numbered together. -/
theorem resolves_iff_wellFormed (p : Program) :
    (∃ log r, resolve p = (log, .ok r)) ↔ p.WellFormed := by
  have walk : (∃ log r, resolve p = (log, .ok r)) ↔ Resolve.Succeeds (Resolve.program p) {} := by
    unfold resolve Resolve.Succeeds
    cases Resolve.program p {} <;> simp
  rw [walk, Resolve.succeeds_program]
  constructor
  · rintro ⟨each, main⟩
    have known (before c after) (split : p.classes = before ++ c :: after) :=
      ClassDef.superclass_known_iff.1 fun above superclass =>
        ClassDef.mem_names_reverse.1 ((each before c after split).known above superclass)
    have distinct : (ClassDef.names p.classes).Nodup :=
      ClassDef.nodup_names_iff.2 fun before c after split there =>
        (each before c after split).new (ClassDef.mem_names_reverse.2 there)
    refine ⟨distinct, fun some => ?_, fun before c after split => (known before c after split).1,
      fun before c after above split => (known before c after split).2 above, fun c hc => ?_,
      fun m hm => (main m hm).2⟩
    · obtain ⟨m, hm⟩ := Option.isSome_iff_exists.1 some
      exact (main m hm).1
    · obtain ⟨before, after, split⟩ := List.append_of_mem hc
      have inherited := ClassDef.inheritedFields_before (split ▸ distinct)
        (ClassDef.superclass_known_iff.2 (known before c after split))
      rw [split, inherited]
      exact (each before c after split).formed
  · intro formed
    refine ⟨fun before c after split => ?_, fun m hm => ?_⟩
    · have known := ClassDef.superclass_known_iff.2
        ⟨formed.root before c after split,
          fun above => formed.superclass before c after above split⟩
      have inherited := ClassDef.inheritedFields_before (split ▸ formed.distinct) known
      refine ⟨fun there => ?_, fun above superclass => ?_, ?_⟩
      · exact ClassDef.nodup_names_iff.1 formed.distinct before c after split
          (ClassDef.mem_names_reverse.1 there)
      · exact ClassDef.mem_names_reverse.2 (known above superclass)
      · rw [← inherited, ← split]
        exact formed.classes c (split ▸ List.mem_append_right _ List.mem_cons_self)
    · exact ⟨formed.mainName (Option.isSome_of_mem hm), formed.main m hm⟩

end Colloquy
