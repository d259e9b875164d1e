import Colloquy.Proofs.Compile.Layout
import Colloquy.Proofs.Compile.SendSites

/-!
# Lexical addresses

Where a name is found follows from the text around it: the innermost code scope that declares it,
else the field of that name, else a global (`Names.find`).  Resolution finds the scope in a tree
that it is still building, and code generation counts the hops to it later; the instructions that
come out use every name at its address in the text (`Addresses`).

Main statement: `names_are_lexical`.
-/

namespace Colloquy

open Instruction (Reads)

/-! ## Names in the text of a program -/

/-- What can be named at a place: the variables of the code scopes around it, innermost first, and
the fields of the class, inherited ones first. -/
structure Names where
  /-- Arguments and then locals of each scope. -/
  scopes : List (List String)
  fields : List String

/-- Where a name is found. -/
inductive Address where
  /-- In the code scope some hops out. -/
  | slot (hops index : Nat)
  | field (index : Nat)
  | global
deriving DecidableEq

namespace Names

/-- The address of a name. -/
def find (p : Names) (name : String) : Address :=
  match p.scopes.findIdx? (·.contains name), p.fields.idxOf? name with
  | some k, _ => .slot k ((p.scopes.getD k []).idxOf name)
  | none, some i => .field i
  | none, none => .global

/-- The place inside a block with the given variables. -/
def inside (vars : List String) (p : Names) : Names := { p with scopes := vars :: p.scopes }

end Names

/-- What is mentioned in a text, in the order of evaluation.  A block literal comes with its
arguments and locals and with what is mentioned in it. -/
inductive Mention where
  | read (name : String)
  | assign (name : String)
  | block (vars : List String) (body : List Mention)

mutual

def Expr.mentions : Expr → List Mention
  | .literal _ => []
  | .self => []
  | .ident x => [.read x.name]
  | .array items => Expr.mentionsAll items
  | .block head body => [.block (head.args ++ head.locals) (Stat.mentionsAll body)]
  | .send receiver _ args _ => receiver.mentions ++ Expr.mentionsAll args
  | .superSend _ args _ => Expr.mentionsAll args

def Expr.mentionsAll : List Expr → List Mention
  | [] => []
  | e :: rest => e.mentions ++ Expr.mentionsAll rest

def Stat.mentions : Stat → List Mention
  | .expr value => value.mentions
  | .assign target value _ => value.mentions ++ [.assign target.name]
  | .ret value _ => value.mentions

def Stat.mentionsAll : List Stat → List Mention
  | [] => []
  | s :: rest => s.mentions ++ Stat.mentionsAll rest

end

mutual

/-- The assignments among what is mentioned at a place, with the place of each. -/
def Mention.assignments (p : Names) : Mention → List (Names × String)
  | .read _ => []
  | .assign name => [(p, name)]
  | .block vars body => Mention.assignmentsAll (p.inside vars) body

def Mention.assignmentsAll (p : Names) : List Mention → List (Names × String)
  | [] => []
  | m :: rest => m.assignments p ++ Mention.assignmentsAll p rest

end

/-- A method or main body as it is written. -/
structure Passage where
  names : Names
  mentions : List Mention

/-- All fields of a class, inherited ones first.  The classes are given last first, each in front of
its superclass. -/
def ClassDef.allFields : List ClassDef → String → List String
  | [], _ => []
  | c :: before, name =>
    if c.name = name then
      (match Resolve.superclassOf c with
        | none => []
        | some above => ClassDef.allFields before above) ++ c.fields
    else ClassDef.allFields before name

def Method.passage (fields : List String) (m : Method) : Passage :=
  ⟨⟨[m.args ++ m.locals], fields⟩, Stat.mentionsAll m.stats⟩

/-- A main body sees the fields of the root class. -/
def MainBody.passage (fields : List String) (m : MainBody) : Passage :=
  ⟨⟨[m.locals], fields⟩, Stat.mentionsAll m.body.stats⟩

namespace Program

def fieldsOf (p : Program) (name : String) : List String :=
  ClassDef.allFields p.classes.reverse name

/-- All methods in order, the main body last. -/
def passages (p : Program) : List Passage :=
  p.classes.flatMap (fun c => c.methods.map (·.passage (p.fieldsOf c.name)))
    ++ p.main.toList.map (·.passage (p.fieldsOf rootClass))

end Program

/-! ## Names in code -/

/-- The instruction uses a variable, a field, a global or a block literal. -/
def Instruction.uses : Instruction → Bool
  | pushGlobal _ | pushField _ | pushLocal _ _ | storeField _ | storeLocal _ _ | block _ => true
  | _ => false

/-- The instruction reads a name at its address; a global is named by a literal. -/
def Address.ReadBy (lits : Array String) (name : String) : Address → Instruction → Prop
  | .slot hops index, .pushLocal depth k => depth.toNat = hops ∧ k.toNat = index
  | .field index, .pushField k => k.toNat = index
  | .global, .pushGlobal l => lits[l.toNat]? = some name
  | _, _ => False

/-- The instruction assigns to a name at its address; there is none that assigns to a global. -/
def Address.AssignedBy : Address → Instruction → Prop
  | .slot hops index, .storeLocal depth k => depth.toNat = hops ∧ k.toNat = index
  | .field index, .storeField k => k.toNat = index
  | _, _ => False

/-- The instructions use what is mentioned at a place, each name at its address and in the same
order.  `blocks` are the blocks nested in the method. -/
inductive Addresses (blocks : Array Block) :
    Names → Array String → List Mention → List Instruction → Prop where
  | nil {p : Names} {lits : Array String} : Addresses blocks p lits [] []
  | plain {p : Names} {lits : Array String} {ms : List Mention} {i : Instruction}
      {is : List Instruction} (other : i.uses = false) (later : Addresses blocks p lits ms is) :
      Addresses blocks p lits ms (i :: is)
  | read {p : Names} {lits : Array String} {name : String} {ms : List Mention} {i : Instruction}
      {is : List Instruction} (found : (p.find name).ReadBy lits name i)
      (later : Addresses blocks p lits ms is) : Addresses blocks p lits (.read name :: ms) (i :: is)
  | assign {p : Names} {lits : Array String} {name : String} {ms : List Mention} {i : Instruction}
      {is : List Instruction} (found : (p.find name).AssignedBy i)
      (later : Addresses blocks p lits ms is) :
      Addresses blocks p lits (.assign name :: ms) (i :: is)
  | block {p : Names} {lits : Array String} {vars : List String} {body ms : List Mention}
      {k : UInt16} {b : Block} {is js : List Instruction} (entry : blocks[k.toNat]? = some b)
      (reads : Reads b.bytecode 0 js b.bytecode.size)
      (inner : Addresses blocks (p.inside vars) b.literals body js)
      (later : Addresses blocks p lits ms is) :
      Addresses blocks p lits (.block vars body :: ms) (.block k :: is)

namespace Addresses

variable {blocks : Array Block} {p : Names} {lits : Array String} {ms ns : List Mention}
  {is js : List Instruction}

theorem append (h : Addresses blocks p lits ms is) (h' : Addresses blocks p lits ns js) :
    Addresses blocks p lits (ms ++ ns) (is ++ js) := by
  induction h with
  | nil => exact h'
  | plain other _ ih => exact .plain other (ih h')
  | read found _ ih => exact .read found (ih h')
  | assign found _ ih => exact .assign found (ih h')
  | block entry reads inner _ _ ih => exact .block entry reads inner (ih h')

/-- Instructions that use nothing. -/
theorem of_plain (other : ∀ i ∈ is, i.uses = false) : Addresses blocks p lits [] is := by
  induction is with
  | nil => exact .nil
  | cons i is ih =>
    obtain ⟨first, later⟩ := List.forall_mem_cons.1 other
    exact .plain first (ih later)

/-- Instructions that use nothing behind others. -/
theorem append_plain (h : Addresses blocks p lits ms is) (other : ∀ i ∈ js, i.uses = false) :
    Addresses blocks p lits ms (is ++ js) := by
  have after : Addresses blocks p lits [] js := of_plain other
  rw [← List.append_nil ms]
  exact h.append after

/-- **What is assigned to is no global.** -/
theorem assigned (h : Addresses blocks p lits ms is) :
    ∀ a ∈ Mention.assignmentsAll p ms, a.1.find a.2 ≠ .global := by
  induction h with
  | nil => exact List.forall_mem_nil _
  | plain _ _ ih => exact ih
  | read _ _ ih => exact ih
  | @assign p _ name _ i _ found _ ih =>
    refine List.forall_mem_cons.2 ⟨fun global => ?_, ih⟩
    dsimp only at global
    rw [global] at found
    exact found
  | block _ _ _ _ inside ih => exact List.forall_mem_append.2 ⟨inside, ih⟩

end Addresses

/-- The block uses what its text mentions. -/
def Block.Addresses (t : Passage) (b : Block) : Prop :=
  ∃ is, Reads b.bytecode 0 is b.bytecode.size
    ∧ Colloquy.Addresses b.blocks t.names b.literals t.mentions is

/-! ## Addresses of resolved names -/

/-- The same variable from one scope further in. -/
def Address.outward : Address → Address
  | .slot hops index => .slot (hops + 1) index
  | a => a

namespace Names

variable {p : Names} {name : String} {vars : List String}

theorem find_inside_of_mem (h : name ∈ vars) :
    (p.inside vars).find name = .slot 0 (vars.idxOf name) := by
  simp [find, inside, List.findIdx?_cons, h]

theorem find_inside_of_notMem (h : name ∉ vars) :
    (p.inside vars).find name = (p.find name).outward := by
  simp only [find, inside, List.findIdx?_cons, List.contains_eq_mem, h, decide_false,
    Bool.false_eq_true, if_false]
  cases p.scopes.findIdx? (fun vars => decide (name ∈ vars)) with
  | some k => simp [Address.outward]
  | none => cases p.fields.idxOf? name <;> rfl

end Names

/-- The symbol stands for the address, with the given scopes around the place. -/
def Symbol.StandsFor (fields : List String) (chain : ScopeChain) : Symbol → Address → Prop
  | .slot owner i, .slot hops index =>
    ∃ vars, chain[hops]? = some (owner, vars) ∧ index < vars.length ∧ i = index.toUInt16
  | .field i, .field index => index < fields.length ∧ i = index.toUInt16
  | .global, .global => True
  | _, _ => False

theorem Symbol.StandsFor.outward {fields : List String} {chain : ScopeChain} {symbol : Symbol}
    {a : Address} (h : symbol.StandsFor fields chain a) (inner : ScopeId × List String) :
    symbol.StandsFor fields (inner :: chain) a.outward := by
  cases symbol <;> cases a <;> exact h

/-- **A name is resolved to what it is found to be in the text.** -/
theorem resolveName_standsFor (fields : List String) (name : String) (chain : ScopeChain) :
    (resolveName fields name chain).StandsFor fields chain
      (Names.find ⟨chain.map Prod.snd, fields⟩ name) := by
  induction chain with
  | nil =>
    simp only [resolveName, Names.find, List.map_nil, List.findIdx?_nil]
    cases found : fields.idxOf? name with
    | some i => exact ⟨(List.idxOf?_eq_some_iff.1 found).1, rfl⟩
    | none => trivial
  | cons entry outer ih =>
    obtain ⟨id, vars⟩ := entry
    rw [resolveName]
    change Symbol.StandsFor fields _ _
      ((Names.inside vars ⟨outer.map Prod.snd, fields⟩).find name)
    by_cases declared : name ∈ vars
    · rw [idxOf?_of_mem declared, Names.find_inside_of_mem declared]
      exact ⟨vars, rfl, List.idxOf_lt_length_of_mem declared, rfl⟩
    · rw [List.idxOf?_eq_none_iff.2 declared, Names.find_inside_of_notMem declared]
      exact ih.outward _

/-! ## Scopes around a place -/

/-- The scopes around a place are in the tree, each inside the next one. -/
structure ScopeTree.Nests (tree : ScopeTree) (chain : ScopeChain) : Prop where
  around : Resolve.Around tree chain
  linked : tree.Linked (chain.map Prod.fst)
  distinct : (chain.map Prod.fst).Nodup

namespace ScopeTree.Nests

variable {tree tree' : ScopeTree} {chain : ScopeChain} {scope : ScopeId}

theorem mono (h : tree.Nests chain) (grows : tree.Grows tree') : tree'.Nests chain := by
  refine ⟨h.around.mono grows, h.linked.imp fun a b inside => ?_, h.distinct⟩
  obtain ⟨s, here, parent⟩ := Option.bind_eq_some_iff.1 inside
  rw [ScopeTree.parent?, grows _ _ here, Option.bind_some, parent]

/-- **The hops to a scope around a place are its place in the chain.** -/
theorem hops {owner : ScopeId} {vars : List String} {k depth : Nat} (h : tree.Nests chain)
    (innermost : chain.head?.map Prod.fst = some scope) (entry : chain[k]? = some (owner, vars))
    (hops : tree.relativeDepth scope owner = some depth) : depth.toUInt16.toNat = k := by
  obtain ⟨first, rest, rfl⟩ := List.exists_cons_of_ne_nil h.around.inside
  cases innermost
  have place : ((first :: rest).map Prod.fst)[k]? = some owner := by
    rw [List.getElem?_map, entry]
    rfl
  obtain ⟨hlt, at_k⟩ := List.getElem?_eq_some_iff.1 place
  have climbed := ScopeTree.climb_eq h.linked (List.mem_of_getElem? place) hops
  have short := ScopeTree.climb_lt (by decide) hops
  rw [Nat.toUInt16_eq, UInt16.toNat_ofNat', Nat.mod_eq_of_lt short, climbed, Nat.zero_add]
  rw [← at_k]
  exact h.distinct.idxOf_getElem k hlt

end ScopeTree.Nests

/-! ## Code of resolved trees -/

section Trees

variable {tree : ScopeTree} {chain : ScopeChain} {scope : ScopeId} {fields : List String}
  {blocks : Array Block} {lits : Array String} {is : List Instruction}

/-- The number of a slot or field is short. -/
theorem toNat_of_short {index count : Nat} (h : index < count) (room : count ≤ Resolve.maxSlots) :
    index.toUInt16.toNat = index := by
  have small : index < 65535 := Nat.lt_of_lt_of_le h room
  rw [Nat.toUInt16_eq, UInt16.toNat_ofNat', Nat.mod_eq_of_lt (Nat.lt_trans small (by decide))]

/-- What a symbol stands for, and the operands it is given in code. -/
theorem Symbol.StandsFor.slot {owner : ScopeId} {i : UInt16} {a : Address} {depth : Nat}
    (h : (Symbol.slot owner i).StandsFor fields chain a) (nests : tree.Nests chain)
    (innermost : chain.head?.map Prod.fst = some scope)
    (hops : tree.relativeDepth scope owner = some depth) :
    a = .slot depth.toUInt16.toNat i.toNat := by
  cases a with
  | slot k index =>
    obtain ⟨vars, entry, declared, rfl⟩ := h
    have room := (nests.around.inTree _ (List.mem_of_getElem? entry)).1
    rw [nests.hops innermost entry hops, toNat_of_short declared room]
  | field index | global => exact h.elim

theorem Symbol.StandsFor.field {i : UInt16} {a : Address}
    (h : (Symbol.field i).StandsFor fields chain a) (room : fields.length ≤ Resolve.maxSlots) :
    a = .field i.toNat := by
  cases a with
  | field index =>
    obtain ⟨there, rfl⟩ := h
    rw [toNat_of_short there room]
  | slot k index | global => exact h.elim

theorem Symbol.StandsFor.global {a : Address} (h : Symbol.global.StandsFor fields chain a) :
    a = .global := by
  cases a with
  | global => rfl
  | slot k index | field index => exact h.elim

/-- **A name is read at its address.** -/
theorem LoadCode.readBy {name : Ident} {i : Instruction} (room : fields.length ≤ Resolve.maxSlots)
    (nests : tree.Nests chain) (innermost : chain.head?.map Prod.fst = some scope)
    (code : LoadCode tree scope lits (name.resolve fields chain) i) :
    (Names.find ⟨chain.map Prod.snd, fields⟩ name.name).ReadBy lits name.name i := by
  have found := resolveName_standsFor fields name.name chain
  cases code with
  | field symbol =>
    rw [Option.some.inj symbol] at found
    rw [found.field room]
    rfl
  | slot symbol hops =>
    rw [Option.some.inj symbol] at found
    rw [found.slot nests innermost hops]
    exact ⟨rfl, rfl⟩
  | global symbol literal =>
    rw [Option.some.inj (symbol.resolve_right (Option.some_ne_none _))] at found
    rw [found.global]
    exact literal

/-- **A name is assigned to at its address.** -/
theorem StoreCode.assignedBy {name : Ident} {i : Instruction}
    (room : fields.length ≤ Resolve.maxSlots) (nests : tree.Nests chain)
    (innermost : chain.head?.map Prod.fst = some scope)
    (code : StoreCode tree scope (name.resolve fields chain) i) :
    (Names.find ⟨chain.map Prod.snd, fields⟩ name.name).AssignedBy i := by
  have found := resolveName_standsFor fields name.name chain
  cases code with
  | field symbol =>
    rw [Option.some.inj symbol] at found
    rw [found.field room]
    rfl
  | slot symbol hops =>
    rw [Option.some.inj symbol] at found
    rw [found.slot nests innermost hops]
    exact ⟨rfl, rfl⟩

/-- Source positions use nothing. -/
theorem Marks.plain (h : Marks is) : ∀ i ∈ is, i.uses = false := by
  rcases h with rfl | ⟨file, position, rfl⟩
  · exact List.forall_mem_nil _
  · exact List.forall_mem_singleton.2 rfl

theorem plain_of_constantCode {value : Literal} {i : Instruction}
    (h : ConstantCode lits value i) : i.uses = false := by
  cases h <;> rfl

/-- The code of a body uses what its statements use. -/
theorem BodyCode.addresses {source : Source} {b : Block} {p : Names} {ms : List Mention}
    (code : BodyCode tree blocks source b)
    (each : ∀ {is : List Instruction},
      StatsCode tree blocks source.scope b.literals source.stats is →
      Addresses blocks p b.literals ms is) :
    ∃ is, Reads b.bytecode 0 is b.bytecode.size ∧ Addresses blocks p b.literals ms is := by
  have ifElse {c : Prop} [Decidable c] {i : Instruction} (other : i.uses = false) :
      (∀ j ∈ if c then [] else [i], j.uses = false)
        ∧ ∀ j ∈ if c then [i] else [], j.uses = false := by
    split <;> simp [other]
  cases code with
  | method _ stats marks reads =>
    refine ⟨_, reads, (each stats).append_plain ?_⟩
    refine List.forall_mem_append.2 ⟨marks.plain, List.forall_mem_append.2 ⟨(ifElse rfl).1, ?_⟩⟩
    decide
  | block _ stats marks reads =>
    refine ⟨_, reads, (each stats).append_plain ?_⟩
    refine List.forall_mem_append.2 ⟨(ifElse rfl).2, List.forall_mem_append.2 ⟨marks.plain, ?_⟩⟩
    decide
  | main _ stats marks reads =>
    refine ⟨_, reads, (each stats).append_plain ?_⟩
    refine List.forall_mem_append.2 ⟨(ifElse rfl).2, List.forall_mem_append.2 ⟨marks.plain, ?_⟩⟩
    decide

end Trees

namespace Resolve

variable {σ σ' : Resolver} {fields : List String} {selector : String}

/-- A new scope for code has a new number. -/
theorem openCode_fresh {name : String} {kind : ScopeKind} {parent : ScopeId}
    {args locals : List String} {scope : ScopeId × List String}
    (h : openCode name kind parent args locals σ = .ok scope σ') : σ.tree.get? scope.1 = none := by
  obtain ⟨_, _, ⟨⟩, checked⟩ := EStateM.bind_eq_ok.1 h
  obtain ⟨_, _, hvars, added⟩ := EStateM.bind_eq_ok.1 checked
  obtain ⟨-, rfl⟩ := check_eq_ok.1 hvars
  obtain ⟨id, _, ⟨⟩, ⟨⟩⟩ := EStateM.bind_eq_ok.1 added
  exact Array.getElem?_eq_none (Nat.le_refl _)

/-- **The scope of a block literal** is inside those around the literal, and has its arguments and
locals. -/
theorem openBlock_nests {chain inner : ScopeChain} {head head' : BlockHead}
    (nests : σ.tree.Nests chain) (h : openBlock selector chain head σ = .ok (head', inner) σ') :
    σ.tree.Grows σ'.tree ∧ σ'.tree.Nests inner
      ∧ ∃ b, head'.scope = some b ∧ inner = (b, head.args ++ head.locals) :: chain := by
  obtain ⟨taken, around, b, ids, opens⟩ := openBlock_eq_ok nests.around [] h
  obtain ⟨index, τ, hindex, h⟩ := EStateM.bind_eq_ok.1 h
  obtain ⟨-, rfl⟩ := takeBlockIndex_eq_ok hindex
  obtain ⟨⟨id, vars⟩, τ, hopen, h⟩ := EStateM.bind_eq_ok.1 h
  obtain ⟨-, -, -, -, -, -, -, rfl⟩ := openCode_eq_ok hopen
  have fresh := openCode_fresh hopen
  cases h
  obtain rfl : id = b := (List.cons.inj ids).1
  have old := nests.mono taken.grows
  refine ⟨taken.grows, ⟨around, ?_, ?_⟩, id, rfl, rfl⟩
  · obtain ⟨first, rest, rfl⟩ := List.exists_cons_of_ne_nil nests.around.inside
    exact .cons_cons opens.inside old.linked
  · refine List.nodup_cons.2 ⟨fun known => ?_, nests.distinct⟩
    obtain ⟨entry, hentry, rfl⟩ := List.mem_map.1 known
    obtain ⟨-, s, here, -⟩ := nests.around.inTree entry hentry
    cases fresh.symm.trans here

mutual

/-- **The code of an expression uses what the expression mentions.** -/
theorem expr_addresses {tree : ScopeTree} {blocks : Array Block} {lits : Array String}
    {scope : ScopeId} {is : List Instruction} (room : fields.length ≤ maxSlots) {chain : ScopeChain}
    {σ σ' : Resolver} (nests : σ.tree.Nests chain)
    (innermost : chain.head?.map Prod.fst = some scope) (e : Expr) {e' : Expr}
    (h : expr fields selector chain e σ = .ok e' σ') (grows : σ'.tree.Grows tree)
    (code : ExprCode tree blocks scope lits e' is) :
    Addresses blocks ⟨chain.map Prod.snd, fields⟩ lits e.mentions is := by
  cases e with
  | literal value =>
    cases h
    cases code with
    | literal constant => exact .plain (plain_of_constantCode constant) .nil
  | self =>
    cases h
    cases code with
    | self => exact .plain rfl .nil
  | ident name =>
    cases h
    cases code with
    | ident load => exact .read (load.readBy room (nests.mono grows) innermost) .nil
  | array items =>
    obtain ⟨_, τ, hitems, ⟨⟩⟩ := EStateM.bind_eq_ok.1 h
    obtain ⟨_, rfl, each⟩ := exprs_addresses room nests innermost items [] hitems grows
    cases code with
    | array codes _ => exact (each codes).append_plain (List.forall_mem_singleton.2 rfl)
  | block head body =>
    obtain ⟨⟨head', inner⟩, τ, hopen, hbody⟩ := EStateM.bind_eq_ok.1 h
    obtain ⟨_, τ', hstats, ⟨⟩⟩ := EStateM.bind_eq_ok.1 hbody
    obtain ⟨-, nests', b, opened, rfl⟩ := openBlock_nests nests hopen
    obtain ⟨_, rfl, each⟩ := stats_addresses room nests' rfl body [] hstats grows
    cases code with
    | block opened' entry code =>
      cases opened.symm.trans opened'
      obtain ⟨js, reads, inside⟩ := code.addresses each
      exact .block entry reads inside .nil
  | send receiver message args position =>
    obtain ⟨receiver', τ, hreceiver, hrest⟩ := EStateM.bind_eq_ok.1 h
    obtain ⟨_, τ', hargs, ⟨⟩⟩ := EStateM.bind_eq_ok.1 hrest
    have nests' := nests.mono (expr_scoped room nests.around receiver hreceiver).1.grows
    obtain ⟨_, -, taken, -⟩ := exprs_scoped room nests'.around args [] hargs
    obtain ⟨_, rfl, each⟩ := exprs_addresses room nests' innermost args [] hargs grows
    cases code with
    | send first codes marks =>
      have before :=
        expr_addresses room nests innermost receiver hreceiver (taken.grows.trans grows) first
      refine before.append ((each codes).append_plain ?_)
      exact List.forall_mem_append.2 ⟨marks.plain, List.forall_mem_singleton.2 rfl⟩
  | superSend message args position =>
    obtain ⟨_, τ, hargs, ⟨⟩⟩ := EStateM.bind_eq_ok.1 h
    obtain ⟨_, rfl, each⟩ := exprs_addresses room nests innermost args [] hargs grows
    cases code with
    | superSend codes marks =>
      refine .plain rfl ((each codes).append_plain ?_)
      exact List.forall_mem_append.2 ⟨marks.plain, List.forall_mem_singleton.2 rfl⟩
termination_by structural e

theorem exprs_addresses {tree : ScopeTree} {blocks : Array Block} {scope : ScopeId}
    (room : fields.length ≤ maxSlots) {chain : ScopeChain} {σ σ' : Resolver}
    (nests : σ.tree.Nests chain) (innermost : chain.head?.map Prod.fst = some scope)
    (es done : List Expr) {es' : List Expr}
    (h : exprs fields selector chain es done σ = .ok es' σ') (grows : σ'.tree.Grows tree) :
    ∃ new, es' = done.reverse ++ new
      ∧ ∀ {lits : Array String} {is : List Instruction}, ExprsCode tree blocks scope lits new is →
        Addresses blocks ⟨chain.map Prod.snd, fields⟩ lits (Expr.mentionsAll es) is := by
  cases es with
  | nil =>
    cases h
    refine ⟨[], (List.append_nil _).symm, fun code => ?_⟩
    cases code
    exact .nil
  | cons e rest =>
    obtain ⟨e', τ, he, hrest⟩ := EStateM.bind_eq_ok.1 h
    have nests' := nests.mono (expr_scoped room nests.around e he).1.grows
    obtain ⟨_, -, taken, -⟩ := exprs_scoped room nests'.around rest (e' :: done) hrest
    obtain ⟨new, rfl, later⟩ := exprs_addresses room nests' innermost rest (e' :: done) hrest grows
    refine ⟨e' :: new, by simp, fun code => ?_⟩
    cases code with
    | cons first codes =>
      exact (expr_addresses room nests innermost e he (taken.grows.trans grows) first).append
        (later codes)
termination_by structural es

theorem stat_addresses {tree : ScopeTree} {blocks : Array Block} {lits : Array String}
    {scope : ScopeId} {is : List Instruction} (room : fields.length ≤ maxSlots) {chain : ScopeChain}
    {σ σ' : Resolver} (nests : σ.tree.Nests chain)
    (innermost : chain.head?.map Prod.fst = some scope) (s : Stat) {s' : Stat}
    (h : stat fields selector chain s σ = .ok s' σ') (grows : σ'.tree.Grows tree)
    (code : StatCode tree blocks scope lits s' is) :
    Addresses blocks ⟨chain.map Prod.snd, fields⟩ lits s.mentions is := by
  cases s with
  | expr value =>
    obtain ⟨_, τ, hvalue, ⟨⟩⟩ := EStateM.bind_eq_ok.1 h
    cases code with
    | expr first => exact expr_addresses room nests innermost value hvalue grows first
  | assign target value position =>
    obtain ⟨_, τ, hvalue, ⟨⟩⟩ := EStateM.bind_eq_ok.1 h
    have final := (nests.mono (expr_scoped room nests.around value hvalue).1.grows).mono grows
    cases code with
    | assign marks first store =>
      have before := expr_addresses room nests innermost value hvalue grows first
      have stored := store.assignedBy room final innermost
      exact (Addresses.of_plain marks.plain).append (before.append (.assign stored .nil))
  | ret value position =>
    obtain ⟨_, τ, hvalue, ⟨⟩⟩ := EStateM.bind_eq_ok.1 h
    cases code with
    | ret first marks =>
      refine (expr_addresses room nests innermost value hvalue grows first).append_plain ?_
      exact List.forall_mem_append.2 ⟨marks.plain, List.forall_mem_singleton.2 rfl⟩
termination_by structural s

theorem stats_addresses {tree : ScopeTree} {blocks : Array Block} {scope : ScopeId}
    (room : fields.length ≤ maxSlots) {chain : ScopeChain} {σ σ' : Resolver}
    (nests : σ.tree.Nests chain) (innermost : chain.head?.map Prod.fst = some scope)
    (ss done : List Stat) {ss' : List Stat}
    (h : stats fields selector chain ss done σ = .ok ss' σ') (grows : σ'.tree.Grows tree) :
    ∃ new, ss' = done.reverse ++ new
      ∧ ∀ {lits : Array String} {is : List Instruction}, StatsCode tree blocks scope lits new is →
        Addresses blocks ⟨chain.map Prod.snd, fields⟩ lits (Stat.mentionsAll ss) is := by
  cases ss with
  | nil =>
    cases h
    refine ⟨[], (List.append_nil _).symm, fun code => ?_⟩
    cases code
    exact .nil
  | cons s rest =>
    obtain ⟨s', τ, hs, hrest⟩ := EStateM.bind_eq_ok.1 h
    have nests' := nests.mono (stat_scoped room nests.around s hs).1.grows
    obtain ⟨_, -, taken, -⟩ := stats_scoped room nests'.around rest (s' :: done) hrest
    obtain ⟨new, rfl, later⟩ := stats_addresses room nests' innermost rest (s' :: done) hrest grows
    refine ⟨s' :: new, by simp, @fun lits is code => ?_⟩
    have first {js : List Instruction} (code : StatCode tree blocks scope lits s' js) :=
      stat_addresses room nests innermost s hs (taken.grows.trans grows) code
    cases code with
    | last code =>
      rw [← List.append_nil is]
      exact (first code).append (later .nil)
    | cons code codes => exact (first code).append (.plain rfl (later codes))
termination_by structural ss

end

/-! ## Methods, classes and programs -/

/-- The scope of a method or main body stands alone around its statements. -/
theorem openCode_nests {name : String} {kind : ScopeKind} {parent : ScopeId}
    {args locals : List String} {scope : ScopeId × List String}
    (h : openCode name kind parent args locals σ = .ok scope σ') :
    σ'.tree.Nests [scope] ∧ scope.2 = args ++ locals := by
  obtain ⟨-, room, s, here, -, vars, -, hvars⟩ := openCode_eq_ok h
  exact ⟨⟨⟨List.forall_mem_singleton.2 ⟨room, s, here, vars⟩, List.cons_ne_nil _ _⟩, .singleton _,
    List.pairwise_singleton _ _⟩, hvars⟩

theorem body_addresses {tree : ScopeTree} {scope : ScopeId × List String} {b b' : Body}
    {ending : Ending} {block : Block} (room : fields.length ≤ maxSlots)
    (nests : σ.tree.Nests [scope]) (h : body fields selector scope b σ = .ok b' σ')
    (grows : σ'.tree.Grows tree)
    (code : BodyCode tree block.blocks ⟨scope.1, b'.stats, ending⟩ block) :
    block.Addresses ⟨⟨[scope.2], fields⟩, Stat.mentionsAll b.stats⟩ := by
  obtain ⟨_, hstats, rfl⟩ := body_eq_ok h
  have nests' : ({ σ with nextBlock := 0 } : Resolver).tree.Nests [scope] := nests
  obtain ⟨_, rfl, each⟩ := stats_addresses room nests' rfl b.stats [] hstats grows
  exact code.addresses each

/-- **A compiled method uses what its text mentions.** -/
theorem method_addresses {tree : ScopeTree} {options : CompilerOptions} {className : String}
    {classScope : ScopeId} {seen : Std.HashMap String Unit} {m m' : Method} {b : Block}
    (room : fields.length ≤ maxSlots)
    (h : method className classScope fields seen m σ = .ok m' σ') (grows : σ'.tree.Grows tree)
    (makes : Emit.Makes tree options m' b) : b.Addresses (m.passage fields) := by
  obtain ⟨_, _, made⟩ := makes
  obtain ⟨id, opened, primitive, code⟩ := Emit.method_code made
  cases method_resolves h with
  | primitive kind opens =>
    rw [Method.passage, Method.stats, kind]
    obtain ⟨p, isPrimitive⟩ := primitive _ rfl
    exact ⟨[], by rw [isPrimitive.bytecode]; exact .nil 0, .nil⟩
  | code kind opens resolves =>
    obtain ⟨nests, vars⟩ := openCode_nests opens
    rw [Method.passage, Method.stats, kind, ← vars]
    cases opened
    exact body_addresses room nests resolves grows (code _ rfl)

/-! ### From one method to all of them -/

/-- A method is related to what it is resolved to, given all fields of its class. -/
def MethodsShow (tree : ScopeTree) (R : List String → Method → Method → Prop) : Prop :=
  ∀ {σ σ' : Resolver} {fields : List String} {className : String} {classScope : ScopeId}
    {seen : Std.HashMap String Unit} {m m' : Method}, fields.length ≤ maxSlots →
    method className classScope fields seen m σ = .ok m' σ' → σ'.tree.Grows tree → R fields m m'

theorem methods_show {tree : ScopeTree} {R : List String → Method → Method → Prop}
    (one : MethodsShow tree R) {className : String} {classScope : ScopeId}
    {ms done ms' : List Method} {seen : Std.HashMap String Unit} (room : fields.length ≤ maxSlots)
    (h : methods className classScope fields ms seen done σ = .ok ms' σ')
    (grows : σ'.tree.Grows tree) :
    ∃ new, ms' = done.reverse ++ new ∧ List.Forall₂ (R fields) ms new := by
  induction ms generalizing σ seen done with
  | nil =>
    cases h
    exact ⟨[], (List.append_nil _).symm, .nil⟩
  | cons m rest ih =>
    obtain ⟨m', τ, hm, hrest⟩ := EStateM.bind_eq_ok.1 h
    have later := (methods_scoped room hrest).1.grows.trans grows
    obtain ⟨new, rfl, each⟩ := ih hrest
    exact ⟨m' :: new, by simp, .cons (one room hm later) each⟩

/-- The fields of the classes so far are those of their texts. -/
def Knows (σ : Resolver) (before : List ClassDef) : Prop :=
  ∀ name, σ.layouts.getD name [] = ClassDef.allFields before name

/-- **The fields of a class** are those that its text has. -/
theorem cls_knows {c c' : ClassDef} {before : List ClassDef} (knows : Knows σ before)
    (h : cls c σ = .ok c' σ') :
    Knows σ' (c :: before) ∧ ∃ scope τ τ',
      (ClassDef.allFields (c :: before) c.name).length ≤ maxSlots
      ∧ methods c.name scope (ClassDef.allFields (c :: before) c.name) c.methods {} [] τ
        = .ok c'.methods τ'
      ∧ σ'.tree = τ'.tree := by
  obtain ⟨new, inherited, scope, ms, τ, τ', hinherited, room, hall, -, same, rfl, tree, layouts⟩ :=
    cls_eq_ok h
  obtain ⟨root, inherits⟩ := inheritedFields_eq_ok hinherited
  have all : ClassDef.allFields (c :: before) c.name = inherited ++ c.fields := by
    rw [ClassDef.allFields, if_pos rfl]
    cases above : superclassOf c with
    | none => rw [root above]
    | some name =>
      dsimp only
      rw [← knows, Std.HashMap.getD_eq_getD_getElem?, inherits name above, Option.getD_some]
  have old : τ'.layouts = σ.layouts := (methods_scoped room hall).1.layouts.trans same
  rw [all]
  refine ⟨fun name => ?_, scope, τ, τ', room, hall, tree⟩
  rw [layouts, old, Std.HashMap.getD_insert]
  by_cases named : c.name = name
  · subst named
    rw [if_pos (beq_self_eq_true _), all]
  · rw [if_neg (by simpa using named), knows, ClassDef.allFields, if_neg named]

/-- **What holds of methods holds of all methods of classes**, with the fields that their texts
have. -/
theorem classes_show {tree : ScopeTree} {R : List String → Method → Method → Prop}
    (one : MethodsShow tree R) {cs done cs' before : List ClassDef} (knows : Knows σ before)
    (h : classes cs done σ = .ok cs' σ') (grows : σ'.tree.Grows tree) :
    Knows σ' (cs.reverse ++ before) ∧ ∃ new, cs' = done.reverse ++ new
      ∧ List.Forall₂ (fun c c' => List.Forall₂
          (R (ClassDef.allFields (cs.reverse ++ before) c.name)) c.methods c'.methods) cs new := by
  induction cs generalizing σ done before with
  | nil =>
    cases h
    exact ⟨knows, [], (List.append_nil _).symm, .nil⟩
  | cons c rest ih =>
    obtain ⟨c', τ, hc, hrest⟩ := EStateM.bind_eq_ok.1 h
    obtain ⟨knows', scope, ρ, ρ', room, hall, same⟩ := cls_knows knows hc
    have first : ρ'.tree.Grows tree := same ▸ (classes_scoped hrest).1.trans grows
    obtain ⟨knows'', new, rfl, later⟩ := ih knows' hrest
    obtain ⟨_, rfl, each⟩ := methods_show one room hall first
    have kept : ClassDef.allFields (rest.reverse ++ c :: before) c.name
        = ClassDef.allFields (c :: before) c.name := by
      obtain ⟨keeps, -⟩ := classes_laid hrest
      obtain ⟨-, fields, -, -, -, here, -⟩ := cls_laid hc
      rw [← knows'', ← knows', Std.HashMap.getD_eq_getD_getElem?, keeps _ _ here,
        Std.HashMap.getD_eq_getD_getElem?, here]
    rw [List.reverse_cons, List.append_assoc, List.singleton_append]
    refine ⟨knows'', c' :: new, by simp, .cons ?_ later⟩
    rw [kept]
    exact each

/-- **What holds of methods and main bodies holds of all those of a program.** -/
theorem program_show {R : List String → Method → Method → Prop}
    {S : List String → MainBody → MainBody → Prop} {p p' : Program} (h : program p {} = .ok p' σ)
    (one : MethodsShow σ.tree R)
    (oneMain : ∀ {ρ ρ' : Resolver} {m m' : MainBody},
      (ρ.layouts.getD rootClass []).length ≤ maxSlots → mainBody m ρ = .ok m' ρ' →
      ρ'.tree.Grows σ.tree → S (ρ.layouts.getD rootClass []) m m') :
    List.Forall₂ (fun c c' => List.Forall₂ (R (p.fieldsOf c.name)) c.methods c'.methods)
        p.classes p'.classes
      ∧ List.Forall₂ (S (p.fieldsOf rootClass)) p.main.toList p'.main.toList := by
  have start : Knows {} [] := fun name => Std.HashMap.getD_empty
  cases program_resolves h with
  | bare bare hclasses =>
    obtain ⟨-, _, rfl, classes⟩ := classes_show one start hclasses (.refl _)
    rw [List.append_nil] at classes
    rw [bare]
    exact ⟨classes, .nil⟩
  | main hm hclasses resolves =>
    have room := room_of_classes hclasses
    have grows := (mainBody_scoped resolves room).1
    obtain ⟨knows, _, rfl, classes⟩ := classes_show one start hclasses grows
    have main := oneMain room resolves (.refl _)
    rw [List.append_nil] at classes
    rw [knows, List.append_nil] at main
    rw [hm]
    exact ⟨classes, .cons main .nil⟩

/-- The methods of compiled classes are those of the classes. -/
theorem forall₂_methods {τ : Type} {good : Method → Block → Prop} {Q : τ → Block → Prop}
    {text : ClassDef → Method → τ} {cs cs' : List ClassDef} {compiled : List CompiledClass}
    (classes : List.Forall₂ (fun c c' => List.Forall₂
      (fun m m' => ∀ b, good m' b → Q (text c m) b) c.methods c'.methods) cs cs')
    (code : List.Forall₂ (ClassCode good) cs' compiled) :
    List.Forall₂ Q (cs.flatMap fun c => c.methods.map (text c)) (compiled.flatMap (·.methods)) := by
  have through {c : ClassDef} {ms ms' : List Method} {bs : List Block}
      (each : List.Forall₂ (fun m m' => ∀ b, good m' b → Q (text c m) b) ms ms')
      (made : List.Forall₂ good ms' bs) : List.Forall₂ Q (ms.map (text c)) bs := by
    induction each generalizing bs with
    | nil =>
      cases made
      exact .nil
    | cons first _ ih =>
      cases made with
      | cons made others => exact .cons (first _ made) (ih others)
  induction classes generalizing compiled with
  | nil =>
    cases code
    exact .nil
  | cons each _ ih =>
    cases code with
    | cons first others => exact List.rel_append (through each first.methods) (ih others)

/-- **What holds of compiled methods and main bodies holds of all methods of a compiled program**,
the main body last. -/
theorem program_pairs {τ : Type} {options : CompilerOptions} {text : List String → Method → τ}
    {mainText : List String → MainBody → τ} {Q : τ → Block → Prop} {p p' : Program}
    {cs : List CompiledClass} {g g' : Generator} (h : program p {} = .ok p' σ)
    (generated : Emit.program σ.tree options p' g = .ok cs g')
    (one : MethodsShow σ.tree fun fields m m' =>
      ∀ b, Emit.Makes σ.tree options m' b → Q (text fields m) b)
    (oneMain : ∀ {ρ ρ' : Resolver} {m m' : MainBody} {b : Block} {g g' : Generator},
      (ρ.layouts.getD rootClass []).length ≤ maxSlots → mainBody m ρ = .ok m' ρ' →
      ρ'.tree.Grows σ.tree → Emit.mainBody σ.tree options m' g = .ok b g' →
      Q (mainText (ρ.layouts.getD rootClass []) m) b) :
    List.Forall₂ Q
      (p.classes.flatMap (fun c => c.methods.map (text (p.fieldsOf c.name)))
        ++ p.main.toList.map (mainText (p.fieldsOf rootClass)))
      (cs.flatMap (·.methods)) := by
  obtain ⟨classes, main⟩ := program_show (S := fun fields m m' => ∀ b g g',
      Emit.mainBody σ.tree options m' g = .ok b g' → Q (mainText fields m) b) h one
    fun room h grows _ _ _ => oneMain room h grows
  obtain ⟨compiled, code, without, with_⟩ := Emit.program_makes generated
  have methods := forall₂_methods classes code
  cases hm : p'.main with
  | none =>
    rw [hm] at main
    cases without hm
    rw [List.forall₂_nil_right_iff.1 main, List.map_nil, List.append_nil]
    exact methods
  | some m' =>
    rw [hm] at main
    obtain ⟨b, g, g', made, rfl⟩ := with_ m' hm
    obtain ⟨m, rest, first, others, same⟩ := List.forall₂_cons_right_iff.1 main
    cases others
    rw [same, List.flatMap_append]
    exact List.rel_append methods (.cons (first b g g' made) .nil)

/-- **A compiled main body uses what its text mentions.** -/
theorem mainBody_addresses {tree : ScopeTree} {options : CompilerOptions} {m m' : MainBody}
    {b : Block} {g g' : Generator} (room : (σ.layouts.getD rootClass []).length ≤ maxSlots)
    (h : mainBody m σ = .ok m' σ') (grows : σ'.tree.Grows tree)
    (made : Emit.mainBody tree options m' g = .ok b g') :
    b.Addresses (m.passage (σ.layouts.getD rootClass [])) := by
  obtain ⟨id, opened, code⟩ := Emit.mainBody_code made
  obtain ⟨_, _, scope, _, _, -, -, opens, resolves, rfl⟩ := mainBody_eq_ok h
  obtain ⟨nests, vars⟩ := openCode_nests opens
  cases opened
  rw [MainBody.passage, show m.locals = scope.2 from vars.symm]
  exact body_addresses room nests resolves grows code

/-- **A compiled program uses what its text mentions.** -/
theorem program_addresses {options : CompilerOptions} {p p' : Program} {cs : List CompiledClass}
    {g g' : Generator} (h : program p {} = .ok p' σ)
    (generated : Emit.program σ.tree options p' g = .ok cs g') :
    List.Forall₂ (fun t b => Block.Addresses t b) p.passages (cs.flatMap (·.methods)) :=
  program_pairs h generated (fun room h grows _ => method_addresses room h grows) mainBody_addresses

end Resolve

/-- **What holds of compiled methods and main bodies holds of all methods of an accepted program**,
the main body last. -/
theorem compileBare_pairs {τ : Type} {options : CompilerOptions} {text : List String → Method → τ}
    {mainText : List String → MainBody → τ} {Q : τ → Block → Prop} {p : Program} {log : Log}
    {compiled : CompiledProgram} (accepted : compileBare options p = (log, .ok compiled))
    (one : ∀ tree, Resolve.MethodsShow tree fun fields m m' =>
      ∀ b, Emit.Makes tree options m' b → Q (text fields m) b)
    (oneMain : ∀ {tree : ScopeTree} {ρ ρ' : Resolver} {m m' : MainBody} {b : Block}
      {g g' : Generator}, (ρ.layouts.getD rootClass []).length ≤ Resolve.maxSlots →
      Resolve.mainBody m ρ = .ok m' ρ' → ρ'.tree.Grows tree →
      Emit.mainBody tree options m' g = .ok b g' →
      Q (mainText (ρ.layouts.getD rootClass []) m) b) :
    List.Forall₂ Q
      (p.classes.flatMap (fun c => c.methods.map (text (p.fieldsOf c.name)))
        ++ p.main.toList.map (mainText (p.fieldsOf rootClass)))
      (compiled.classes.flatMap (·.methods)) := by
  obtain ⟨_, _, _, _, hp, hcs, rfl⟩ := Direct.compileBare_phases accepted
  exact Resolve.program_pairs hp hcs (one _) oneMain

/-- **Names are lexical.**  Every method and main body of an accepted program uses what its text
mentions, in the order of the text: a name that is declared around the place is used in the
innermost scope that declares it, by the number of hops to that scope and the place among its
arguments and locals; another name is used as a field, by its place among all fields of the class;
and what is neither is read as a global, by a literal with the name.  Nothing is assigned to but
variables and fields. -/
theorem names_are_lexical {options : CompilerOptions} {p : Program} {log : Log}
    {compiled : CompiledProgram} (accepted : compileBare options p = (log, .ok compiled)) :
    List.Forall₂ (fun t b => Block.Addresses t b) p.passages
        (compiled.classes.flatMap (·.methods))
      ∧ ∀ t ∈ p.passages, ∀ a ∈ Mention.assignmentsAll t.names t.mentions,
        a.1.find a.2 ≠ .global := by
  have each : List.Forall₂ (fun t b => Block.Addresses t b) p.passages
      (compiled.classes.flatMap (·.methods)) := by
    obtain ⟨_, _, _, _, hp, hcs, rfl⟩ := Direct.compileBare_phases accepted
    exact Resolve.program_addresses hp hcs
  refine ⟨each, fun t ht => ?_⟩
  obtain ⟨b, -, is, -, addresses⟩ := forall₂_exists_of_mem each ht
  exact addresses.assigned

/-- The variable of a main body, in the main body and one hop out of a block in it. -/
theorem names_are_lexical_block : ∃ log compiled b,
    compileBare {} Direct.blockProgram = (log, .ok compiled)
      ∧ b ∈ compiled.classes.flatMap (·.methods)
      ∧ b.Addresses ⟨⟨[["x"]], []⟩, [.assign "x", .block [] [.read "x"]]⟩
      ∧ Names.find ⟨[["x"]], []⟩ "x" = .slot 0 0
      ∧ Names.find ⟨[[], ["x"]], []⟩ "x" = .slot 1 0 := by
  obtain ⟨log, compiled, accepted, -⟩ := Direct.blockProgram_compiles true
  have main : (⟨⟨[["x"]], []⟩, [.assign "x", .block [] [.read "x"]]⟩ : Passage)
      ∈ Direct.blockProgram.passages :=
    List.mem_append_right _ (List.mem_singleton.2 rfl)
  obtain ⟨b, hb, addresses⟩ := forall₂_exists_of_mem (names_are_lexical accepted).1 main
  exact ⟨log, compiled, b, accepted, hb, addresses, by decide, by decide⟩

end Colloquy
