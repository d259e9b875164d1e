import Colloquy.Proofs.Compile.Acceptance

/-!
# Tables of nested blocks

The block literals of a body stand in the order of the text, each before those inside it
(`Stat.blockLiteralsAll`).  Resolution numbers them in this order, when it comes to a literal, and
code generation enters a block under its number when it is through with it.  In the table that comes
out, every block literal is found under its place in the order of the text, and the instruction
at the literal's own place pushes that number.

What code belongs to a tree is said here of the tree as it is written (`Expr.Coded`): names stand
for their lexical addresses, and the block literals of a tree are numbered from a given number on.

Main statement: `tables_match_text`.
-/

namespace Colloquy

open Instruction (Reads)

/-! ## Block literals in the text -/

/-- A block literal with what can be named around it. -/
structure BlockLiteral where
  around : Names
  head : BlockHead
  body : List Stat

/-- What can be named inside a block literal. -/
def BlockLiteral.names (l : BlockLiteral) : Names := l.around.inside (l.head.args ++ l.head.locals)

mutual

/-- The block literals of an expression at a place, in the order of the text and each before those
inside it. -/
def Expr.blockLiterals (p : Names) : Expr → List BlockLiteral
  | .literal _ => []
  | .self => []
  | .ident _ => []
  | .array items => Expr.blockLiteralsAll p items
  | .block head body =>
    ⟨p, head, body⟩ :: Stat.blockLiteralsAll (p.inside (head.args ++ head.locals)) body
  | .send receiver _ args _ => receiver.blockLiterals p ++ Expr.blockLiteralsAll p args
  | .superSend _ args _ => Expr.blockLiteralsAll p args

def Expr.blockLiteralsAll (p : Names) : List Expr → List BlockLiteral
  | [] => []
  | e :: rest => e.blockLiterals p ++ Expr.blockLiteralsAll p rest

def Stat.blockLiterals (p : Names) : Stat → List BlockLiteral
  | .expr value => value.blockLiterals p
  | .assign _ value _ => value.blockLiterals p
  | .ret value _ => value.blockLiterals p

def Stat.blockLiteralsAll (p : Names) : List Stat → List BlockLiteral
  | [] => []
  | s :: rest => s.blockLiterals p ++ Stat.blockLiteralsAll p rest

end

mutual

/-- The places of block literals are added to what `Expr.blocks` has. -/
theorem Expr.length_blockLiterals (p : Names) (e : Expr) :
    (e.blockLiterals p).length = e.blocks.length := by
  cases e with
  | literal value | self | ident name => rfl
  | array items | superSend message items position => exact Expr.length_blockLiteralsAll p items
  | block head body => exact congrArg (· + 1) (Stat.length_blockLiteralsAll _ body)
  | send receiver message args position =>
    rw [Expr.blockLiterals, Expr.blocks, List.length_append, List.length_append,
      Expr.length_blockLiterals p receiver, Expr.length_blockLiteralsAll p args]

theorem Expr.length_blockLiteralsAll (p : Names) (es : List Expr) :
    (Expr.blockLiteralsAll p es).length = (Expr.blocksAll es).length := by
  cases es with
  | nil => rfl
  | cons e rest =>
    rw [Expr.blockLiteralsAll, Expr.blocksAll, List.length_append, List.length_append,
      Expr.length_blockLiterals p e, Expr.length_blockLiteralsAll p rest]

theorem Stat.length_blockLiterals (p : Names) (s : Stat) :
    (s.blockLiterals p).length = s.blocks.length := by
  cases s with
  | expr value | assign target value position | ret value position =>
    exact Expr.length_blockLiterals p value

theorem Stat.length_blockLiteralsAll (p : Names) (ss : List Stat) :
    (Stat.blockLiteralsAll p ss).length = (Stat.blocksAll ss).length := by
  cases ss with
  | nil => rfl
  | cons s rest =>
    rw [Stat.blockLiteralsAll, Stat.blocksAll, List.length_append, List.length_append,
      Stat.length_blockLiterals p s, Stat.length_blockLiteralsAll p rest]

end

/-! ## Code of the text -/

/-- What comes behind the statements of a body, with the source position given. -/
def Ending.code (ending : Ending) (empty : Bool) (marks : List Instruction) : List Instruction :=
  match ending with
  | .method => marks ++ ((if empty then [] else [.pop]) ++ [.pushSelf, .ret])
  | .block => (if empty then [.pushNil] else []) ++ (marks ++ [.blockReturn])
  | .main => (if empty then [.pushSelf] else []) ++ (marks ++ [.ret])

section Code

variable (selector : String) (table : Array Block)

mutual

/-- The code of an expression of the method `selector` at a place, with the literals of the block
that it stands in.  Its block literals are numbered from `n` on, and are compiled in the table. -/
inductive Expr.Coded : Names → Array String → Nat → Expr → List Instruction → Prop where
  | literal {p : Names} {lits : Array String} {n : Nat} {value : Literal} {i : Instruction}
      (constant : ConstantCode lits value i) : Expr.Coded p lits n (.literal value) [i]
  | self {p : Names} {lits : Array String} {n : Nat} : Expr.Coded p lits n .self [.pushSelf]
  | ident {p : Names} {lits : Array String} {n : Nat} {x : Ident} {i : Instruction}
      (read : (p.find x.name).ReadBy lits x.name i) : Expr.Coded p lits n (.ident x) [i]
  | array {p : Names} {lits : Array String} {n : Nat} {items : List Expr} {is : List Instruction}
      (each : Expr.CodedAll p lits n items is) (short : items.length < 65536) :
      Expr.Coded p lits n (.array items) (is ++ [.pushArray items.length.toUInt16])
  | block {p : Names} {lits : Array String} {n : Nat} {head : BlockHead} {body : List Stat}
      {k : UInt16} {b : Block} (number : k.toNat = n) (entry : table[n]? = some b)
      (code : BlockLiteral.Coded n ⟨p, head, body⟩ b) :
      Expr.Coded p lits n (.block head body) [.block k]
  | send {p : Names} {lits : Array String} {n : Nat} {receiver : Expr} {message : String}
      {args : List Expr} {position : Position} {is js ks : List Instruction} {l : UInt16}
      (first : Expr.Coded p lits n receiver is)
      (each : Expr.CodedAll p lits (n + receiver.blocks.length) args js) (marks : Marks ks)
      (short : args.length < 65536) (literal : lits[l.toNat]? = some message) :
      Expr.Coded p lits n (.send receiver message args position)
        (is ++ (js ++ (ks ++ [.send args.length.toUInt16 l])))
  | superSend {p : Names} {lits : Array String} {n : Nat} {message : String} {args : List Expr}
      {position : Position} {js ks : List Instruction} {l : UInt16}
      (each : Expr.CodedAll p lits n args js) (marks : Marks ks) (short : args.length < 65536)
      (literal : lits[l.toNat]? = some message) :
      Expr.Coded p lits n (.superSend message args position)
        (.pushSelf :: (js ++ (ks ++ [.sendSuper args.length.toUInt16 l])))

/-- The code of expressions one after another. -/
inductive Expr.CodedAll : Names → Array String → Nat → List Expr → List Instruction → Prop where
  | nil {p : Names} {lits : Array String} {n : Nat} : Expr.CodedAll p lits n [] []
  | cons {p : Names} {lits : Array String} {n : Nat} {e : Expr} {rest : List Expr}
      {is js : List Instruction} (first : Expr.Coded p lits n e is)
      (later : Expr.CodedAll p lits (n + e.blocks.length) rest js) :
      Expr.CodedAll p lits n (e :: rest) (is ++ js)

inductive Stat.Coded : Names → Array String → Nat → Stat → List Instruction → Prop where
  | expr {p : Names} {lits : Array String} {n : Nat} {value : Expr} {is : List Instruction}
      (first : Expr.Coded p lits n value is) : Stat.Coded p lits n (.expr value) is
  | assign {p : Names} {lits : Array String} {n : Nat} {target : Ident} {value : Expr}
      {position : Position} {is ks : List Instruction} {i : Instruction} (marks : Marks ks)
      (first : Expr.Coded p lits n value is) (store : (p.find target.name).AssignedBy i) :
      Stat.Coded p lits n (.assign target value position) (ks ++ (is ++ [i]))
  | ret {p : Names} {lits : Array String} {n : Nat} {value : Expr} {position : Position}
      {is ks : List Instruction} (first : Expr.Coded p lits n value is) (marks : Marks ks) :
      Stat.Coded p lits n (.ret value position) (is ++ (ks ++ [.ret]))

/-- The code of statements with a `pop` between them. -/
inductive Stat.CodedAll : Names → Array String → Nat → List Stat → List Instruction → Prop where
  | nil {p : Names} {lits : Array String} {n : Nat} : Stat.CodedAll p lits n [] []
  | last {p : Names} {lits : Array String} {n : Nat} {s : Stat} {is : List Instruction}
      (first : Stat.Coded p lits n s is) : Stat.CodedAll p lits n [s] is
  | cons {p : Names} {lits : Array String} {n : Nat} {s next : Stat} {rest : List Stat}
      {is js : List Instruction} (first : Stat.Coded p lits n s is)
      (later : Stat.CodedAll p lits (n + s.blocks.length) (next :: rest) js) :
      Stat.CodedAll p lits n (s :: next :: rest) (is ++ (.pop :: js))

/-- The block is the compiled form of block literal number `n`: it has the literal's argument and
local counts, is named for its number, has no blocks of its own, and is the code of the body, whose
block literals are numbered behind it. -/
inductive BlockLiteral.Coded : Nat → BlockLiteral → Block → Prop where
  | intro {n : Nat} {l : BlockLiteral} {b : Block} {is ks : List Instruction}
      (name : b.name = selector ++ "-block" ++ n.repr) (nargs : b.nargs = l.head.args.length)
      (nlocals : b.nlocals = l.head.locals.length) (leaf : b.blocks = #[])
      (plain : b.primitive = none) (each : Stat.CodedAll l.names b.literals (n + 1) l.body is)
      (marks : Marks ks)
      (reads : Reads b.bytecode 0 (is ++ Ending.block.code l.body.isEmpty ks) b.bytecode.size) :
      BlockLiteral.Coded n l b

end

end Code

/-- A method or main body as it is written. -/
structure BodyText where
  selector : String
  names : Names
  stats : List Stat
  ending : Ending

/-- The text of a method, unless the machine carries it out itself. -/
def Method.text (fields : List String) (m : Method) : Option BodyText :=
  match m.kind with
  | .primitive _ => none
  | .code body => some ⟨m.selector, ⟨[m.args ++ m.locals], fields⟩, body.stats, .method⟩

def MainBody.text (fields : List String) (m : MainBody) : Option BodyText :=
  some ⟨mainSelector, ⟨[m.locals], fields⟩, m.body.stats, .main⟩

/-- The texts of all methods in order, that of the main body last. -/
def Program.texts (p : Program) : List (Option BodyText) :=
  p.classes.flatMap (fun c => c.methods.map (·.text (p.fieldsOf c.name)))
    ++ p.main.toList.map (·.text (p.fieldsOf rootClass))

/-- The block literals of a body. -/
def BodyText.blockLiterals (t : BodyText) : List BlockLiteral :=
  Stat.blockLiteralsAll t.names t.stats

/-- The block is the code of a body, and its table is that of the block literals of the body. -/
structure Block.Tabulates (t : BodyText) (b : Block) : Prop where
  code : ∃ is ks, Stat.CodedAll t.selector b.blocks t.names b.literals 0 t.stats is ∧ Marks ks
    ∧ Reads b.bytecode 0 (is ++ t.ending.code t.stats.isEmpty ks) b.bytecode.size
  size : b.blocks.size = t.blockLiterals.length
  entries : ∀ (i : Nat) (l : BlockLiteral), t.blockLiterals[i]? = some l →
    ∃ e, b.blocks[i]? = some e ∧ l.Coded t.selector b.blocks i e

/-- The block is the code of the text, if there is one. -/
def Block.Matches (t : Option BodyText) (b : Block) : Prop := ∀ t' ∈ t, b.Tabulates t'

/-! ## Entries of tables -/

section Entries

variable {selector : String} {table : Array Block} {p : Names} {lits : Array String}
  {is : List Instruction}

/-- The table has the given block literals from number `n` on. -/
def HasFrom (selector : String) (table : Array Block) (n : Nat) (ls : List BlockLiteral) : Prop :=
  ∀ (i : Nat) (l : BlockLiteral), ls[i]? = some l →
    ∃ e, table[n + i]? = some e ∧ l.Coded selector table (n + i) e

theorem hasFrom_nil {n : Nat} : HasFrom selector table n [] := by
  intro i l h
  cases h

theorem HasFrom.append {n k : Nat} {ls ms : List BlockLiteral} (h : HasFrom selector table n ls)
    (h' : HasFrom selector table (n + k) ms) (count : ls.length = k) :
    HasFrom selector table n (ls ++ ms) := by
  intro i l found
  subst count
  rcases Nat.lt_or_ge i ls.length with before | behind
  · rw [List.getElem?_append_left before] at found
    exact h i l found
  · rw [List.getElem?_append_right behind] at found
    obtain ⟨e, entry, code⟩ := h' _ l found
    rw [Nat.add_assoc, Nat.add_sub_cancel' behind] at entry code
    exact ⟨e, entry, code⟩

/-- The literal comes first, and then those inside it. -/
theorem HasFrom.cons {n : Nat} {l : BlockLiteral} {ls : List BlockLiteral} {e : Block}
    (entry : table[n]? = some e) (code : l.Coded selector table n e)
    (h : HasFrom selector table (n + 1) ls) : HasFrom selector table n (l :: ls) := by
  rw [← List.singleton_append]
  refine HasFrom.append (fun i m found => ?_) h rfl
  obtain ⟨rfl, rfl⟩ : i = 0 ∧ l = m := by
    cases i with
    | zero => exact ⟨rfl, Option.some.inj found⟩
    | succ i => cases found
  exact ⟨e, entry, code⟩

mutual

/-- **The block literals of an expression are in the table**, in the order of the text. -/
theorem Expr.Coded.hasFrom {n : Nat} {p : Names} {lits : Array String} {is : List Instruction}
    (e : Expr) (h : e.Coded selector table p lits n is) :
    HasFrom selector table n (e.blockLiterals p) := by
  cases e with
  | literal value | self | ident name => exact hasFrom_nil
  | array items =>
    cases h with
    | array each => exact Expr.CodedAll.hasFrom items each
  | block head body =>
    cases h with
    | block number entry code =>
      cases code with
      | intro name nargs nlocals leaf plain each marks reads =>
        exact .cons entry (.intro name nargs nlocals leaf plain each marks reads)
          (Stat.CodedAll.hasFrom body each)
  | send receiver message args position =>
    cases h with
    | send first each =>
      exact (Expr.Coded.hasFrom receiver first).append (Expr.CodedAll.hasFrom args each)
        (Expr.length_blockLiterals _ receiver)
  | superSend message args position =>
    cases h with
    | superSend each => exact Expr.CodedAll.hasFrom args each
termination_by structural e

theorem Expr.CodedAll.hasFrom {n : Nat} {p : Names} {lits : Array String} {is : List Instruction}
    (es : List Expr) (h : Expr.CodedAll selector table p lits n es is) :
    HasFrom selector table n (Expr.blockLiteralsAll p es) := by
  cases es with
  | nil => exact hasFrom_nil
  | cons e rest =>
    cases h with
    | cons first later =>
      exact (Expr.Coded.hasFrom e first).append (Expr.CodedAll.hasFrom rest later)
        (Expr.length_blockLiterals _ e)
termination_by structural es

theorem Stat.Coded.hasFrom {n : Nat} {p : Names} {lits : Array String} {is : List Instruction}
    (s : Stat) (h : s.Coded selector table p lits n is) :
    HasFrom selector table n (s.blockLiterals p) := by
  cases s with
  | expr value =>
    cases h with
    | expr first => exact Expr.Coded.hasFrom value first
  | assign target value position =>
    cases h with
    | assign _ first => exact Expr.Coded.hasFrom value first
  | ret value position =>
    cases h with
    | ret first => exact Expr.Coded.hasFrom value first
termination_by structural s

theorem Stat.CodedAll.hasFrom {n : Nat} {p : Names} {lits : Array String} {is : List Instruction}
    (ss : List Stat) (h : Stat.CodedAll selector table p lits n ss is) :
    HasFrom selector table n (Stat.blockLiteralsAll p ss) := by
  cases ss with
  | nil => exact hasFrom_nil
  | cons s rest =>
    have count := Stat.length_blockLiterals p s
    have others {k : Nat} {js : List Instruction}
        (h : Stat.CodedAll selector table p lits k rest js) := Stat.CodedAll.hasFrom rest h
    cases h with
    | last first => exact (Stat.Coded.hasFrom s first).append hasFrom_nil count
    | cons first later => exact (Stat.Coded.hasFrom s first).append (others later) count
termination_by structural ss

end

end Entries

/-! ## Code of resolved trees -/

/-- The code of a body is that of its statements and what comes behind them. -/
theorem BodyCode.parts {tree : ScopeTree} {blocks : Array Block} {source : Source} {b : Block}
    (h : BodyCode tree blocks source b) :
    ∃ is ks, StatsCode tree blocks source.scope b.literals source.stats is ∧ Marks ks
      ∧ Reads b.bytecode 0 (is ++ source.ending.code source.stats.isEmpty ks) b.bytecode.size := by
  cases h with
  | method _ each marks reads => exact ⟨_, _, each, marks, reads⟩
  | block _ each marks reads => exact ⟨_, _, each, marks, reads⟩
  | main _ each marks reads => exact ⟨_, _, each, marks, reads⟩

namespace Resolve

variable {σ σ' : Resolver} {fields : List String} {selector : String}

/-- The scope that is opened for code. -/
theorem openCode_scope {name : String} {kind : ScopeKind} {parent : ScopeId}
    {args locals : List String} {scope : ScopeId × List String}
    (h : openCode name kind parent args locals σ = .ok scope σ') :
    σ'.tree.get? scope.1 = some ⟨name, kind, some parent, args ++ locals, args.length⟩ := by
  obtain ⟨_, _, ⟨⟩, checked⟩ := EStateM.bind_eq_ok.1 h
  obtain ⟨_, _, hvars, added⟩ := EStateM.bind_eq_ok.1 checked
  obtain ⟨-, rfl⟩ := check_eq_ok.1 hvars
  obtain ⟨id, _, ⟨⟩, ⟨⟩⟩ := EStateM.bind_eq_ok.1 added
  exact (get?_add _ _).2

/-- **A block literal takes the next number**, and its scope is named for it. -/
theorem openBlock_numbers {chain inner : ScopeChain} {head head' : BlockHead}
    (h : openBlock selector chain head σ = .ok (head', inner) σ') :
    head'.index.toNat = σ.nextBlock ∧ σ'.nextBlock = σ.nextBlock + 1
      ∧ ∀ b, head'.scope = some b → ∃ s, σ'.tree.get? b = some s
        ∧ s.name = selector ++ "-block" ++ σ.nextBlock.repr ∧ s.nargs = head.args.length
        ∧ s.vars = head.args ++ head.locals := by
  have next := needs_openBlock.next σ _ σ' h
  obtain ⟨index, τ, hindex, h⟩ := EStateM.bind_eq_ok.1 h
  obtain ⟨number, rfl⟩ := takeBlockIndex_eq_ok hindex
  obtain ⟨scope, τ, hopen, ⟨⟩⟩ := EStateM.bind_eq_ok.1 h
  refine ⟨number, next, ?_⟩
  rintro _ ⟨⟩
  exact ⟨_, openCode_scope hopen, by rw [number], rfl, rfl⟩

mutual

/-- **The code of an expression is that of its text.** -/
theorem expr_coded {tree : ScopeTree} {blocks : Array Block} {lits : Array String}
    {scope : ScopeId} {is : List Instruction} (room : fields.length ≤ maxSlots) {chain : ScopeChain}
    {σ σ' : Resolver} (nests : σ.tree.Nests chain)
    (innermost : chain.head?.map Prod.fst = some scope) (e : Expr) {e' : Expr}
    (h : expr fields selector chain e σ = .ok e' σ') (grows : σ'.tree.Grows tree)
    (code : ExprCode tree blocks scope lits e' is) :
    e.Coded selector blocks ⟨chain.map Prod.snd, fields⟩ lits σ.nextBlock is := by
  cases e with
  | literal value =>
    cases h
    cases code with
    | literal constant => exact .literal constant
  | self =>
    cases h
    cases code with
    | self => exact .self
  | ident name =>
    cases h
    cases code with
    | ident load => exact .ident (load.readBy room (nests.mono grows) innermost)
  | array items =>
    obtain ⟨_, τ, hitems, ⟨⟩⟩ := EStateM.bind_eq_ok.1 h
    obtain ⟨_, rfl, count, each⟩ := exprs_coded room nests innermost items [] hitems grows
    cases code with
    | array codes short =>
      rw [count] at short ⊢
      exact .array (each codes) short
  | block head body =>
    obtain ⟨⟨head', inner⟩, τ, hopen, hbody⟩ := EStateM.bind_eq_ok.1 h
    obtain ⟨body', τ', hstats, ⟨⟩⟩ := EStateM.bind_eq_ok.1 hbody
    obtain ⟨-, nests', b, opened, rfl⟩ := openBlock_nests nests hopen
    obtain ⟨number, next, opens⟩ := openBlock_numbers hopen
    obtain ⟨s, here, named, nargs, vars⟩ := opens b opened
    obtain ⟨_, rfl, empty, each⟩ := stats_coded room nests' rfl body [] hstats grows
    obtain ⟨_, -, taken, -⟩ := stats_scoped room nests'.around body [] hstats
    have known := grows _ _ (taken.grows _ _ here)
    cases code with
    | block opened' entry code leaf =>
      cases opened.symm.trans opened'
      obtain ⟨js, ks, codes, marks, reads⟩ := code.parts
      obtain ⟨t, here', nargs', nlocals'⟩ := code.fits.frame
      cases known.symm.trans here'
      rw [number] at entry
      rw [next] at each
      refine .block number entry (.intro ?_ ?_ ?_ leaf code.fits.plain (each codes) marks ?_)
      · rw [code.fits.named s known, named]
      · rw [nargs', nargs]
      · rw [nlocals', vars, nargs, List.length_append, Nat.add_sub_cancel_left]
      · rwa [empty] at reads
  | send receiver message args position =>
    obtain ⟨receiver', τ, hreceiver, hrest⟩ := EStateM.bind_eq_ok.1 h
    obtain ⟨_, τ', hargs, ⟨⟩⟩ := EStateM.bind_eq_ok.1 hrest
    have nests' := nests.mono (expr_scoped room nests.around receiver hreceiver).1.grows
    have next := (expr_needs chain receiver).next σ _ τ hreceiver
    obtain ⟨_, -, taken, -⟩ := exprs_scoped room nests'.around args [] hargs
    obtain ⟨_, rfl, count, each⟩ := exprs_coded room nests' innermost args [] hargs grows
    cases code with
    | send first codes marks short literal =>
      have before :=
        expr_coded room nests innermost receiver hreceiver (taken.grows.trans grows) first
      rw [next] at each
      rw [count] at short ⊢
      exact .send before (each codes) marks short literal
  | superSend message args position =>
    obtain ⟨_, τ, hargs, ⟨⟩⟩ := EStateM.bind_eq_ok.1 h
    obtain ⟨_, rfl, count, each⟩ := exprs_coded room nests innermost args [] hargs grows
    cases code with
    | superSend codes marks short literal =>
      rw [count] at short ⊢
      exact .superSend (each codes) marks short literal
termination_by structural e

theorem exprs_coded {tree : ScopeTree} {blocks : Array Block} {scope : ScopeId}
    (room : fields.length ≤ maxSlots) {chain : ScopeChain} {σ σ' : Resolver}
    (nests : σ.tree.Nests chain) (innermost : chain.head?.map Prod.fst = some scope)
    (es done : List Expr) {es' : List Expr}
    (h : exprs fields selector chain es done σ = .ok es' σ') (grows : σ'.tree.Grows tree) :
    ∃ new, es' = done.reverse ++ new ∧ new.length = es.length
      ∧ ∀ {lits : Array String} {is : List Instruction}, ExprsCode tree blocks scope lits new is →
        Expr.CodedAll selector blocks ⟨chain.map Prod.snd, fields⟩ lits σ.nextBlock es is := by
  cases es with
  | nil =>
    cases h
    refine ⟨[], (List.append_nil _).symm, rfl, fun code => ?_⟩
    cases code
    exact .nil
  | cons e rest =>
    obtain ⟨e', τ, he, hrest⟩ := EStateM.bind_eq_ok.1 h
    have nests' := nests.mono (expr_scoped room nests.around e he).1.grows
    have next := (expr_needs chain e).next σ _ τ he
    obtain ⟨_, -, taken, -⟩ := exprs_scoped room nests'.around rest (e' :: done) hrest
    obtain ⟨new, rfl, count, later⟩ :=
      exprs_coded room nests' innermost rest (e' :: done) hrest grows
    refine ⟨e' :: new, by simp, by simp [count], fun code => ?_⟩
    rw [next] at later
    cases code with
    | cons first codes =>
      exact .cons (expr_coded room nests innermost e he (taken.grows.trans grows) first)
        (later codes)
termination_by structural es

theorem stat_coded {tree : ScopeTree} {blocks : Array Block} {lits : Array String}
    {scope : ScopeId} {is : List Instruction} (room : fields.length ≤ maxSlots) {chain : ScopeChain}
    {σ σ' : Resolver} (nests : σ.tree.Nests chain)
    (innermost : chain.head?.map Prod.fst = some scope) (s : Stat) {s' : Stat}
    (h : stat fields selector chain s σ = .ok s' σ') (grows : σ'.tree.Grows tree)
    (code : StatCode tree blocks scope lits s' is) :
    s.Coded selector blocks ⟨chain.map Prod.snd, fields⟩ lits σ.nextBlock is := by
  cases s with
  | expr value =>
    obtain ⟨_, τ, hvalue, ⟨⟩⟩ := EStateM.bind_eq_ok.1 h
    cases code with
    | expr first => exact .expr (expr_coded room nests innermost value hvalue grows first)
  | assign target value position =>
    obtain ⟨_, τ, hvalue, ⟨⟩⟩ := EStateM.bind_eq_ok.1 h
    have final := (nests.mono (expr_scoped room nests.around value hvalue).1.grows).mono grows
    cases code with
    | assign marks first store =>
      exact .assign marks (expr_coded room nests innermost value hvalue grows first)
        (store.assignedBy room final innermost)
  | ret value position =>
    obtain ⟨_, τ, hvalue, ⟨⟩⟩ := EStateM.bind_eq_ok.1 h
    cases code with
    | ret first marks =>
      exact .ret (expr_coded room nests innermost value hvalue grows first) marks
termination_by structural s

theorem stats_coded {tree : ScopeTree} {blocks : Array Block} {scope : ScopeId}
    (room : fields.length ≤ maxSlots) {chain : ScopeChain} {σ σ' : Resolver}
    (nests : σ.tree.Nests chain) (innermost : chain.head?.map Prod.fst = some scope)
    (ss done : List Stat) {ss' : List Stat}
    (h : stats fields selector chain ss done σ = .ok ss' σ') (grows : σ'.tree.Grows tree) :
    ∃ new, ss' = done.reverse ++ new ∧ new.isEmpty = ss.isEmpty
      ∧ ∀ {lits : Array String} {is : List Instruction}, StatsCode tree blocks scope lits new is →
        Stat.CodedAll selector blocks ⟨chain.map Prod.snd, fields⟩ lits σ.nextBlock ss is := by
  cases ss with
  | nil =>
    cases h
    refine ⟨[], (List.append_nil _).symm, rfl, fun code => ?_⟩
    cases code
    exact .nil
  | cons s rest =>
    obtain ⟨s', τ, hs, hrest⟩ := EStateM.bind_eq_ok.1 h
    have nests' := nests.mono (stat_scoped room nests.around s hs).1.grows
    have next := (stat_needs chain s).next σ _ τ hs
    obtain ⟨_, -, taken, -⟩ := stats_scoped room nests'.around rest (s' :: done) hrest
    obtain ⟨new, rfl, empty, later⟩ :=
      stats_coded room nests' innermost rest (s' :: done) hrest grows
    refine ⟨s' :: new, by simp, rfl, @fun lits is code => ?_⟩
    rw [next] at later
    have first {js : List Instruction} (code : StatCode tree blocks scope lits s' js) :=
      stat_coded room nests innermost s hs (taken.grows.trans grows) code
    -- the statement is the last one of the text just if it is the last one that was resolved
    cases code with
    | last code =>
      obtain rfl := List.isEmpty_iff.1 empty.symm
      exact .last (first code)
    | cons code codes =>
      cases rest with
      | nil => cases empty
      | cons t others => exact .cons (first code) (later codes)
termination_by structural ss

end

/-! ### Methods and programs -/

/-- **The table of a body is that of its block literals.** -/
theorem body_tabulates {tree : ScopeTree} {options : CompilerOptions}
    {scope : ScopeId × List String} {b b' : Body} {ending : Ending} {block : Block}
    (room : fields.length ≤ maxSlots) (nests : σ.tree.Nests [scope])
    (h : body fields selector scope b σ = .ok b' σ')
    (grows : σ'.tree.Grows tree)
    (code : BodyCode tree block.blocks ⟨scope.1, b'.stats, ending⟩ block)
    (whole : Emit.Whole options (Emit.indices (Stat.blocksAll b'.stats)) block) :
    block.Tabulates ⟨selector, ⟨[scope.2], fields⟩, b.stats, ending⟩ := by
  obtain ⟨stats', hstats, rfl⟩ := body_eq_ok h
  have nests' : ({ σ with nextBlock := 0 } : Resolver).tree.Nests [scope] := nests
  obtain ⟨_, rfl, empty, each⟩ := stats_coded room nests' rfl b.stats [] hstats grows
  obtain ⟨_, rfl, taken, -⟩ := stats_scoped room nests'.around b.stats [] hstats
  obtain ⟨is, ks, codes, marks, reads⟩ := code.parts
  have coded := each codes
  have entries := coded.hasFrom
  have count : (Stat.blocksAll stats').length
      = (Stat.blockLiteralsAll ⟨[scope.2], fields⟩ b.stats).length := by
    rw [Stat.length_blockLiteralsAll]
    exact Nat.add_left_cancel (taken.next.symm.trans ((stats_needs _ _ _).next _ _ _ hstats))
  refine ⟨⟨is, ks, coded, marks, empty ▸ reads⟩, ?_, fun i l found => ?_⟩
  · -- an entry too many has no number, and a literal too many has no entry
    refine Nat.le_antisymm (Nat.le_of_not_lt fun more => ?_) (Nat.le_of_not_lt fun fewer => ?_)
    · obtain ⟨-, known⟩ := whole.nested _ _ (Array.getElem?_eq_getElem more)
      rw [Emit.indices, taken.numbered, List.mem_range'_1, count] at known
      exact Nat.lt_irrefl _ (Nat.zero_add _ ▸ known.2)
    · obtain ⟨e, entry, -⟩ := entries _ _ (List.getElem?_eq_getElem fewer)
      rw [Nat.zero_add, Array.getElem?_eq_none (Nat.le_refl _)] at entry
      cases entry
  · obtain ⟨e, entry, code⟩ := entries i l found
    rw [Nat.zero_add] at entry code
    exact ⟨e, entry, code⟩

/-- **A compiled method has the table of its text.** -/
theorem method_tabulates {tree : ScopeTree} {options : CompilerOptions} {className : String}
    {classScope : ScopeId} {seen : Std.HashMap String Unit} {m m' : Method} {b : Block}
    (room : fields.length ≤ maxSlots)
    (h : method className classScope fields seen m σ = .ok m' σ') (grows : σ'.tree.Grows tree)
    (makes : Emit.Makes tree options m' b) : b.Matches (m.text fields) := by
  obtain ⟨_, _, made⟩ := makes
  obtain ⟨id, opened, -, code⟩ := Emit.method_code made
  intro t ht
  rw [Method.text] at ht
  cases method_resolves h with
  | primitive kind =>
    rw [kind] at ht
    cases ht
  | code kind opens resolves =>
    obtain ⟨nests, vars⟩ := openCode_nests opens
    rw [kind, ← vars] at ht
    cases ht
    cases opened
    exact body_tabulates room nests resolves grows (code _ rfl) (Emit.method_whole rfl made)

theorem methods_tabulate (tree : ScopeTree) (options : CompilerOptions) :
    MethodsShow tree fun fields m m' =>
      ∀ b, Emit.Makes tree options m' b → b.Matches (m.text fields) := by
  intro _ _ _ _ _ _ _ _ room resolved grows _
  exact method_tabulates room resolved grows

/-- **A compiled main body has the table of its text.** -/
theorem mainBody_tabulates {tree : ScopeTree} {options : CompilerOptions} {m m' : MainBody}
    {b : Block} {g g' : Generator} (room : (σ.layouts.getD rootClass []).length ≤ maxSlots)
    (h : mainBody m σ = .ok m' σ') (grows : σ'.tree.Grows tree)
    (made : Emit.mainBody tree options m' g = .ok b g') :
    b.Matches (m.text (σ.layouts.getD rootClass [])) := by
  obtain ⟨id, opened, code⟩ := Emit.mainBody_code made
  obtain ⟨_, _, scope, _, _, -, -, opens, resolves, rfl⟩ := mainBody_eq_ok h
  obtain ⟨nests, vars⟩ := openCode_nests opens
  cases opened
  rw [MainBody.text, show m.locals = scope.2 from vars.symm]
  rintro _ ⟨⟩
  exact body_tabulates room nests resolves grows code (Emit.mainBody_whole made)

end Resolve

/-- **Tables of nested blocks match the text.**  In an accepted program, the table of every method
that is no primitive, and that of the main body, has one entry for each block literal of its body:
entry `i` is the compiled form of block literal `i` in the order of the text, with the literal's
argument and local counts, the name `selector-blocki` and no table of its own; and the code at the
literal's own place is `block i`. -/
theorem tables_match_text {options : CompilerOptions} {p : Program} {log : Log}
    {compiled : CompiledProgram} (accepted : compileBare options p = (log, .ok compiled)) :
    List.Forall₂ (fun t b => Block.Matches t b) p.texts
      (compiled.classes.flatMap (·.methods)) :=
  compileBare_pairs accepted (fun tree => Resolve.methods_tabulate tree options)
    Resolve.mainBody_tabulates

/-- The main body of a program with one block literal. -/
theorem tables_match_text_block : ∃ log compiled b e,
    compileBare {} Direct.blockProgram = (log, .ok compiled)
      ∧ b ∈ compiled.classes.flatMap (·.methods) ∧ b.blocks.size = 1 ∧ b.blocks[0]? = some e
      ∧ e.name = "main-block0" ∧ e.nargs = 0 ∧ e.nlocals = 0 ∧ e.blocks = #[] := by
  obtain ⟨log, compiled, accepted, -⟩ := Direct.blockProgram_compiles true
  obtain ⟨m, hm⟩ : ∃ m, Direct.blockProgram.main = some m := ⟨_, rfl⟩
  have main : m.text [] ∈ Direct.blockProgram.texts := by
    rw [Program.texts, hm]
    exact List.mem_append_right _ (List.mem_singleton.2 rfl)
  obtain ⟨b, hb, fits⟩ := forall₂_exists_of_mem (tables_match_text accepted) main
  cases hm
  have tabulates := fits _ rfl
  obtain ⟨e, entry, code⟩ := tabulates.entries 0 _ rfl
  cases code with
  | intro name nargs nlocals leaf =>
    exact ⟨log, compiled, b, e, accepted, hb, tabulates.size, entry, name, nargs, nlocals, leaf⟩

end Colloquy
