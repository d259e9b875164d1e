import Colloquy.Proofs.Compile.Loading

/-!
# The scopes of a program form a tree

Resolution adds scopes one at a time, each below a scope that is there: a class below the global
scope, a method below its class, a block below the method or block around it
(`ScopeTree.Rooted.add`).  So parents are numbered before their children, and the way up from any
scope leads to the global scope and ends there.

Looking for a scope on the way up is a loop without a guard (`ScopeTree.Ascent`).  In a rooted tree
it ends from everywhere (`ScopeTree.Rooted.ascent`), and what it finds is the number of hops
(`ScopeTree.Rooted.relativeDepth_eq_some_iff`).

Main statement: `scopes_form_a_tree`.
-/

namespace Colloquy

namespace ScopeKind

/-- The scope has code, and so variables. -/
def isCode : ScopeKind → Bool
  | .method _ | .block _ => true
  | .global | .cls => false

/-- Which kind of scope is inside which. -/
inductive Inside : ScopeKind → ScopeKind → Prop
  | cls : Inside .cls .global
  | method {classSide : Bool} : Inside (.method classSide) .cls
  | block {index : UInt16} {outer : ScopeKind} (code : outer.isCode = true) :
      Inside (.block index) outer

namespace Inside

variable {inner outer : ScopeKind}

theorem eq_global (h : inner.Inside outer) (isClass : inner = .cls) : outer = .global := by
  subst isClass
  cases h
  rfl

theorem eq_cls {classSide : Bool} (h : inner.Inside outer) (isMethod : inner = .method classSide) :
    outer = .cls := by
  subst isMethod
  cases h
  rfl

theorem isCode {index : UInt16} (h : inner.Inside outer) (isBlock : inner = .block index) :
    outer.isCode = true := by
  subst isBlock
  cases h
  assumption

/-- What has no code is inside something without code. -/
theorem bare (h : inner.Inside outer) (bare : inner.isCode = false) :
    outer.isCode = false := by
  cases h with
  | block => cases bare
  | _ => rfl

end Inside

end ScopeKind

namespace ScopeTree

-- numbers of scopes are natural numbers here, for the arithmetic
variable {t : ScopeTree} {id source target : Nat} {s outer : Scope} {n m d depth : Nat}

/-- The scope `n` hops up from a number. -/
def ancestor? (t : ScopeTree) : (n : Nat) → ScopeId → Option ScopeId
  | 0, id => some id
  | n + 1, id => (t.parent? id).bind (t.ancestor? n)

/-- The number is that of a method. -/
def IsMethod (t : ScopeTree) (id : ScopeId) : Prop :=
  ∃ s classSide, t.get? id = some s ∧ s.kind = .method classSide

/-- The loop that looks for `target` on the way up, turn by turn: with `depth` hops made it stands
at `source`, and it goes on to any parent, as long as the hops can be counted in a short. -/
inductive Ascent (t : ScopeTree) (target : ScopeId) : ScopeId → Nat → Option Nat → Prop
  | found (depth : Nat) : Ascent t target target depth (some depth)
  | lost {source : ScopeId} (depth : Nat) (elsewhere : source ≠ target)
      (top : t.parent? source = none) : Ascent t target source depth none
  | far {source above : ScopeId} {depth : Nat} (elsewhere : source ≠ target)
      (up : t.parent? source = some above) (full : depth = 65535) :
      Ascent t target source depth none
  | hop {source above : ScopeId} {depth : Nat} {answer : Option Nat} (elsewhere : source ≠ target)
      (up : t.parent? source = some above) (short : depth < 65535)
      (later : Ascent t target above (depth + 1) answer) : Ascent t target source depth answer

/-- The global scope is at the root, and every other scope is inside one with a smaller number, of
a kind that it belongs in. -/
structure Rooted (t : ScopeTree) : Prop where
  root : ∃ s, t.get? globalId = some s ∧ s.kind = .global ∧ s.parent = none
  inside : ∀ (id : Nat) s, t.get? id = some s → id ≠ globalId → ∃ (above : Nat) (outer : Scope),
    s.parent = some above ∧ above < id ∧ t.get? above = some outer ∧ s.kind.Inside outer.kind

theorem parent?_of_get? (here : t.get? id = some s) : t.parent? id = s.parent := by
  rw [parent?, here, Option.bind_some]

theorem ancestor?_add (n m : Nat) (id : ScopeId) :
    t.ancestor? (n + m) id = (t.ancestor? n id).bind (t.ancestor? m) := by
  induction n generalizing id with
  | zero => rw [Nat.zero_add, ancestor?, Option.bind_some]
  | succ n ih =>
    rw [Nat.succ_add, ancestor?, ancestor?, Option.bind_assoc]
    exact congrArg _ (funext ih)

namespace Rooted

theorem empty : empty.Rooted where
  root := ⟨_, rfl, rfl, rfl⟩
  inside id s here other := by
    have lt : id < 1 := (Array.getElem?_eq_some_iff.1 here).1
    exact absurd (Nat.lt_one_iff.1 lt) other

/-- **A scope that is added belongs in the one above it**, and all others stay where they are. -/
theorem add (h : t.Rooted) {above : ScopeId} (up : s.parent = some above)
    (known : t.get? above = some outer) (inside : s.kind.Inside outer.kind) :
    (t.add s).1.Rooted := by
  have grows := (Resolve.get?_add t s).1
  obtain ⟨root, hroot, kind, top⟩ := h.root
  refine ⟨⟨root, grows _ _ hroot, kind, top⟩, fun id s' here other => ?_⟩
  simp only [get?, ScopeTree.add, Array.getElem?_push] at here
  split at here
  · cases here
    exact ⟨above, outer, up, by simp_all [(Array.getElem?_eq_some_iff.1 known).1],
      grows _ _ known, inside⟩
  · obtain ⟨above', outer', up', lower, known', inside'⟩ := h.inside id s' here other
    exact ⟨above', outer', up', lower, grows _ _ known', inside'⟩

theorem kind_eq_global_iff (h : t.Rooted) (here : t.get? id = some s) :
    s.kind = .global ↔ id = globalId := by
  refine ⟨fun kind => Classical.byContradiction fun other => ?_, ?_⟩
  · obtain ⟨_, _, -, -, -, inside⟩ := h.inside id s here other
    rw [kind] at inside
    cases inside
  · rintro rfl
    obtain ⟨root, hroot, kind, -⟩ := h.root
    cases here.symm.trans hroot
    exact kind

theorem parent_eq_none_iff (h : t.Rooted) (here : t.get? id = some s) :
    s.parent = none ↔ id = globalId := by
  refine ⟨fun top => Classical.byContradiction fun other => ?_, ?_⟩
  · obtain ⟨_, _, up, -⟩ := h.inside id s here other
    cases top.symm.trans up
  · rintro rfl
    obtain ⟨root, hroot, -, top⟩ := h.root
    cases here.symm.trans hroot
    exact top

/-- What is above a scope, which is then not the global one. -/
theorem below (h : t.Rooted) {above : Nat} (here : t.get? id = some s)
    (up : s.parent = some above) :
    above < id ∧ ∃ outer, t.get? above = some outer ∧ s.kind.Inside outer.kind := by
  have other : id ≠ globalId := fun root => by
    cases up.symm.trans ((h.parent_eq_none_iff here).2 root)
  obtain ⟨_, outer, up', lower, known, inside⟩ := h.inside id s here other
  cases up.symm.trans up'
  exact ⟨lower, outer, known, inside⟩

/-- What a scope other than the global one is inside of. -/
theorem around (h : t.Rooted) (here : t.get? id = some s) (kind : s.kind ≠ .global) :
    ∃ above outer, s.parent = some above ∧ t.get? above = some outer
      ∧ s.kind.Inside outer.kind := by
  obtain ⟨above, outer, up, -, known, inside⟩ :=
    h.inside id s here fun root => kind ((h.kind_eq_global_iff here).2 root)
  exact ⟨above, outer, up, known, inside⟩

/-! ## The way up -/

theorem parent?_lt (h : t.Rooted) {above : Nat} (up : t.parent? id = some above) : above < id := by
  obtain ⟨s, here, up⟩ := Option.bind_eq_some_iff.1 up
  exact (h.below here up).1

theorem ancestor?_add_le (h : t.Rooted) {a : Nat} (up : t.ancestor? n id = some a) :
    a + n ≤ id := by
  induction n generalizing id with
  | zero =>
    cases up
    exact Nat.le_refl _
  | succ n ih =>
    obtain ⟨above, hop, up⟩ := Option.bind_eq_some_iff.1 up
    have lower := h.parent?_lt hop
    have := ih up
    omega

/-- **The way up ends** after no more hops than the number of the scope. -/
theorem ancestor?_eq_none (h : t.Rooted) (id : Nat) : t.ancestor? (id + 1) id = none := by
  refine Option.eq_none_iff_forall_ne_some.2 fun a up => ?_
  have := h.ancestor?_add_le up
  omega

/-- The loop ends, with what `climb` answers: no parent is ever numbered behind its child. -/
theorem ascent (h : t.Rooted) (short : depth ≤ 65535) :
    t.Ascent target source depth (t.climb target source depth) := by
  fun_induction climb t target source depth with
  | case1 depth => exact .found depth
  | case2 source depth elsewhere top => exact .lost depth elsewhere top
  | case3 source depth elsewhere above up room ih =>
    obtain ⟨-, room⟩ : above < source ∧ depth < 65535 := by simpa using room
    exact .hop elsewhere up room (ih room)
  | case4 source depth elsewhere above up full =>
    have full : ¬(above < source ∧ depth < 65535) := by simpa using full
    have : ¬depth < 65535 := fun room => full ⟨h.parent?_lt up, room⟩
    exact .far elsewhere up (by omega)

theorem climb_of_ancestor? (h : t.Rooted) (up : t.ancestor? n source = some target)
    (short : depth + n ≤ 65535) : t.climb target source depth = some (depth + n) := by
  induction n generalizing source depth with
  | zero =>
    cases up
    exact Direct.climb_self t target depth
  | succ n ih =>
    obtain ⟨above, hop, up'⟩ := Option.bind_eq_some_iff.1 up
    have lower := h.parent?_lt hop
    have elsewhere : source ≠ target := by
      have := h.ancestor?_add_le up
      exact Nat.ne_of_gt (by omega)
    rw [Direct.climb_up elsewhere hop lower (by omega), ih up' (by omega)]
    congr 1
    omega

theorem exists_hops_of_climb (found : t.climb target source depth = some d) :
    ∃ n, d = depth + n ∧ t.ancestor? n source = some target := by
  fun_induction climb t target source depth with
  | case1 depth =>
    cases found
    exact ⟨0, rfl, rfl⟩
  | case2 => cases found
  | case3 source depth _ above up _ ih =>
    obtain ⟨n, rfl, later⟩ := ih found
    exact ⟨n + 1, by omega, by rw [ancestor?, up, Option.bind_some, later]⟩
  | case4 => cases found

/-- **The relative depth is the number of hops**, if that is short. -/
theorem relativeDepth_eq_some_iff (h : t.Rooted) :
    t.relativeDepth source target = some d ↔ d ≤ 65535 ∧ t.ancestor? d source = some target := by
  constructor
  · intro found
    obtain ⟨n, rfl, up⟩ := exists_hops_of_climb found
    have := climb_lt (by decide) found
    rw [Nat.zero_add] at this ⊢
    exact ⟨by omega, up⟩
  · rintro ⟨short, up⟩
    rw [relativeDepth, h.climb_of_ancestor? up (by omega), Nat.zero_add]

theorem relativeDepth_trans (h : t.Rooted) {a b c e : Nat}
    (first : t.relativeDepth a b = some d) (second : t.relativeDepth b c = some e)
    (short : d + e ≤ 65535) : t.relativeDepth a c = some (d + e) := by
  refine h.relativeDepth_eq_some_iff.2 ⟨short, ?_⟩
  rw [ancestor?_add, (h.relativeDepth_eq_some_iff.1 first).2, Option.bind_some]
  exact (h.relativeDepth_eq_some_iff.1 second).2

theorem relativeDepth_antisymm (h : t.Rooted) {a b e : Nat}
    (down : t.relativeDepth a b = some d) (up : t.relativeDepth b a = some e) : a = b := by
  have le := h.ancestor?_add_le (h.relativeDepth_eq_some_iff.1 down).2
  have ge := h.ancestor?_add_le (h.relativeDepth_eq_some_iff.1 up).2
  omega

/-! ## The method around a place -/

/-- Above what has no code there is no code. -/
theorem isCode_ancestor? (h : t.Rooted) {a : ScopeId} {sa : Scope} (here : t.get? id = some s)
    (bare : s.kind.isCode = false) (up : t.ancestor? n id = some a) (there : t.get? a = some sa) :
    sa.kind.isCode = false := by
  induction n generalizing id s with
  | zero =>
    cases up
    cases here.symm.trans there
    exact bare
  | succ n ih =>
    obtain ⟨above, hop, up⟩ := Option.bind_eq_some_iff.1 up
    obtain ⟨outer, known, inside⟩ := (h.below here (parent?_of_get? here ▸ hop)).2
    exact ih known (inside.bare bare) up

/-- **There is one method around a scope with code.** -/
theorem existsUnique_method (h : t.Rooted) (here : t.get? id = some s)
    (code : s.kind.isCode = true) :
    ∃! m, (∃ n, t.ancestor? n id = some m) ∧ t.IsMethod m := by
  induction id using Nat.strong_induction_on generalizing s with
  | _ id ih =>
    have other : id ≠ globalId := fun root => by
      rw [(h.kind_eq_global_iff here).2 root] at code
      cases code
    obtain ⟨above, outer, up, lower, known, inside⟩ := h.inside id s here other
    have hop : t.parent? id = some above := parent?_of_get? here ▸ up
    cases hk : s.kind with
    | global | cls =>
      rw [hk] at code
      cases code
    | method side =>
      refine ⟨id, ⟨⟨0, rfl⟩, s, side, here, hk⟩, fun m => ?_⟩
      rintro ⟨⟨n, found⟩, sm, side', there, isMethod⟩
      cases n with
      | zero => exact (Option.some.inj found).symm
      | succ n =>
        -- above a method there are a class and the global scope
        rw [ancestor?, hop, Option.bind_some] at found
        have bare : outer.kind.isCode = false := by
          rw [inside.eq_cls hk]
          rfl
        have := h.isCode_ancestor? known bare found there
        rw [isMethod] at this
        cases this
    | block index =>
      obtain ⟨m, ⟨⟨n, found⟩, isMethod⟩, unique⟩ := ih above lower known (inside.isCode hk)
      refine ⟨m, ⟨⟨n + 1, by rw [ancestor?, hop, Option.bind_some, found]⟩, isMethod⟩, fun m' => ?_⟩
      rintro ⟨⟨k, found'⟩, isMethod'⟩
      cases k with
      | zero =>
        cases found'
        obtain ⟨s', side, here', kind⟩ := isMethod'
        cases here.symm.trans here'
        cases hk.symm.trans kind
      | succ k =>
        rw [ancestor?, hop, Option.bind_some] at found'
        exact unique m' ⟨⟨k, found'⟩, isMethod'⟩

end Rooted

end ScopeTree

/-! ## Resolution -/

/-- The scopes of a method: its own, and those of the block literals in it. -/
def Method.scopeCount (m : Method) : Nat :=
  match m.kind with
  | .primitive _ => 1
  | .code b => 1 + (Stat.blocksAll b.stats).length

/-- The scopes of a class: its own, and those of its methods. -/
def ClassDef.scopeCount (c : ClassDef) : Nat := 1 + (c.methods.map Method.scopeCount).sum

/-- The scopes of a main body: those of its class and method, and those of its block literals. -/
def MainBody.scopeCount (m : MainBody) : Nat := 1 + 1 + (Stat.blocksAll m.body.stats).length

/-- The scopes of a program, with the global one. -/
def Program.scopeCount (p : Program) : Nat :=
  1 + (p.classes.map ClassDef.scopeCount).sum + (p.main.toList.map MainBody.scopeCount).sum

namespace Resolve

variable {σ σ' τ : Resolver} {chain inner : ScopeChain} {fields : List String} {selector : String}

/-- So many scopes have been added, and each is where it belongs. -/
structure Plants (count : Nat) (σ σ' : Resolver) : Prop where
  grows : σ.tree.Grows σ'.tree
  rooted : σ.tree.Rooted → σ'.tree.Rooted
  size : σ'.tree.size = σ.tree.size + count

theorem Plants.refl (σ : Resolver) : Plants 0 σ σ := ⟨.refl _, id, rfl⟩

theorem Plants.trans {count count' : Nat} (h : Plants count σ τ) (h' : Plants count' τ σ') :
    Plants (count + count') σ σ' :=
  ⟨h.grows.trans h'.grows, h'.rooted ∘ h.rooted, by rw [h'.size, h.size, Nat.add_assoc]⟩

/-- The innermost scope around a place is in the tree, and has code. -/
def InCode (tree : ScopeTree) (chain : ScopeChain) : Prop :=
  ∃ id s, chain.head?.map Prod.fst = some id ∧ tree.get? id = some s ∧ s.kind.isCode = true

theorem InCode.mono {tree tree' : ScopeTree} (h : InCode tree chain) (grows : tree.Grows tree') :
    InCode tree' chain := by
  obtain ⟨id, s, innermost, here, code⟩ := h
  exact ⟨id, s, innermost, grows _ _ here, code⟩

theorem addScope_plants {scope outer : Scope} {above id : ScopeId}
    (h : addScope scope σ = .ok id σ') (up : scope.parent = some above)
    (known : σ.tree.get? above = some outer) (inside : scope.kind.Inside outer.kind) :
    Plants 1 σ σ' ∧ σ'.tree.get? id = some scope := by
  cases h
  exact ⟨⟨(get?_add _ _).1, fun h => h.add up known inside, Array.size_push _⟩, (get?_add _ _).2⟩

theorem openCode_plants {name : String} {kind : ScopeKind} {above : ScopeId}
    {args locals : List String} {scope : ScopeId × List String} {outer : Scope}
    (h : openCode name kind above args locals σ = .ok scope σ')
    (known : σ.tree.get? above = some outer) (inside : kind.Inside outer.kind) :
    Plants 1 σ σ' ∧ ∃ s, σ'.tree.get? scope.1 = some s ∧ s.kind = kind := by
  obtain ⟨_, _, ⟨⟩, checked⟩ := EStateM.bind_eq_ok.1 h
  obtain ⟨_, _, hvars, added⟩ := EStateM.bind_eq_ok.1 checked
  obtain ⟨-, rfl⟩ := check_eq_ok.1 hvars
  obtain ⟨id, τ, hadd, ⟨⟩⟩ := EStateM.bind_eq_ok.1 added
  obtain ⟨plants, here⟩ := addScope_plants hadd rfl known inside
  exact ⟨plants, _, here, rfl⟩

/-- The scope of a block literal is inside the innermost scope with code, and has code itself. -/
theorem openBlock_plants {head head' : BlockHead} (place : InCode σ.tree chain)
    (h : openBlock selector chain head σ = .ok (head', inner) σ') :
    Plants 1 σ σ' ∧ InCode σ'.tree inner := by
  obtain ⟨index, τ, hindex, h⟩ := EStateM.bind_eq_ok.1 h
  obtain ⟨-, rfl⟩ := takeBlockIndex_eq_ok hindex
  obtain ⟨scope, τ, hopen, ⟨⟩⟩ := EStateM.bind_eq_ok.1 h
  obtain ⟨id, outer, innermost, known, code⟩ := place
  rw [innermost] at hopen
  obtain ⟨plants, s, here, kind⟩ := openCode_plants hopen known (.block code)
  exact ⟨⟨plants.grows, plants.rooted, plants.size⟩, scope.1, s, rfl, here, by rw [kind]; rfl⟩

mutual

/-- **Resolving an expression** adds scopes where they belong. -/
theorem expr_plants {chain : ScopeChain} {σ σ' : Resolver} (place : InCode σ.tree chain) (e : Expr)
    {e' : Expr} (h : expr fields selector chain e σ = .ok e' σ') :
    Plants e.blocks.length σ σ' := by
  cases e with
  | literal | self | ident =>
    cases h
    exact .refl σ
  | array items =>
    obtain ⟨_, τ, hitems, ⟨⟩⟩ := EStateM.bind_eq_ok.1 h
    exact exprs_plants place items [] hitems
  | block head body =>
    obtain ⟨⟨head', inner⟩, τ, hopen, hbody⟩ := EStateM.bind_eq_ok.1 h
    obtain ⟨body', τ', hstats, ⟨⟩⟩ := EStateM.bind_eq_ok.1 hbody
    obtain ⟨plants, place'⟩ := openBlock_plants place hopen
    rw [Expr.blocks, List.length_cons, Nat.add_comm]
    exact plants.trans (stats_plants place' body [] hstats)
  | send receiver message args position =>
    obtain ⟨receiver', τ, hreceiver, hrest⟩ := EStateM.bind_eq_ok.1 h
    obtain ⟨_, τ', hargs, ⟨⟩⟩ := EStateM.bind_eq_ok.1 hrest
    have plants := expr_plants place receiver hreceiver
    rw [Expr.blocks, List.length_append]
    exact plants.trans (exprs_plants (place.mono plants.grows) args [] hargs)
  | superSend message args position =>
    obtain ⟨_, τ, hargs, ⟨⟩⟩ := EStateM.bind_eq_ok.1 h
    exact exprs_plants place args [] hargs
termination_by structural e

theorem exprs_plants {chain : ScopeChain} {σ σ' : Resolver} (place : InCode σ.tree chain)
    (es : List Expr) (done : List Expr) {es' : List Expr}
    (h : exprs fields selector chain es done σ = .ok es' σ') :
    Plants (Expr.blocksAll es).length σ σ' := by
  cases es with
  | nil =>
    cases h
    exact .refl σ
  | cons e rest =>
    obtain ⟨e', τ, he, hrest⟩ := EStateM.bind_eq_ok.1 h
    have plants := expr_plants place e he
    rw [Expr.blocksAll, List.length_append]
    exact plants.trans (exprs_plants (place.mono plants.grows) rest (e' :: done) hrest)
termination_by structural es

theorem stat_plants {chain : ScopeChain} {σ σ' : Resolver} (place : InCode σ.tree chain) (s : Stat)
    {s' : Stat} (h : stat fields selector chain s σ = .ok s' σ') :
    Plants s.blocks.length σ σ' := by
  cases s with
  | expr value | assign target value position | ret value position =>
    obtain ⟨value', τ, hvalue, ⟨⟩⟩ := EStateM.bind_eq_ok.1 h
    exact expr_plants place value hvalue
termination_by structural s

theorem stats_plants {chain : ScopeChain} {σ σ' : Resolver} (place : InCode σ.tree chain)
    (ss : List Stat) (done : List Stat) {ss' : List Stat}
    (h : stats fields selector chain ss done σ = .ok ss' σ') :
    Plants (Stat.blocksAll ss).length σ σ' := by
  cases ss with
  | nil =>
    cases h
    exact .refl σ
  | cons s rest =>
    obtain ⟨s', τ, hs, hrest⟩ := EStateM.bind_eq_ok.1 h
    have plants := stat_plants place s hs
    rw [Stat.blocksAll, List.length_append]
    exact plants.trans (stats_plants (place.mono plants.grows) rest (s' :: done) hrest)
termination_by structural ss

end

theorem body_plants {scope : ScopeId × List String} {b b' : Body}
    (place : InCode σ.tree [scope]) (h : body fields selector scope b σ = .ok b' σ') :
    Plants (Stat.blocksAll b.stats).length σ σ' := by
  obtain ⟨_, _, ⟨⟩, hbody⟩ := EStateM.bind_eq_ok.1 h
  obtain ⟨stats', _, hstats, ⟨⟩⟩ := EStateM.bind_eq_ok.1 hbody
  have place' : InCode ({ σ with nextBlock := 0 } : Resolver).tree [scope] := place
  have plants := stats_plants place' b.stats [] hstats
  exact ⟨plants.grows, plants.rooted, plants.size⟩

/-- The scope that is opened for a method is one for a body. -/
theorem inCode_opened {tree : ScopeTree} {scope : ScopeId × List String} {side : Bool}
    (opened : ∃ s, tree.get? scope.1 = some s ∧ s.kind = .method side) : InCode tree [scope] := by
  obtain ⟨s, here, kind⟩ := opened
  exact ⟨scope.1, s, rfl, here, by rw [kind]; rfl⟩

/-- **Resolving a method** adds its scope below that of its class. -/
theorem method_plants {className : String} {classScope : ScopeId} {outer : Scope}
    {seen : Std.HashMap String Unit} {m m' : Method}
    (known : σ.tree.get? classScope = some outer) (kind : outer.kind = .cls)
    (h : method className classScope fields seen m σ = .ok m' σ') :
    Plants m.scopeCount σ σ' := by
  cases method_resolves h with
  | primitive primitive opens =>
    rw [Method.scopeCount, primitive]
    exact (openCode_plants opens known (kind ▸ .method)).1
  | code code opens resolves =>
    obtain ⟨plants, opened⟩ := openCode_plants opens known (kind ▸ .method)
    rw [Method.scopeCount, code]
    exact plants.trans (body_plants (inCode_opened opened) resolves)

theorem methods_plants {className : String} {classScope : ScopeId} {outer : Scope}
    {ms done ms' : List Method} {seen : Std.HashMap String Unit}
    (known : σ.tree.get? classScope = some outer) (kind : outer.kind = .cls)
    (h : methods className classScope fields ms seen done σ = .ok ms' σ') :
    Plants (ms.map Method.scopeCount).sum σ σ' := by
  induction ms generalizing σ seen done with
  | nil =>
    cases h
    exact .refl _
  | cons m rest ih =>
    obtain ⟨m', τ, hm, hrest⟩ := EStateM.bind_eq_ok.1 h
    have plants := method_plants known kind hm
    rw [List.map_cons, List.sum_cons]
    exact plants.trans (ih (plants.grows _ _ known) hrest)

/-- **Resolving a class** adds its scope below the global one. -/
theorem cls_plants {c c' : ClassDef} (rooted : σ.tree.Rooted) (h : cls c σ = .ok c' σ') :
    Plants c.scopeCount σ σ' := by
  obtain ⟨root, known, kind, -⟩ := rooted.root
  obtain ⟨_, _, ⟨⟩, hcls⟩ := EStateM.bind_eq_ok.1 h
  split at hcls
  · obtain ⟨_, _, ⟨⟩, _⟩ := EStateM.bind_eq_ok.1 hcls
  · obtain ⟨_, _, hinherited, hfields⟩ := EStateM.bind_eq_ok.1 hcls
    obtain ⟨-, rfl⟩ := check_eq_ok.1 hinherited
    obtain ⟨_, _, hadd, hscope⟩ := EStateM.bind_eq_ok.1 hfields
    obtain ⟨-, rfl⟩ := check_eq_ok.1 hadd
    split at hscope
    · obtain ⟨_, _, ⟨⟩, _⟩ := EStateM.bind_eq_ok.1 hscope
    · obtain ⟨scope, _, hopen, hmethods⟩ := EStateM.bind_eq_ok.1 hscope
      obtain ⟨_, _, hall, hlast⟩ := EStateM.bind_eq_ok.1 hmethods
      obtain ⟨_, _, ⟨⟩, ⟨⟩⟩ := EStateM.bind_eq_ok.1 hlast
      obtain ⟨plants, here⟩ := addScope_plants hopen rfl known (kind ▸ .cls)
      have plants' := plants.trans (methods_plants here rfl hall)
      exact ⟨plants'.grows, plants'.rooted, plants'.size⟩

theorem classes_plants {cs done cs' : List ClassDef} (rooted : σ.tree.Rooted)
    (h : classes cs done σ = .ok cs' σ') : Plants (cs.map ClassDef.scopeCount).sum σ σ' := by
  induction cs generalizing σ done with
  | nil =>
    cases h
    exact .refl _
  | cons c rest ih =>
    obtain ⟨c', τ, hc, hrest⟩ := EStateM.bind_eq_ok.1 h
    have plants := cls_plants rooted hc
    rw [List.map_cons, List.sum_cons]
    exact plants.trans (ih (plants.rooted rooted) hrest)

theorem mainBody_plants {m m' : MainBody} (rooted : σ.tree.Rooted)
    (h : mainBody m σ = .ok m' σ') : Plants m.scopeCount σ σ' := by
  obtain ⟨root, known, kind, -⟩ := rooted.root
  obtain ⟨_, _, _, _, _, -, adds, opens, resolves, rfl⟩ := mainBody_eq_ok h
  obtain ⟨plants, here⟩ := addScope_plants adds rfl known (kind ▸ .cls)
  obtain ⟨plants', opened⟩ := openCode_plants opens here .method
  exact (plants.trans plants').trans (body_plants (inCode_opened opened) resolves)

end Resolve

/-- **The tree of a resolved program is rooted**, and has a scope for each thing in the text that
has one. -/
theorem resolve_rooted {p : Program} {log : Log} {r : Resolution}
    (h : resolve p = (log, .ok r)) : r.tree.Rooted ∧ r.tree.size = p.scopeCount := by
  obtain ⟨p', σ, hp, rfl⟩ := resolve_eq_ok h
  have empty : ({} : Resolver).tree.Rooted := .empty
  rw [Program.scopeCount]
  cases Resolve.program_resolves hp with
  | bare main classes =>
    have plants := Resolve.classes_plants empty classes
    rw [main]
    exact ⟨plants.rooted empty, plants.size⟩
  | main main classes resolves =>
    have plants := Resolve.classes_plants empty classes
    have both := plants.trans (Resolve.mainBody_plants (plants.rooted empty) resolves)
    rw [main]
    refine ⟨both.rooted empty, both.size.trans ?_⟩
    rw [Nat.add_assoc]
    rfl

/-- **Numbers of scopes fit in 32 bits**, if the text of the program does not have more things with
scopes than that: a number is not changed by being cut down to so many. -/
theorem scope_numbers_fit {p : Program} {log : Log} {r : Resolution}
    (resolved : resolve p = (log, .ok r)) (few : p.scopeCount ≤ 2 ^ 32) {id : ScopeId} {s : Scope}
    (here : r.tree.get? id = some s) : (Nat.toUInt32 id).toNat = id := by
  have small : id < r.tree.size := (Array.getElem?_eq_some_iff.1 here).1
  rw [(resolve_rooted resolved).2] at small
  exact UInt32.toNat_ofNat_of_lt' (Nat.lt_of_lt_of_le small few)

/-- **Scopes form a tree, and the relative depth measures it.**  In the tree of a resolved program
scope `0` is the global scope and the only one without a parent, and parents are numbered before
their children; a block is inside a method or block, a method inside a class, and a class inside the
global scope; and on the way up from a method or block there is one method.  The loop that looks for
a scope on the way up ends from everywhere, whatever it looks for, and the way up itself ends within
as many hops as the number says.  The relative depth is the number of hops, if that fits in a short;
so depths along a way add up, and two scopes are not above each other. -/
theorem scopes_form_a_tree {p : Program} {log : Log} {r : Resolution}
    (resolved : resolve p = (log, .ok r)) :
    (∃ s, r.tree.get? 0 = some s ∧ s.kind = .global)
    ∧ (∀ id s, r.tree.get? id = some s → (s.parent = none ↔ id = 0))
    ∧ (∀ id s above, r.tree.get? id = some s → s.parent = some above →
      above < id ∧ above < r.tree.size)
    ∧ (∀ id s index, r.tree.get? id = some s → s.kind = .block index →
      ∃ above outer, s.parent = some above ∧ r.tree.get? above = some outer
        ∧ outer.kind.isCode = true)
    ∧ (∀ id s side, r.tree.get? id = some s → s.kind = .method side →
      ∃ above outer, s.parent = some above ∧ r.tree.get? above = some outer ∧ outer.kind = .cls)
    ∧ (∀ id s, r.tree.get? id = some s → s.kind = .cls → s.parent = some 0)
    ∧ (∀ id s, r.tree.get? id = some s → s.kind.isCode = true →
      ∃! m, (∃ n, r.tree.ancestor? n id = some m) ∧ r.tree.IsMethod m)
    ∧ (∀ source target, r.tree.Ascent target source 0 (r.tree.relativeDepth source target))
    ∧ (∀ source, r.tree.ancestor? (source + 1) source = none)
    ∧ (∀ source target d, r.tree.relativeDepth source target = some d
      ↔ d ≤ 65535 ∧ r.tree.ancestor? d source = some target)
    ∧ (∀ a b c d e, r.tree.relativeDepth a b = some d → r.tree.relativeDepth b c = some e →
      d + e ≤ 65535 → r.tree.relativeDepth a c = some (d + e))
    ∧ ∀ a b d e, r.tree.relativeDepth a b = some d → r.tree.relativeDepth b a = some e →
      a = b := by
  have rooted := (resolve_rooted resolved).1
  obtain ⟨root, hroot, kind, -⟩ := rooted.root
  refine ⟨⟨root, hroot, kind⟩, fun id s here => rooted.parent_eq_none_iff here,
    fun id s above here up => ?_, fun id s index here hk => ?_, fun id s side here hk => ?_,
    fun id s here hk => ?_, fun id s => rooted.existsUnique_method,
    fun source target => rooted.ascent (by decide), rooted.ancestor?_eq_none,
    fun source target d => rooted.relativeDepth_eq_some_iff,
    fun a b c d e => rooted.relativeDepth_trans, fun a b d e => rooted.relativeDepth_antisymm⟩
  · obtain ⟨lower, outer, known, -⟩ := rooted.below here up
    exact ⟨lower, (Array.getElem?_eq_some_iff.1 known).1⟩
  · obtain ⟨above, outer, up, known, inside⟩ := rooted.around here (by simp [hk])
    exact ⟨above, outer, up, known, inside.isCode hk⟩
  · obtain ⟨above, outer, up, known, inside⟩ := rooted.around here (by simp [hk])
    exact ⟨above, outer, up, known, inside.eq_cls hk⟩
  · obtain ⟨above, outer, up, known, inside⟩ := rooted.around here (by simp [hk])
    rw [up, (rooted.kind_eq_global_iff known).1 (inside.eq_global hk)]
    rfl

/-- A block in a main body is one hop below it. -/
theorem scopes_form_a_tree_block : ∃ log,
    resolve Direct.blockProgram = (log, .ok Direct.blockResolution)
    ∧ Direct.blockResolution.tree.relativeDepth 14 13 = some 1
    ∧ Direct.blockResolution.tree.relativeDepth 13 14 = none := by
  obtain ⟨log, resolved⟩ := Direct.blockProgram_resolves
  obtain ⟨-, -, -, -, -, -, -, -, -, hops, -, once⟩ := scopes_form_a_tree resolved
  have down := (hops 14 13 1).2 (by decide)
  refine ⟨log, resolved, down, ?_⟩
  cases up : Direct.blockResolution.tree.relativeDepth 13 14 with
  | none => rfl
  | some e => cases once _ _ _ _ down up

end Colloquy
