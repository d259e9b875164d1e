import Colloquy.Proofs.Compile.Ancestry
import Colloquy.Proofs.Compile.BlockTable

/-!
# Names are looked for on the way up

Resolution carries the scopes around a place along with it, as a list (`ScopeChain`).  In the tree
this list is a way up: it starts at the innermost scope, follows the parents as long as they have
code, and has the variables of each scope (`ScopeTree.WayUp`).

Looking for a name is a loop along the parents in the tree, without such a list
(`ScopeTree.Search`).  On a way up it finds what `resolveName` does (`ScopeTree.WayUp.search_iff`).

Main statement: in a resolved program every name is tied to what the search for it finds from the
innermost scope around it (`names_are_searched`).
-/

namespace Colloquy

/-! ## The search for a name -/

namespace ScopeTree

variable {t : ScopeTree} {fields : List String} {name : String} {start : Option ScopeId}
  {chain : ScopeChain} {symbol : Symbol}

/-- The loop that looks for a name, turn by turn: in a scope with code that does not declare the
name it goes on to the parent, and where there is no more code the name is a field or a global. -/
inductive Search (t : ScopeTree) (fields : List String) (name : String) :
    Option ScopeId → Symbol → Prop
  | declared {id : ScopeId} {s : Scope} {i : Nat} (here : t.get? id = some s)
      (code : s.kind.isCode = true) (found : s.vars.idxOf? name = some i) :
      Search t fields name (some id) (.slot id i.toUInt16)
  | outward {id : ScopeId} {s : Scope} {symbol : Symbol} (here : t.get? id = some s)
      (code : s.kind.isCode = true) (missed : s.vars.idxOf? name = none)
      (later : Search t fields name s.parent symbol) : Search t fields name (some id) symbol
  | bare {id : ScopeId} {s : Scope} (here : t.get? id = some s) (bare : s.kind.isCode = false) :
      Search t fields name (some id) (resolveName fields name [])
  | nowhere {id : ScopeId} (unknown : t.get? id = none) :
      Search t fields name (some id) (resolveName fields name [])
  | top : Search t fields name none (resolveName fields name [])

/-- The scopes with code from a number up, each with its variables; above them is one without. -/
inductive WayUp (t : ScopeTree) : Option ScopeId → ScopeChain → Prop
  | bare {id : ScopeId} {s : Scope} (here : t.get? id = some s) (bare : s.kind.isCode = false) :
      WayUp t (some id) []
  | code {id : ScopeId} {s : Scope} {outer : ScopeChain} (here : t.get? id = some s)
      (code : s.kind.isCode = true) (above : WayUp t s.parent outer) :
      WayUp t (some id) ((id, s.vars) :: outer)

/-- **The search finds what the list of scopes around a place says.** -/
theorem WayUp.search_iff (h : t.WayUp start chain) :
    t.Search fields name start symbol ↔ symbol = resolveName fields name chain := by
  induction h generalizing symbol with
  | @bare id s here bare =>
    constructor
    · intro search
      cases search with
      | bare | nowhere => rfl
      | declared here' code | outward here' code =>
        cases here.symm.trans here'
        cases bare.symm.trans code
    · rintro rfl
      exact .bare here bare
  | @code id s outer here code above ih =>
    rw [resolveName]
    constructor
    · intro search
      cases search with
      | declared here' _ found =>
        cases here.symm.trans here'
        rw [found]
      | outward here' _ missed later =>
        cases here.symm.trans here'
        rw [missed]
        exact ih.1 later
      | bare here' bare =>
        cases here.symm.trans here'
        cases bare.symm.trans code
      | nowhere unknown => cases here.symm.trans unknown
    · rintro rfl
      cases found : s.vars.idxOf? name with
      | some i => exact .declared here code found
      | none => exact .outward here code found (ih.2 rfl)

end ScopeTree

/-! ## Names in a resolved tree -/

mutual

/-- The names in an expression, each with the innermost scope around it. -/
def Expr.occurrences (scope : ScopeId) : Expr → List (ScopeId × Ident)
  | .literal _ => []
  | .self => []
  | .ident x => [(scope, x)]
  | .array items => Expr.occurrencesAll scope items
  | .block head body => Stat.occurrencesAll (head.scope.getD scope) body
  | .send receiver _ args _ => receiver.occurrences scope ++ Expr.occurrencesAll scope args
  | .superSend _ args _ => Expr.occurrencesAll scope args

def Expr.occurrencesAll (scope : ScopeId) : List Expr → List (ScopeId × Ident)
  | [] => []
  | e :: rest => e.occurrences scope ++ Expr.occurrencesAll scope rest

def Stat.occurrences (scope : ScopeId) : Stat → List (ScopeId × Ident)
  | .expr value => value.occurrences scope
  | .assign target value _ => value.occurrences scope ++ [(scope, target)]
  | .ret value _ => value.occurrences scope

def Stat.occurrencesAll (scope : ScopeId) : List Stat → List (ScopeId × Ident)
  | [] => []
  | s :: rest => s.occurrences scope ++ Stat.occurrencesAll scope rest

end

/-- The names in a body, each with the innermost scope around it. -/
def Source.occurrences (s : Source) : List (ScopeId × Ident) :=
  Stat.occurrencesAll s.scope s.stats

/-- The name is tied to what the search for it finds. -/
def ScopeTree.Ties (t : ScopeTree) (fields : List String) (o : ScopeId × Ident) : Prop :=
  ∃ symbol, o.2.symbol = some symbol ∧ t.Search fields o.2.name (some o.1) symbol

namespace Resolve

variable {σ σ' τ : Resolver} {tree : ScopeTree} {chain inner : ScopeChain} {scope : ScopeId}
  {fields : List String} {selector : String}

/-- The scopes around a place are a way up, and this is the innermost one. -/
structure Innermost (tree : ScopeTree) (chain : ScopeChain) (scope : ScopeId) : Prop where
  wayUp : tree.WayUp (some scope) chain
  head : chain.head?.map Prod.fst = some scope

theorem Innermost.ties (h : Innermost tree chain scope) (x : Ident) :
    tree.Ties fields (scope, x.resolve fields chain) :=
  ⟨_, rfl, h.wayUp.search_iff.2 rfl⟩

/-- The scope of a block literal is one step further down. -/
theorem openBlock_innermost {head head' : BlockHead} (here : Innermost tree chain scope)
    (h : openBlock selector chain head σ = .ok (head', inner) σ') (grows : σ'.tree.Grows tree) :
    ∃ b, head'.scope = some b ∧ Innermost tree inner b := by
  obtain ⟨index, τ, -, h⟩ := EStateM.bind_eq_ok.1 h
  obtain ⟨opened, τ, hopen, ⟨⟩⟩ := EStateM.bind_eq_ok.1 h
  rw [here.head] at hopen
  obtain ⟨-, -, -, -, -, -, -, vars⟩ := openCode_eq_ok hopen
  have code := ScopeTree.WayUp.code (grows _ _ (openCode_scope hopen)) rfl here.wayUp
  rw [← vars] at code
  exact ⟨opened.1, rfl, code, rfl⟩

mutual

/-- **Resolving an expression** ties its names to what is found on the way up. -/
theorem expr_ties (room : fields.length ≤ maxSlots) {chain : ScopeChain} {scope : ScopeId}
    {σ σ' : Resolver} (around : Around σ.tree chain) (here : Innermost tree chain scope) (e : Expr)
    {e' : Expr} (h : expr fields selector chain e σ = .ok e' σ') (grows : σ'.tree.Grows tree) :
    ∀ o ∈ e'.occurrences scope, tree.Ties fields o := by
  cases e with
  | literal | self =>
    cases h
    exact List.forall_mem_nil _
  | ident x =>
    cases h
    exact List.forall_mem_singleton.2 (here.ties x)
  | array items =>
    obtain ⟨_, τ, hitems, ⟨⟩⟩ := EStateM.bind_eq_ok.1 h
    obtain ⟨new, rfl, each⟩ := exprs_ties room around here items [] hitems grows
    exact each
  | block head body =>
    obtain ⟨⟨head', inner⟩, τ, hopen, hbody⟩ := EStateM.bind_eq_ok.1 h
    obtain ⟨body', τ', hstats, ⟨⟩⟩ := EStateM.bind_eq_ok.1 hbody
    obtain ⟨-, around', -⟩ := openBlock_eq_ok around [] hopen
    obtain ⟨_, -, taken, -⟩ := stats_scoped room around' body [] hstats
    obtain ⟨b, opened, here'⟩ := openBlock_innermost here hopen (taken.grows.trans grows)
    obtain ⟨new, rfl, each⟩ := stats_ties room around' here' body [] hstats grows
    rw [Expr.occurrences, opened]
    exact each
  | send receiver message args position =>
    obtain ⟨receiver', τ, hreceiver, hrest⟩ := EStateM.bind_eq_ok.1 h
    obtain ⟨_, τ', hargs, ⟨⟩⟩ := EStateM.bind_eq_ok.1 hrest
    have around' := around.mono (expr_scoped room around receiver hreceiver).1.grows
    obtain ⟨_, -, taken, -⟩ := exprs_scoped room around' args [] hargs
    have first := expr_ties room around here receiver hreceiver (taken.grows.trans grows)
    obtain ⟨new, rfl, each⟩ := exprs_ties room around' here args [] hargs grows
    exact List.forall_mem_append.2 ⟨first, each⟩
  | superSend message args position =>
    obtain ⟨_, τ, hargs, ⟨⟩⟩ := EStateM.bind_eq_ok.1 h
    obtain ⟨new, rfl, each⟩ := exprs_ties room around here args [] hargs grows
    exact each
termination_by structural e

theorem exprs_ties (room : fields.length ≤ maxSlots) {chain : ScopeChain} {scope : ScopeId}
    {σ σ' : Resolver} (around : Around σ.tree chain) (here : Innermost tree chain scope)
    (es done : List Expr) {es' : List Expr} (h : exprs fields selector chain es done σ = .ok es' σ')
    (grows : σ'.tree.Grows tree) :
    ∃ new, es' = done.reverse ++ new
      ∧ ∀ o ∈ Expr.occurrencesAll scope new, tree.Ties fields o := by
  cases es with
  | nil =>
    cases h
    exact ⟨[], (List.append_nil _).symm, List.forall_mem_nil _⟩
  | cons e rest =>
    obtain ⟨e', τ, he, hrest⟩ := EStateM.bind_eq_ok.1 h
    have around' := around.mono (expr_scoped room around e he).1.grows
    obtain ⟨_, -, taken, -⟩ := exprs_scoped room around' rest (e' :: done) hrest
    have first := expr_ties room around here e he (taken.grows.trans grows)
    obtain ⟨new, rfl, each⟩ := exprs_ties room around' here rest (e' :: done) hrest grows
    exact ⟨e' :: new, by simp, List.forall_mem_append.2 ⟨first, each⟩⟩
termination_by structural es

theorem stat_ties (room : fields.length ≤ maxSlots) {chain : ScopeChain} {scope : ScopeId}
    {σ σ' : Resolver} (around : Around σ.tree chain) (here : Innermost tree chain scope) (s : Stat)
    {s' : Stat} (h : stat fields selector chain s σ = .ok s' σ') (grows : σ'.tree.Grows tree) :
    ∀ o ∈ s'.occurrences scope, tree.Ties fields o := by
  cases s with
  | expr value | ret value position =>
    obtain ⟨value', τ, hvalue, ⟨⟩⟩ := EStateM.bind_eq_ok.1 h
    exact expr_ties room around here value hvalue grows
  | assign target value position =>
    obtain ⟨value', τ, hvalue, ⟨⟩⟩ := EStateM.bind_eq_ok.1 h
    exact List.forall_mem_append.2 ⟨expr_ties room around here value hvalue grows,
      List.forall_mem_singleton.2 (here.ties target)⟩
termination_by structural s

theorem stats_ties (room : fields.length ≤ maxSlots) {chain : ScopeChain} {scope : ScopeId}
    {σ σ' : Resolver} (around : Around σ.tree chain) (here : Innermost tree chain scope)
    (ss done : List Stat) {ss' : List Stat} (h : stats fields selector chain ss done σ = .ok ss' σ')
    (grows : σ'.tree.Grows tree) :
    ∃ new, ss' = done.reverse ++ new
      ∧ ∀ o ∈ Stat.occurrencesAll scope new, tree.Ties fields o := by
  cases ss with
  | nil =>
    cases h
    exact ⟨[], (List.append_nil _).symm, List.forall_mem_nil _⟩
  | cons s rest =>
    obtain ⟨s', τ, hs, hrest⟩ := EStateM.bind_eq_ok.1 h
    have around' := around.mono (stat_scoped room around s hs).1.grows
    obtain ⟨_, -, taken, -⟩ := stats_scoped room around' rest (s' :: done) hrest
    have first := stat_ties room around here s hs (taken.grows.trans grows)
    obtain ⟨new, rfl, each⟩ := stats_ties room around' here rest (s' :: done) hrest grows
    exact ⟨s' :: new, by simp, List.forall_mem_append.2 ⟨first, each⟩⟩
termination_by structural ss

end

/-- **Resolving the body of a method**, whose scope is inside that of a class. -/
theorem body_ties (rooted : tree.Rooted) (room : fields.length ≤ maxSlots) {name : String}
    {classScope : ScopeId} {classSide : Bool} {args locals : List String}
    {opened : ScopeId × List String} {b b' : Body}
    (opens : openCode name (.method classSide) classScope args locals σ = .ok opened τ)
    (h : body fields selector opened b τ = .ok b' σ') (grows : σ'.tree.Grows tree) :
    ∀ o ∈ Stat.occurrencesAll opened.1 b'.stats, tree.Ties fields o := by
  obtain ⟨-, short, s, known, -, vars, -, all⟩ := openCode_eq_ok opens
  have around : Around ({ τ with nextBlock := 0 } : Resolver).tree [opened] :=
    ⟨List.forall_mem_singleton.2 ⟨short, s, known, vars⟩, List.cons_ne_nil _ _⟩
  obtain ⟨_, hstats, rfl⟩ := body_eq_ok h
  obtain ⟨_, -, taken, -⟩ := stats_scoped room around b.stats [] hstats
  have here : τ.tree.get? opened.1 = some _ := openCode_scope opens
  have scope := grows _ _ (taken.grows _ _ here)
  obtain ⟨-, outer, above, inside⟩ := rooted.below scope rfl
  have wayUp := ScopeTree.WayUp.code scope rfl
    (.bare above (by rw [inside.eq_cls rfl]; rfl))
  rw [← all] at wayUp
  obtain ⟨new, rfl, each⟩ := stats_ties room around ⟨wayUp, rfl⟩ b.stats [] hstats grows
  exact each

theorem method_ties (rooted : tree.Rooted) : MethodsShow tree fun fields _ m' =>
    ∀ source, m'.source = some source → ∀ o ∈ source.occurrences, tree.Ties fields o := by
  intro σ σ' fields className classScope seen m m' room h grows
  cases method_resolves h with
  | primitive => rintro _ ⟨⟩
  | code _ opens resolves =>
    rintro _ ⟨⟩
    exact body_ties rooted room opens resolves grows

theorem mainBody_ties (rooted : tree.Rooted) {m m' : MainBody}
    (room : (σ.layouts.getD rootClass []).length ≤ maxSlots) (h : mainBody m σ = .ok m' σ')
    (grows : σ'.tree.Grows tree) : ∀ source, m'.source = some source →
      ∀ o ∈ source.occurrences, tree.Ties (σ.layouts.getD rootClass []) o := by
  obtain ⟨_, _, _, _, _, -, -, opens, resolves, rfl⟩ := mainBody_eq_ok h
  rintro _ ⟨⟩
  exact body_ties rooted room opens resolves grows

end Resolve

/-- **Names are looked for on the way up.**  In a resolved program every name in a method is tied to
what the search finds that starts at the innermost scope around it and goes along the parents in the
tree, with the fields that the class has according to the text, and so is every name in the main
body, with the fields of the root class. -/
theorem names_are_searched {p : Program} {log : Log} {r : Resolution}
    (resolved : resolve p = (log, .ok r)) :
    List.Forall₂ (fun c c' => ∀ m ∈ c'.methods, ∀ source, m.source = some source →
        ∀ o ∈ source.occurrences, r.tree.Ties (p.fieldsOf c.name) o)
      p.classes r.program.classes
    ∧ ∀ m, r.program.main = some m → ∀ source, m.source = some source →
        ∀ o ∈ source.occurrences, r.tree.Ties (p.fieldsOf rootClass) o := by
  have rooted := (resolve_rooted resolved).1
  obtain ⟨p', σ, hp, rfl⟩ := resolve_eq_ok resolved
  obtain ⟨classes, main⟩ := Resolve.program_show (R := fun fields _ m' => ∀ source,
      m'.source = some source → ∀ o ∈ source.occurrences, σ.tree.Ties fields o)
    (S := fun fields _ m' => ∀ source, m'.source = some source →
      ∀ o ∈ source.occurrences, σ.tree.Ties fields o)
    hp (Resolve.method_ties rooted) (Resolve.mainBody_ties rooted)
  refine ⟨classes.imp fun c c' each m hm => ?_, fun m hm => ?_⟩
  · obtain ⟨_, _, ties⟩ := forall₂_exists_of_mem each.flip hm
    exact ties
  · obtain ⟨_, _, ties⟩ := forall₂_exists_of_mem main.flip (Option.mem_toList.2 hm)
    exact ties

end Colloquy
