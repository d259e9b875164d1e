import Colloquy.Compile.Library
import Colloquy.Proofs.Compile.Emission

/-!
# The library and the programs on top of it

The methods of the library are primitives that the machine knows, or hand one message on to their
receiver.  Classes of that kind always resolve and compile, so whether a program is accepted is a
matter of its own classes.

Main statement: the library resolves in front of any program, and then compiles
(`Resolve.classes_onLibrary`).
-/

namespace Colloquy

/-! ## Built-in classes -/

/-- The method is a primitive that the machine knows, or hands one message on to its receiver. -/
def MethodKind.isBuiltin (nargs : Nat) : MethodKind → Bool
  | .primitive tag => (Primitive.ofTag? tag).any (·.arity = nargs)
  | .code ⟨[.ret (.send .self _ [] _) _], _⟩ => true
  | .code _ => false

def Method.isBuiltin (m : Method) : Bool :=
  m.locals.isEmpty && decide m.args.Nodup && decide (m.args.length ≤ Resolve.maxSlots)
    && m.kind.isBuiltin m.args.length

def ClassDef.isBuiltin (c : ClassDef) : Bool :=
  c.fields.isEmpty && c.superclass.isNone && decide (c.methods.map (·.selector)).Nodup
    && c.methods.all Method.isBuiltin

theorem library_isBuiltin : ∀ c ∈ Library.classes, c.isBuiltin := by decide

theorem library_distinct : (Library.classes.map (·.name)).Nodup := by decide

namespace Resolve

theorem checkVars_of_nodup {scope : String} {vars seen : List String} {count : Nat}
    (distinct : vars.Nodup) (new : ∀ v ∈ vars, v ∉ seen)
    (room : count + vars.length ≤ maxSlots) : checkVars scope vars seen count = .ok () := by
  induction vars generalizing seen count with
  | nil => rfl
  | cons v rest ih =>
    obtain ⟨away, distinct⟩ := List.nodup_cons.1 distinct
    rw [List.length_cons] at room
    have first : ¬ seen.contains v := by simpa using new v List.mem_cons_self
    have below : ¬ count ≥ maxSlots := by omega
    rw [checkVars, if_neg first, if_neg below]
    refine ih distinct (fun w hw => ?_) (by omega)
    rw [List.mem_cons, not_or]
    exact ⟨fun he => away (he ▸ hw), new w (List.mem_cons_of_mem v hw)⟩

/-- Code without locals and with distinct arguments opens a scope. -/
theorem openCode_of_nodup (σ : Resolver) (name : String) (kind : ScopeKind) (parent : ScopeId)
    {args : List String} (distinct : args.Nodup) (room : args.length ≤ maxSlots) :
    openCode name kind parent args [] σ
      = .ok (σ.tree.scopes.size, args) { σ with tree := (σ.tree.add
          { name, kind, parent := some parent, vars := args, nargs := args.length }).1 } := by
  have fine (scope : String) : checkVars scope args [] 0 = .ok () :=
    checkVars_of_nodup distinct (fun _ _ => List.not_mem_nil) (by omega)
  simp only [openCode, List.append_nil, bind, EStateM.bind, EStateM.get_apply, fine]
  rfl

end Resolve

namespace Emit

/-- The method compiles, whatever has been compiled before. -/
def MethodCompiles (tree : ScopeTree) (m : Method) : Prop :=
  ∀ options g, ∃ b g', method tree options m g = .ok b g'

/-- The class compiles, whatever has been compiled before. -/
def Compiles (tree : ScopeTree) (c : ClassDef) : Prop :=
  ∀ options g, ∃ c' g', cls tree options c g = .ok c' g'

/-- A method that hands a message on compiles. -/
theorem forward_compiles {tree : ScopeTree} {m : Method} {scope : ScopeId} {s : Scope}
    {selector : String} {stop position position' : Position} (opened : m.scope = some scope)
    (known : tree.get? scope = some s)
    (kind : m.kind = .code ⟨[.ret (.send .self selector [] position) position'], stop⟩) :
    MethodCompiles tree m := by
  intro options g
  obtain ⟨debugInfo, file⟩ := options
  cases debugInfo <;> by_cases same : file = selector <;>
    simp [method, opened, scopeOf, kind, withTable, inBlock, stats, stat, expr, exprs, statsAfter,
      mark, instruction, literal, LiteralPool.insert, LiteralPool.capacity, same, takeBlocks,
      qualifiedName, ScopeTree.qualifiedName, known, tableBlocks, finish, report, check, short,
      bind, EStateM.bind, pure, EStateM.pure, modify, EStateM.modifyGet_apply, discard,
      Functor.mapConst, EStateM.map]

/-- A primitive that the machine knows compiles. -/
theorem primitive_compiles {tree : ScopeTree} {m : Method} {scope : ScopeId} {s : Scope}
    {tag : String} {p : Primitive} (opened : m.scope = some scope)
    (known : tree.get? scope = some s) (kind : m.kind = .primitive tag)
    (tagged : Primitive.ofTag? tag = some p) (arity : p.arity = m.args.length) :
    MethodCompiles tree m := by
  intro options g
  simp [method, opened, scopeOf, kind, primitiveMethod, qualifiedName, ScopeTree.qualifiedName,
    known, tagged, arity, report, bind, EStateM.bind, pure, EStateM.pure, modify,
    EStateM.modifyGet_apply]

/-- What compiles one by one compiles in a row. -/
theorem mapM_of_forall {α β : Type} {f : α → Emit β} {as : List α}
    (each : ∀ a ∈ as, ∀ g, ∃ b g', f a g = .ok b g') (g : Generator) :
    ∃ bs g', as.mapM f g = .ok bs g' := by
  induction as generalizing g with
  | nil => exact ⟨[], g, rfl⟩
  | cons a rest ih =>
    obtain ⟨first, later⟩ := List.forall_mem_cons.1 each
    obtain ⟨b, t, hb⟩ := first g
    obtain ⟨bs, g', hbs⟩ := ih later t
    rw [List.mapM_cons]
    exact ⟨b :: bs, g', EStateM.bind_eq_ok.2 ⟨b, t, hb, EStateM.bind_eq_ok.2 ⟨bs, g', hbs, rfl⟩⟩⟩

theorem compiles_of_methods {tree : ScopeTree} {c : ClassDef}
    (each : ∀ m ∈ c.methods, MethodCompiles tree m) : Compiles tree c := by
  intro options g
  obtain ⟨bs, g', hbs⟩ := mapM_of_forall (fun m hm => each m hm options) g
  exact ⟨_, g', EStateM.bind_eq_ok.2 ⟨bs, g', hbs, rfl⟩⟩

end Emit

namespace Resolve

open Emit (MethodCompiles Compiles)

/-- **A built-in method resolves**, and then compiles. -/
theorem method_builtin (σ : Resolver) (className : String) (classScope : ScopeId)
    (fields : List String) {seen : Std.HashMap String Unit} {m : Method} (builtin : m.isBuiltin)
    (new : ¬ seen.contains m.selector) :
    ∃ m' σ', method className classScope fields seen m σ = .ok m' σ' ∧ m'.selector = m.selector
      ∧ σ.tree.Grows σ'.tree ∧ σ'.layouts = σ.layouts
      ∧ ∀ tree, σ'.tree.Grows tree → MethodCompiles tree m' := by
  obtain ⟨selector, classSide, args, locals, kind, scope⟩ := m
  simp only [Method.isBuiltin, Bool.and_eq_true, List.isEmpty_iff, decide_eq_true_eq] at builtin
  obtain ⟨⟨⟨rfl, distinct⟩, room⟩, builtin⟩ := builtin
  let inner : Scope := ⟨selector, .method classSide, some classScope, args, args.length⟩
  have opened := openCode_of_nodup σ selector (.method classSide) classScope distinct room
  obtain ⟨grows, known⟩ := get?_add σ.tree inner
  unfold MethodKind.isBuiltin at builtin
  split at builtin
  · rename_i tag
    obtain ⟨p, tagged, arity⟩ := (Option.any_eq_true _ _).1 builtin
    refine ⟨⟨selector, classSide, args, [], .primitive tag, some σ.tree.scopes.size⟩,
      { σ with tree := (σ.tree.add inner).1 }, ?_, rfl, grows, rfl, fun tree later => ?_⟩
    · rw [method, if_neg new]
      exact EStateM.bind_eq_ok.2 ⟨_, _, opened, rfl⟩
    · exact Emit.primitive_compiles rfl (later _ _ known) rfl tagged (by simpa using arity)
  · rename_i message position position' stop
    refine ⟨⟨selector, classSide, args, [],
        .code ⟨[.ret (.send .self message [] position) position'], stop⟩, some σ.tree.scopes.size⟩,
      { σ with tree := (σ.tree.add inner).1, nextBlock := 0 }, ?_, rfl, grows, rfl,
      fun tree later => ?_⟩
    · rw [method, if_neg new]
      exact EStateM.bind_eq_ok.2 ⟨_, _, opened, rfl⟩
    · exact Emit.forward_compiles rfl (later _ _ known) rfl
  · cases builtin

theorem methods_builtin (σ : Resolver) (className : String) (classScope : ScopeId)
    (fields : List String) {ms : List Method} (done : List Method) {seen : Std.HashMap String Unit}
    (builtin : ∀ m ∈ ms, m.isBuiltin) (distinct : (ms.map (·.selector)).Nodup)
    (new : ∀ m ∈ ms, ¬ seen.contains m.selector) :
    ∃ ms' σ', methods className classScope fields ms seen done σ = .ok (done.reverse ++ ms') σ'
      ∧ σ.tree.Grows σ'.tree ∧ σ'.layouts = σ.layouts
      ∧ ∀ tree, σ'.tree.Grows tree → ∀ m ∈ ms', MethodCompiles tree m := by
  induction ms generalizing σ seen done with
  | nil =>
    exact ⟨[], σ, by rw [List.append_nil]; rfl, .refl _, rfl, fun _ _ => List.forall_mem_nil _⟩
  | cons m rest ih =>
    obtain ⟨first, builtin⟩ := List.forall_mem_cons.1 builtin
    obtain ⟨unseen, new⟩ := List.forall_mem_cons.1 new
    obtain ⟨away, distinct⟩ := List.nodup_cons.1 distinct
    obtain ⟨m', τ, hm, selector, grows, layouts, compiles⟩ :=
      method_builtin σ className classScope fields first unseen
    have later : ∀ k ∈ rest, ¬ (seen.insert m'.selector ()).contains k.selector := by
      intro k hk
      rw [Std.HashMap.contains_insert, selector, Bool.or_eq_true, beq_iff_eq, not_or]
      exact ⟨fun he => away (List.mem_map.2 ⟨k, hk, he.symm⟩), new k hk⟩
    obtain ⟨ms', σ', hms, grows', layouts', compiles'⟩ := ih τ (m' :: done) builtin distinct later
    refine ⟨m' :: ms', σ', ?_, grows.trans grows', layouts'.trans layouts, fun tree later => ?_⟩
    · rw [methods]
      refine EStateM.bind_eq_ok.2 ⟨m', τ, hm, ?_⟩
      rw [hms, List.reverse_cons, List.append_assoc, List.singleton_append]
    · exact List.forall_mem_cons.2 ⟨compiles tree (grows'.trans later), compiles' tree later⟩

/-- **A built-in class resolves**, and then compiles. -/
theorem cls_builtin {σ : Resolver} {c : ClassDef} (builtin : c.isBuiltin)
    (new : σ.layouts[c.name]? = none)
    (root : c.name = rootClass ∨ σ.layouts[rootClass]? = some []) :
    ∃ c' σ', cls c σ = .ok c' σ' ∧ σ.tree.Grows σ'.tree
      ∧ σ'.layouts = σ.layouts.insert c.name []
      ∧ ∀ tree, σ'.tree.Grows tree → Compiles tree c' := by
  obtain ⟨name, superclass, fields, ms⟩ := c
  simp only [ClassDef.isBuiltin, Bool.and_eq_true, List.isEmpty_iff, Option.isNone_iff_eq_none,
    decide_eq_true_eq, List.all_eq_true] at builtin
  obtain ⟨⟨⟨rfl, rfl⟩, distinct⟩, each⟩ := builtin
  have inherited : inheritedFields σ.layouts { name, methods := ms } = .ok [] := by
    unfold inheritedFields superclassOf
    by_cases same : name = rootClass
    · simp [same]
    · simp [same, root.resolve_left same]
  let scope : Scope := { name, kind := .cls, parent := some ScopeTree.globalId }
  let opened : Resolver := { σ with tree := (σ.tree.add scope).1 }
  obtain ⟨ms', τ, hms, grows, layouts, compiles⟩ :=
    methods_builtin opened name σ.tree.scopes.size [] [] each distinct
      (fun m _ => (by simp : ¬ ({} : Std.HashMap String Unit).contains m.selector))
  have absent : ¬ σ.layouts.contains name := by
    rw [Std.HashMap.contains_eq_isSome_getElem?, show σ.layouts[name]? = none from new]
    simp
  have added : addScope scope σ = .ok σ.tree.scopes.size opened := rfl
  refine ⟨{ name, superclass := superclassOf { name, methods := ms }, methods := ms' },
    { τ with
      log := τ.log.push ⟨.debug, "defined class " ++ name ++ " with fields " ++ Text.escapedList []⟩
      layouts := τ.layouts.insert name [] }, ?_, (get?_add _ _).1.trans grows,
    congrArg (·.insert name []) layouts, fun tree later => ?_⟩
  · refine EStateM.bind_eq_ok.2 ⟨σ, σ, rfl, ?_⟩
    rw [if_neg absent]
    refine EStateM.bind_eq_ok.2 ⟨[], σ, check_eq_ok.2 ⟨inherited, rfl⟩, ?_⟩
    refine EStateM.bind_eq_ok.2 ⟨[], σ, rfl, ?_⟩
    rw [if_neg (by simp)]
    exact EStateM.bind_eq_ok.2 ⟨_, _, added, EStateM.bind_eq_ok.2 ⟨_, _, hms, rfl⟩⟩
  · exact Emit.compiles_of_methods (compiles tree later)

/-- **Built-in classes resolve** in front of any others, and then compile. -/
theorem classes_builtin {σ : Resolver} {cs : List ClassDef} (rest done : List ClassDef)
    (builtin : ∀ c ∈ cs, c.isBuiltin) (distinct : (cs.map (·.name)).Nodup)
    (new : ∀ c ∈ cs, σ.layouts[c.name]? = none)
    (root : (∀ c ∈ cs.head?, c.name = rootClass) ∨ σ.layouts[rootClass]? = some []) :
    ∃ (cs' : List ClassDef) (σ' : Resolver),
      classes (cs ++ rest) done σ = classes rest (cs'.reverse ++ done) σ'
      ∧ σ.tree.Grows σ'.tree
      ∧ (∀ name : String, σ'.layouts[name]?
        = if name ∈ cs.map (·.name) then some [] else σ.layouts[name]?)
      ∧ ∀ tree, σ'.tree.Grows tree → ∀ c ∈ cs', Compiles tree c := by
  induction cs generalizing σ done with
  | nil => exact ⟨[], σ, rfl, .refl _, by simp, by simp⟩
  | cons c cs ih =>
    obtain ⟨first, builtin⟩ := List.forall_mem_cons.1 builtin
    obtain ⟨unseen, new⟩ := List.forall_mem_cons.1 new
    obtain ⟨away, distinct⟩ := List.nodup_cons.1 distinct
    have root' : c.name = rootClass ∨ σ.layouts[rootClass]? = some [] :=
      root.imp_left fun h => h c rfl
    obtain ⟨c', τ, hc, grows, layouts, compiles⟩ := cls_builtin first unseen root'
    obtain ⟨cs', σ', hcs, grows', layouts', compiles'⟩ := ih (σ := τ) (c' :: done) builtin distinct
      (fun d hd => by
        rw [layouts, Std.HashMap.getElem?_insert, if_neg, new d hd]
        exact fun he => away (List.mem_map.2 ⟨d, hd, (beq_iff_eq.1 he).symm⟩))
      (.inr (by
        rw [layouts, Std.HashMap.getElem?_insert]
        split
        · rfl
        · rename_i hne
          exact root'.resolve_left fun he => hne (beq_iff_eq.2 he)))
    refine ⟨c' :: cs', σ', ?_, grows.trans grows', fun name => ?_, fun tree later => ?_⟩
    · rw [List.cons_append, classes]
      simp only [bind, EStateM.bind, hc, hcs, List.reverse_cons, List.append_assoc,
        List.singleton_append]
    · rw [layouts', layouts, Std.HashMap.getElem?_insert, List.map_cons]
      by_cases he : c.name = name
      · simp [he]
      · simp [he, Ne.symm he]
    · exact List.forall_mem_cons.2 ⟨compiles tree (grows'.trans later), compiles' tree later⟩

/-- What resolution has found once the library has been resolved. -/
structure OnLibrary (σ : Resolver) : Prop where
  layouts : ∀ name : String, σ.layouts[name]?
    = if name ∈ Library.classes.map (·.name) then some [] else none

/-- **The library resolves** in front of any program, and then compiles. -/
theorem classes_onLibrary (own : List ClassDef) :
    ∃ cs σ, classes (Library.classes ++ own) [] {} = classes own cs σ ∧ OnLibrary σ
      ∧ ∀ tree, σ.tree.Grows tree → ∀ c ∈ cs.reverse, Compiles tree c := by
  obtain ⟨cs, σ, resolved, -, layouts, compiles⟩ := classes_builtin (σ := {}) own []
    library_isBuiltin library_distinct (by simp) (.inl (by simp [Library.classes, Library.object]))
  refine ⟨cs.reverse, σ, by rw [resolved, List.append_nil], ⟨fun name => ?_⟩, fun tree later => ?_⟩
  · rw [layouts]
    simp
  · rw [List.reverse_reverse]
    exact compiles tree later

end Resolve

end Colloquy
