import Colloquy.Proofs.Compile.Emission
import Colloquy.Proofs.Coherence.Execution

/-!
# What loading a compiled program leaves

Loading numbers the methods of a compiled program in order, which is the order of their bodies in
the resolved tree (`Program.sources`).  Every loaded class knows its superclass, has the fields that
resolution gave it, and its methods are primitives or code for their bodies
(`Direct.Setting.Sound`).

Main statement: the image of an accepted program is sound (`Direct.Setting.sound_of_load`).
-/

namespace Colloquy

/-- The class is loaded. -/
def Image.Has (i : Image) (cls : Class) : Prop := i.classes[cls.id]? = some cls

/-! ## Installing classes -/

namespace Image

/-- Methods with new numbers belong to the class being loaded. -/
theorem linkAll_eq {cls : ClassId} {ms : List (Nat × Block)}
    {methods methods' : Std.HashMap String Code}
    {owners owners' : Std.HashMap Nat ClassId} {log log' : Log} {next : Nat}
    (h : linkAll cls ms methods owners log = (methods', owners', log'))
    (numbers : ms.map Prod.fst = List.range' next ms.length)
    (fresh : ∀ n, (owners[n]?).isSome → n < next) :
    (∀ (selector : String) (code : Code), methods'[selector]? = some code →
        methods[selector]? = some code
          ∨ ∃ p ∈ ms, code = ⟨p.2, { method := p.1 }, some cls⟩)
      ∧ ∀ n, (owners'[n]?).isSome → n < next + ms.length := by
  induction ms generalizing methods owners log next with
  | nil =>
    cases h
    exact ⟨fun _ _ => .inl, fresh⟩
  | cons p rest ih =>
    obtain ⟨number, block⟩ := p
    simp only [List.map_cons, List.length_cons, List.range'_succ, List.cons.injEq] at numbers
    obtain ⟨rfl, numbers⟩ := numbers
    have new : owners[number]? = none := by
      cases hn : owners[number]? with
      | none => rfl
      | some _ => exact absurd (fresh number (by rw [hn]; rfl)) (Nat.lt_irrefl _)
    simp only [linkAll, link, new] at h
    obtain ⟨found, later⟩ := ih h numbers fun n hn => by
      rw [Std.HashMap.getElem?_insert] at hn
      split at hn
      · rename_i he
        simp only [beq_iff_eq] at he
        omega
      · exact Nat.lt_succ_of_lt (fresh n hn)
    refine ⟨fun selector code hcode => ?_, fun n hn => ?_⟩
    · rcases found selector code hcode with hcode | ⟨p, hp, rfl⟩
      · rw [Std.HashMap.getElem?_insert] at hcode
        split at hcode
        · cases hcode
          exact .inr ⟨_, List.mem_cons_self, rfl⟩
        · exact .inl hcode
      · exact .inr ⟨p, List.mem_cons_of_mem _ hp, rfl⟩
    · have := later n hn
      simp only [List.length_cons]
      omega

/-- What has been loaded so far is in order: `good` holds of every method that is code, with its
number and the number of fields of its class. -/
structure Loader.Valid (good : Nat → Block → Nat → Prop) (layouts : Layouts) (next : Nat)
    (l : Loader) : Prop where
  numbered : ∀ (k : Nat) (cls : Class), l.classes[k]? = some cls → cls.id = k
  superclass : ∀ (k : Nat) (cls above : Class), l.classes[k]? = some cls →
    cls.superclass? = some above → l.classes[above.id]? = some above
  methods : ∀ (k : Nat) (cls : Class) (selector : String) (code : Code),
    l.classes[k]? = some cls → cls.info.methods[selector]? = some code →
      code.id.path = [] ∧ code.owner = some k ∧ good code.id.method code.block cls.numFields
  byName : ∀ (name : String) (cls : Class), l.byName[name]? = some cls →
    l.classes[cls.id]? = some cls
  fresh : ∀ n, (l.owners[n]?).isSome → n < next
  layouts : ∀ name : String, (l.byName[name]?).map Class.numFields
    = (layouts[name]?).map List.length

variable {good : Nat → Block → Nat → Prop} {layouts : Layouts} {next : Nat} {l l' : Loader}

theorem valid_empty : ({} : Loader).Valid good {} 0 where
  numbered := by simp
  superclass := by simp
  methods := by simp
  byName := by simp
  fresh := by simp
  layouts := by simp

theorem numFields_cons (info : ClassInfo) (above : List ClassInfo) :
    Class.numFields { info, above }
      = info.fields.length + above.foldr (fun info n => info.fields.length + n) 0 := rfl

/-- What a class inherits is the definitions of a loaded class, or nothing. -/
theorem inherited_eq_ok (valid : l.Valid good layouts next) {c : LoadClass} {above : List ClassInfo}
    {fields : List String} (h : inherited l.byName c = .ok above)
    (root : c.superclass = none → fields = c.fields)
    (inherits : ∀ name, c.superclass = some name →
      ∃ inherited, layouts[name]? = some inherited ∧ fields = inherited ++ c.fields) :
    (∀ info rest, above = info :: rest → l.classes[info.id]? = some { info, above := rest })
      ∧ fields.length = c.fields.length + above.foldr (fun info n => info.fields.length + n) 0 := by
  unfold inherited at h
  cases hs : c.superclass with
  | none =>
    rw [hs] at h
    cases h
    rw [root hs]
    exact ⟨nofun, rfl⟩
  | some name =>
    rw [hs] at h
    cases hc : l.byName[name]? with
    | none =>
      simp only [hc] at h
      cases h
    | some cls =>
      simp only [hc, Except.ok.injEq] at h
      obtain ⟨inherited, hl, rfl⟩ := inherits name hs
      have same := valid.layouts name
      rw [hc, hl, Option.map_some, Option.map_some, Option.some.injEq] at same
      subst h
      refine ⟨?_, ?_⟩
      · rintro info rest ⟨⟩
        exact valid.byName name cls hc
      · rw [List.length_append, ← same, Nat.add_comm]
        rfl

/-- **Loading one more class.** -/
theorem install_valid (valid : l.Valid good layouts next) {c : LoadClass} {fields : List String}
    (h : install l c = .ok l')
    (numbers : c.methods.map Prod.fst = List.range' next c.methods.length)
    (root : c.superclass = none → fields = c.fields)
    (inherits : ∀ name, c.superclass = some name →
      ∃ inherited, layouts[name]? = some inherited ∧ fields = inherited ++ c.fields)
    (methods : ∀ p ∈ c.methods, good p.1 p.2 fields.length) :
    l'.Valid good (layouts.insert c.name fields) (next + c.methods.length) := by
  unfold install at h
  cases hi : inherited l.byName c with
  | error e =>
    rw [hi] at h
    cases h
  | ok above =>
    rw [hi] at h
    obtain ⟨known, count⟩ := inherited_eq_ok valid hi root inherits
    have linked : linkAll l.classes.size c.methods {} l.owners l.log = (_, _, _) := rfl
    obtain ⟨found, later⟩ := linkAll_eq linked numbers valid.fresh
    cases h
    have old {k : Nat} {cls : Class} (hk : l.classes[k]? = some cls) (new : Class) :
        (l.classes.push new)[k]? = some cls := by
      obtain ⟨hlt, he⟩ := Array.getElem?_eq_some_iff.1 hk
      rw [Array.getElem?_push_lt hlt, he]
    refine ⟨fun k cls hk => ?_, fun k cls up hk hup => ?_, fun k cls selector code hk hm => ?_,
      fun name cls hn => ?_, later, fun name => ?_⟩
    · dsimp only at hk
      rw [Array.getElem?_push] at hk
      split at hk
      · cases hk
        exact ‹k = _›.symm
      · exact valid.numbered k cls hk
    · dsimp only at hk ⊢
      rw [Array.getElem?_push] at hk
      split at hk
      · cases hk
        simp only [Class.superclass?] at hup
        cases above with
        | nil => cases hup
        | cons info rest =>
          cases hup
          exact old (known info rest rfl) _
      · exact old (valid.superclass k cls up hk hup) _
    · dsimp only at hk
      rw [Array.getElem?_push] at hk
      split at hk
      · rename_i he
        cases hk
        rcases found selector code hm with hm | ⟨p, hp, rfl⟩
        · simp at hm
        · refine ⟨rfl, congrArg some he.symm, ?_⟩
          have := methods p hp
          rwa [count] at this
      · exact valid.methods k cls selector code hk hm
    · dsimp only at hn ⊢
      rw [Std.HashMap.getElem?_insert] at hn
      split at hn
      · cases hn
        exact Array.getElem?_push_size
      · exact old (valid.byName name cls hn) _
    · dsimp only
      rw [Std.HashMap.getElem?_insert, Std.HashMap.getElem?_insert]
      split
      · rw [Option.map_some, Option.map_some, numFields_cons, count]
      · exact valid.layouts name

theorem installAll_append {cs ds : List LoadClass} {log : Log}
    (h : installAll (cs ++ ds) l = (log, .ok l')) :
    ∃ log₁ l₁, installAll cs l = (log₁, .ok l₁) ∧ installAll ds l₁ = (log, .ok l') := by
  induction cs generalizing l with
  | nil => exact ⟨_, _, rfl, h⟩
  | cons c rest ih =>
    rw [List.cons_append, installAll] at h
    cases hc : install l c with
    | error e =>
      rw [hc] at h
      cases h
    | ok l₀ =>
      rw [hc] at h
      obtain ⟨log₁, l₁, first, later⟩ := ih h
      refine ⟨log₁, l₁, ?_, later⟩
      rw [installAll, hc]
      exact first

end Image

/-! ## Compiled classes -/

/-- The block is what a method was compiled to. -/
def MethodCode (tree : ScopeTree) (m : Method) (b : Block) : Prop :=
  (∃ p, b.primitive = some p)
    ∨ ∃ source, m.source = some source ∧ BodyCode tree b.blocks source b

/-- The class is what a resolved class was compiled to; `good` relates its methods to what they were
compiled to. -/
structure ClassCode (good : Method → Block → Prop) (c : ClassDef) (c' : CompiledClass) : Prop where
  name : c'.name = c.name
  superclass : c'.superclass = c.superclass
  fields : c'.fields = c.fields
  methods : List.Forall₂ good c.methods c'.methods

theorem ClassCode.imp {good good' : Method → Block → Prop} {c : ClassDef} {c' : CompiledClass}
    (h : ClassCode good c c') (weaker : ∀ m b, good m b → good' m b) : ClassCode good' c c' :=
  ⟨h.name, h.superclass, h.fields, h.methods.imp weaker⟩

theorem EStateM.mapM_eq_ok {ε σ α β : Type} {f : α → EStateM ε σ β} {as : List α} {bs : List β}
    {s s' : σ} (h : as.mapM f s = .ok bs s') :
    List.Forall₂ (fun a b => ∃ t t', f a t = .ok b t') as bs := by
  induction as generalizing s bs with
  | nil =>
    rw [List.mapM_nil] at h
    cases h
    exact .nil
  | cons a rest ih =>
    rw [List.mapM_cons] at h
    obtain ⟨b, t, first, h⟩ := EStateM.bind_eq_ok.1 h
    obtain ⟨bs', t', later, ⟨⟩⟩ := EStateM.bind_eq_ok.1 h
    exact .cons ⟨_, _, first⟩ (ih later)

namespace Emit

variable {tree : ScopeTree} {options : CompilerOptions} {g g' : Generator}

theorem methodCode_of_method {m : Method} {b : Block} (h : method tree options m g = .ok b g') :
    MethodCode tree m b := by
  obtain ⟨scope, opened, primitive, code⟩ := method_code h
  cases hk : m.kind with
  | primitive tag => exact .inl ((primitive tag hk).imp fun _ h => h.primitive)
  | code body =>
    refine .inr ⟨⟨scope, body.stats, .method⟩, ?_, code body hk⟩
    simp only [Method.source, hk, opened, Option.map_some]

/-- The block is what code generation makes of a method. -/
def Makes (tree : ScopeTree) (options : CompilerOptions) (m : Method) (b : Block) : Prop :=
  ∃ g g', method tree options m g = .ok b g'

/-- The class of the main body inherits from the root class. -/
def classOfMain (b : Block) : CompiledClass :=
  { name := mainClass, superclass := some rootClass, methods := [b] }

/-- **What code generation makes of a program**: its classes in order, and the class of the main
body behind them. -/
theorem program_makes {p : Program} {cs : List CompiledClass}
    (h : program tree options p g = .ok cs g') :
    ∃ compiled, List.Forall₂ (ClassCode (Makes tree options)) p.classes compiled
      ∧ (p.main = none → cs = compiled)
      ∧ ∀ m, p.main = some m → ∃ b t t', mainBody tree options m t = .ok b t'
        ∧ cs = compiled ++ [classOfMain b] := by
  obtain ⟨compiled, t, hc, h⟩ := EStateM.bind_eq_ok.1 h
  refine ⟨compiled, (EStateM.mapM_eq_ok hc).imp fun c c' hc => ?_, fun hmain => ?_,
    fun m hmain => ?_⟩
  · obtain ⟨_, _, hc⟩ := hc
    obtain ⟨methods, _, hm, ⟨⟩⟩ := EStateM.bind_eq_ok.1 hc
    exact ⟨rfl, rfl, rfl, EStateM.mapM_eq_ok hm⟩
  · rw [hmain] at h
    cases h
    rfl
  · rw [hmain] at h
    obtain ⟨_, _, hcls, ⟨⟩⟩ := EStateM.bind_eq_ok.1 h
    obtain ⟨b, _, hb, ⟨⟩⟩ := EStateM.bind_eq_ok.1 hcls
    exact ⟨b, _, _, hb, rfl⟩

/-- **The code of a program**. -/
theorem program_code {p : Program} {cs : List CompiledClass}
    (h : program tree options p g = .ok cs g') :
    ∃ compiled, List.Forall₂ (ClassCode (MethodCode tree)) p.classes compiled
      ∧ (p.main = none → cs = compiled)
      ∧ ∀ m, p.main = some m → ∃ b source, m.source = some source
        ∧ BodyCode tree b.blocks source b ∧ cs = compiled ++ [classOfMain b] := by
  obtain ⟨compiled, each, without, with_⟩ := program_makes h
  have code (m : Method) (b : Block) (hb : Makes tree options m b) : MethodCode tree m b := by
    obtain ⟨_, _, hb⟩ := hb
    exact methodCode_of_method hb
  refine ⟨compiled, each.imp fun c c' hc => hc.imp code, without, fun m hmain => ?_⟩
  obtain ⟨b, _, _, hb, last⟩ := with_ m hmain
  obtain ⟨scope, opened, code⟩ := mainBody_code hb
  exact ⟨b, _, by rw [MainBody.source, opened, Option.map_some], code, last⟩

end Emit

/-! ## Numbered methods -/

/-- The block is code for the body of the method with a given number, of a class with the given
number of fields. -/
structure MethodBody (p : Program) (tree : ScopeTree) (number fields : Nat) (source : Source)
    (b : Block) : Prop where
  known : p.methodSource? number = some source
  compiled : BodyCode tree b.blocks source b
  slots : ∃ s, tree.get? source.scope = some s ∧ s.nargs ≤ s.vars.length
  resolved : BodyScoped tree fields source.scope source.stats

/-- The block with a given number is a primitive or the code of a method. -/
def Program.Numbers (p : Program) (tree : ScopeTree) (number : Nat) (b : Block) (fields : Nat) :
    Prop :=
  (∃ q, b.primitive = some q) ∨ ∃ source, MethodBody p tree number fields source b

/-- The bodies of methods stand from number `next` on. -/
def Program.PlacedAt (p : Program) (next : Nat) (sources : List (Option Source)) : Prop :=
  ∀ k s, sources[k]? = some s → p.sources[next + k]? = some s

open Emit (classOfMain)

section Numbering

variable {p : Program} {tree : ScopeTree} {layouts layouts' : Layouts} {next : Nat}
  {l l' : Image.Loader}

theorem Program.PlacedAt.left {ss ts : List (Option Source)} (h : p.PlacedAt next (ss ++ ts)) :
    p.PlacedAt next ss := fun k s hk =>
  h k s (by rw [List.getElem?_append_left (List.getElem?_eq_some_iff.1 hk).1, hk])

theorem Program.PlacedAt.right {ss ts : List (Option Source)} (h : p.PlacedAt next (ss ++ ts)) :
    p.PlacedAt (next + ss.length) ts := fun k s hk => by
  rw [Nat.add_assoc]
  exact h _ s (by
    rw [List.getElem?_append_right (Nat.le_add_right _ _), Nat.add_sub_cancel_left, hk])

/-- The methods of a class get numbers in order. -/
theorem fst_ofCompiled (next : Nat) (c : CompiledClass) :
    (LoadClass.ofCompiled next c).methods.map Prod.fst
      = List.range' next (LoadClass.ofCompiled next c).methods.length := by
  simp [LoadClass.ofCompiled, List.zipIdx_eq_zip_range', Function.comp_def, List.map_snd_zip]

theorem numbers_of_methodCode {m : Method} {b : Block} {fields number : Nat}
    (code : MethodCode tree m b) (resolved : MethodScoped tree fields m)
    (placed : p.sources[number]? = some m.source) : p.Numbers tree number b fields := by
  refine code.imp_right fun ⟨source, hs, compiled⟩ => ?_
  obtain ⟨id, s, hid, here, fits⟩ := resolved.scope
  cases hk : m.kind with
  | primitive tag => simp [Method.source, hk] at hs
  | code body =>
    have same : source = ⟨id, body.stats, .method⟩ := by
      simpa [Method.source, hk, hid, eq_comm] using hs
    subst same
    refine ⟨_, ?_, compiled, ⟨s, here, fits⟩, resolved.body id body hid hk⟩
    rw [Program.methodSource?, placed, hs]
    rfl

/-- The methods of a compiled class are those of the resolved one. -/
theorem numbers_of_classCode {c : ClassDef} {c' : CompiledClass} {fields : List String}
    (code : ClassCode (MethodCode tree) c c') (resolved : ClassScoped tree layouts c fields)
    (placed : p.PlacedAt next (c.methods.map Method.source)) :
    ∀ q ∈ (LoadClass.ofCompiled next c').methods, p.Numbers tree q.1 q.2 fields.length := by
  intro q hq
  obtain ⟨⟨b, n⟩, hmem, rfl⟩ := List.mem_map.1 hq
  obtain ⟨hle, hb⟩ := List.mem_zipIdx_iff_le_and_getElem?_sub.1 hmem
  obtain ⟨hlt, hget⟩ := List.getElem?_eq_some_iff.1 hb
  have hlt' : n - next < c.methods.length := code.methods.length_eq ▸ hlt
  have pair := code.methods.get hlt' hlt
  have hm : c.methods[n - next] ∈ c.methods := List.getElem_mem hlt'
  have number := placed (n - next) c.methods[n - next].source (by
    rw [List.getElem?_map, List.getElem?_eq_getElem hlt', Option.map_some])
  rw [Nat.add_sub_cancel' hle] at number
  refine numbers_of_methodCode ?_ (resolved.methods _ hm) number
  simpa [hget] using pair

/-- **Loading compiled classes**, each after its superclass. -/
theorem installAll_valid {cs : List ClassDef} {cs' : List CompiledClass} {log : Log}
    (resolved : ClassesScoped tree layouts cs layouts')
    (code : List.Forall₂ (ClassCode (MethodCode tree)) cs cs')
    (placed : p.PlacedAt next (cs.flatMap (·.methods.map Method.source)))
    (valid : l.Valid (p.Numbers tree) layouts next)
    (h : Image.installAll (LoadClass.ofProgram cs' next).1 l = (log, .ok l')) :
    l'.Valid (p.Numbers tree) layouts' (LoadClass.ofProgram cs' next).2
      ∧ (LoadClass.ofProgram cs' next).2
        = next + (cs.flatMap (·.methods.map Method.source)).length := by
  induction resolved generalizing cs' next l with
  | nil =>
    cases code
    cases h
    exact ⟨valid, rfl⟩
  | @cons layouts layouts' c rest fields first _ ih =>
    cases code with
    | @cons _ c' _ rest' head tail =>
      rw [List.flatMap_cons] at placed
      rw [LoadClass.ofProgram, Image.installAll] at h
      cases hi : Image.install l (LoadClass.ofCompiled next c') with
      | error e =>
        rw [hi] at h
        cases h
      | ok l₀ =>
        rw [hi] at h
        have installed := Image.install_valid valid hi (fst_ofCompiled next c')
          (fun hs => (first.root (head.superclass ▸ hs)).trans head.fields.symm)
          (fun name hs => by
            obtain ⟨inherited, hl, hf⟩ := first.inherits name (head.superclass ▸ hs)
            exact ⟨inherited, hl, hf.trans (by rw [← head.fields]; rfl)⟩)
          (numbers_of_classCode head first placed.left)
        have count : (LoadClass.ofCompiled next c').methods.length
            = (c.methods.map Method.source).length := by
          simp [LoadClass.ofCompiled, head.methods.length_eq]
        have width : c'.methods.length = (c.methods.map Method.source).length := by
          simp [head.methods.length_eq]
        rw [count, ← width] at installed
        have name : (LoadClass.ofCompiled next c').name = c.name := head.name
        rw [name] at installed
        obtain ⟨valid', last⟩ := ih tail (width ▸ placed.right) installed h
        refine ⟨valid', last.trans ?_⟩
        rw [List.flatMap_cons, List.length_append, width, Nat.add_assoc]

/-- **Loading the main body**, which sees the fields of the root class. -/
theorem installMain_valid {b : Block} {m : MainBody} {source : Source} {log : Log}
    (valid : l.Valid (p.Numbers tree) layouts next) (code : BodyCode tree b.blocks source b)
    (hsource : m.source = some source)
    (resolved : MainScoped tree (layouts.getD rootClass []).length m)
    (number : p.sources[next]? = some (some source))
    (h : Image.installAll (LoadClass.ofProgram [classOfMain b] next).1 l = (log, .ok l')) :
    l'.Valid (p.Numbers tree) (layouts.insert mainClass (layouts.getD rootClass []))
      (next + 1) := by
  rw [LoadClass.ofProgram, Image.installAll] at h
  cases hi : Image.install l (LoadClass.ofCompiled next (classOfMain b)) with
  | error e =>
    rw [hi] at h
    cases h
  | ok l₀ =>
    rw [hi] at h
    cases h
    refine Image.install_valid valid hi (fst_ofCompiled next (classOfMain b)) nofun
      (fun name hs => ?_) fun q hq => ?_
    · cases hs
      unfold Image.install Image.inherited at hi
      have same := valid.layouts rootClass
      cases hroot : l.byName[rootClass]? with
      | none => simp [LoadClass.ofCompiled, classOfMain, hroot] at hi
      | some cls =>
        rw [hroot, Option.map_some] at same
        obtain ⟨inherited, hl, -⟩ := Option.map_eq_some_iff.1 same.symm
        refine ⟨inherited, hl, ?_⟩
        rw [Std.HashMap.getD_eq_getD_getElem?, hl]
        exact (List.append_nil inherited).symm
    · obtain rfl : q = (next, b) := by simpa [LoadClass.ofCompiled, classOfMain] using hq
      obtain ⟨id, s, hid, here, none⟩ := resolved.scope
      have same : source = ⟨id, m.body.stats, .main⟩ := by
        simpa [MainBody.source, hid, eq_comm] using hsource
      subst same
      refine .inr ⟨_, ?_, code, ⟨s, here, none ▸ Nat.zero_le _⟩, resolved.body id hid⟩
      rw [Program.methodSource?, number]
      rfl

end Numbering

/-! ## Images of programs -/

namespace Direct

/-- The code is that of a method or main body of the program, with the given number of fields. -/
structure Setting.Compiles (x : Setting) (code : Code) (source : Source) (fields : Nat) : Prop where
  outermost : code.id.path = []
  body : MethodBody x.program x.tree code.id.method fields source code.block
  owner : ∃ cls, x.image.owner? code = some cls ∧ x.image.Has cls ∧ cls.numFields = fields

/-- The classes of the image are those of the program. -/
structure Setting.Sound (x : Setting) : Prop where
  superclass : ∀ cls above, x.image.Has cls → cls.superclass? = some above → x.image.Has above
  methods : ∀ (cls : Class) (selector : String) (code : Code), x.image.Has cls →
    cls.info.methods[selector]? = some code →
      (∃ p, code.block.primitive = some p) ∨ ∃ source, x.Compiles code source cls.numFields
  byName : ∀ (name : String) (cls : Class), x.image.byName[name]? = some cls → x.image.Has cls
  known : ∀ v, (∀ cls r, v ≠ .object cls r) → (∀ cls, v ≠ .cls cls) →
    x.image.Has (x.image.classOf v)
  transcript : ∃ cls, x.image.transcript = .object cls 0 ∧ x.image.Has cls

/-- What loading is given and what it leaves. -/
theorem load_eq_ok {classes : List LoadClass} {log : Log} {image : Image} {store : Store}
    (h : Image.load classes = (log, .ok (image, store))) :
    ∃ log' l, Image.installAll classes {} = (log', .ok l)
      ∧ Image.finish l = .ok (image, store) := by
  unfold Image.load at h
  split at h
  · cases h
  · exact ⟨_, _, ‹_›, (Prod.mk.inj h).2⟩

theorem required_eq_ok {byName : Std.HashMap String Class} {name : String} {cls : Class}
    (h : Image.required byName name = .ok cls) : byName[name]? = some cls := by
  unfold Image.required at h
  split at h
  · cases h
    assumption
  · cases h

/-- The classes of built-in values are loaded classes. -/
theorem knownClasses_eq_ok {byName : Std.HashMap String Class} {known : KnownClasses}
    (h : Image.knownClasses byName = .ok known) :
    ∀ cls ∈ [known.undefinedObject, known.boolean, known.integer, known.float, known.character,
      known.string, known.array, known.block], ∃ name : String, byName[name]? = some cls := by
  obtain ⟨_, h₁, h⟩ := Checked.bind_eq_ok.1 h
  obtain ⟨_, h₂, h⟩ := Checked.bind_eq_ok.1 h
  obtain ⟨_, h₃, h⟩ := Checked.bind_eq_ok.1 h
  obtain ⟨_, h₄, h⟩ := Checked.bind_eq_ok.1 h
  obtain ⟨_, h₅, h⟩ := Checked.bind_eq_ok.1 h
  obtain ⟨_, h₆, h⟩ := Checked.bind_eq_ok.1 h
  obtain ⟨_, h₇, h⟩ := Checked.bind_eq_ok.1 h
  obtain ⟨_, h₈, h⟩ := Checked.bind_eq_ok.1 h
  cases h
  have named {name : String} {cls : Class} (hc : Image.required byName name = .ok cls) :
      ∃ name : String, byName[name]? = some cls := ⟨name, required_eq_ok hc⟩
  simp only [List.forall_mem_cons]
  exact ⟨named h₁, named h₂, named h₃, named h₄, named h₅, named h₆, named h₇, named h₈,
    List.forall_mem_nil _⟩

/-- What is known while loading is known of the image. -/
theorem Setting.sound_of_valid {p : Program} {tree : ScopeTree} {layouts : Layouts} {next : Nat}
    {l : Image.Loader} {image : Image} {store : Store}
    (valid : l.Valid (p.Numbers tree) layouts next) (h : Image.finish l = .ok (image, store)) :
    Setting.Sound ⟨p, tree, image⟩ := by
  obtain ⟨known, hknown, h⟩ := Checked.bind_eq_ok.1 h
  obtain ⟨cls, hcls, h⟩ := Checked.bind_eq_ok.1 h
  cases h
  have builtin := knownClasses_eq_ok hknown
  simp only [List.forall_mem_cons] at builtin
  obtain ⟨h₁, h₂, h₃, h₄, h₅, h₆, h₇, h₈, -⟩ := builtin
  have named {cls : Class} (hc : ∃ name : String, l.byName[name]? = some cls) :
      l.classes[cls.id]? = some cls := hc.elim fun name hn => valid.byName name cls hn
  refine ⟨fun cls above hc hup => valid.superclass _ cls above hc hup,
    fun cls selector code hc hm => ?_, valid.byName, fun v hobject hclass => ?_, cls, rfl,
    valid.byName _ _ (required_eq_ok hcls)⟩
  · obtain ⟨path, owner, numbers⟩ := valid.methods _ cls selector code hc hm
    refine numbers.imp_right fun ⟨source, body⟩ => ⟨source, path, body, cls, ?_, hc, rfl⟩
    rw [Image.owner?, owner]
    exact hc
  · cases v with
    | nil => exact named h₁
    | bool b => exact named h₂
    | int n => exact named h₃
    | float f => exact named h₄
    | char c => exact named h₅
    | string id text => exact named h₆
    | array r => exact named h₇
    | block c => exact named h₈
    | object cls r => exact absurd rfl (hobject cls r)
    | cls c => exact absurd rfl (hclass c)

theorem ofProgram_append (cs ds : List CompiledClass) (next : Nat) :
    (LoadClass.ofProgram (cs ++ ds) next).1
      = (LoadClass.ofProgram cs next).1
        ++ (LoadClass.ofProgram ds (LoadClass.ofProgram cs next).2).1 := by
  induction cs generalizing next with
  | nil => rfl
  | cons c rest ih => exact congrArg (LoadClass.ofCompiled next c :: ·) (ih _)

theorem generate_eq_ok {options : CompilerOptions} {r : Resolution} {compiled : CompiledProgram}
    {log : Log} (h : generate options r = (log, .ok compiled)) :
    ∃ cs g, Emit.program r.tree options r.program {} = .ok cs g
      ∧ compiled = { classes := cs, warnings := g.warnings.toList } := by
  unfold generate at h
  split at h
  · rename_i cs g made
    cases h
    exact ⟨cs, g, made, rfl⟩
  · cases h

/-- **The image of an accepted program is sound.** -/
theorem Setting.sound_of_load {options : CompilerOptions} {p : Program} {r : Resolution}
    {compiled : CompiledProgram} {log log' log'' : Log} {image : Image} {store : Store}
    (resolved : resolve p = (log, .ok r)) (generated : generate options r = (log', .ok compiled))
    (loaded : Image.load (LoadClass.ofProgram compiled.classes 0).1 = (log'', .ok (image, store))) :
    Setting.Sound ⟨r.program, r.tree, image⟩ := by
  obtain ⟨layouts, classes, main⟩ := resolve_scoped resolved
  obtain ⟨cs, g, hcs, rfl⟩ := generate_eq_ok generated
  obtain ⟨compiled, each, without, with_⟩ := Emit.program_code hcs
  obtain ⟨_, l, installed, finished⟩ := load_eq_ok loaded
  have placed : r.program.PlacedAt 0 (r.program.sources) := fun k s hk => by rwa [Nat.zero_add]
  cases hmain : r.program.main with
  | none =>
    cases without hmain
    exact sound_of_valid
      (installAll_valid classes each placed.left Image.valid_empty installed).1 finished
  | some m =>
    obtain ⟨b, source, hsource, code, rfl⟩ := with_ m hmain
    rw [ofProgram_append] at installed
    obtain ⟨_, l₁, first, last⟩ := Image.installAll_append installed
    obtain ⟨valid, count⟩ := installAll_valid classes each placed.left Image.valid_empty first
    rw [count] at valid last
    have number := placed.right 0 (some source) (by rw [hmain, ← hsource]; rfl)
    exact sound_of_valid
      (installMain_valid valid code hsource (main m hmain) number last) finished

theorem compileBare_eq_ok {options : CompilerOptions} {p : Program} {compiled : CompiledProgram}
    {log : Log} (h : compileBare options p = (log, .ok compiled)) :
    ∃ log log' r, resolve p = (log, .ok r) ∧ generate options r = (log', .ok compiled) := by
  unfold compileBare at h
  split at h
  · cases h
  · rename_i log r resolved
    split at h
    · cases h
    · rename_i log' compiled' generated
      cases h
      exact ⟨log, log', r, resolved, generated⟩

/-- A program that is accepted has been resolved, and then there was code for it. -/
theorem compileBare_phases {options : CompilerOptions} {p : Program} {compiled : CompiledProgram}
    {log : Log} (h : compileBare options p = (log, .ok compiled)) :
    ∃ p' σ cs g, Resolve.program p {} = .ok p' σ ∧ Emit.program σ.tree options p' {} = .ok cs g
      ∧ compiled = { classes := cs, warnings := g.warnings.toList } := by
  obtain ⟨_, _, r, resolved, generated⟩ := compileBare_eq_ok h
  obtain ⟨p', σ, resolves, rfl⟩ := resolve_eq_ok resolved
  obtain ⟨cs, g, made, rfl⟩ := generate_eq_ok generated
  exact ⟨p', σ, cs, g, resolves, made, rfl⟩

/-! ## A program -/

theorem climb_self (t : ScopeTree) (id : ScopeId) (depth : Nat) :
    t.climb id id depth = some depth := by
  rw [ScopeTree.climb, if_pos rfl]

theorem climb_up {t : ScopeTree} {target source above : ScopeId} {depth : Nat}
    (hne : source ≠ target) (up : t.parent? source = some above) (hlt : above < source)
    (room : depth < 65535) : t.climb target source depth = t.climb target above (depth + 1) := by
  rw [ScopeTree.climb, if_neg hne, up]
  simp [hlt, room]

/-- The classes that a machine cannot do without, of which blocks answer `value`, and a main body
that asks a block for the value of a variable. -/
def blockProgram : Program :=
  { classes :=
      ["Object", "UndefinedObject", "Boolean", "Integer", "Float", "Character", "String", "Array",
        "TranscriptStream"].map (fun name => { name })
        ++ [{ name := "BlockDescriptor"
              methods := [{ selector := "value", kind := .primitive "BlockDescriptor_VALUE" }] }]
    main := some { locals := ["x"], body := { stats := [
      .assign { name := "x" } (.literal (.int 3)) {},
      .ret (.send (.block {} [.expr (.ident { name := "x" })]) "value" [] {}) {}] } } }

/-- The program with its names resolved. -/
def blockResolution : Resolution :=
  { program :=
      { classes :=
          { name := "Object" } :: ["UndefinedObject", "Boolean", "Integer", "Float", "Character",
            "String", "Array", "TranscriptStream"].map (fun name =>
              { name, superclass := some "Object" })
            ++ [{ name := "BlockDescriptor"
                  superclass := some "Object"
                  methods := [{ selector := "value", scope := some 11
                                kind := .primitive "BlockDescriptor_VALUE" }] }]
        main := some { locals := ["x"], scope := some 13, body := { stats := [
          .assign { name := "x", symbol := some (.slot 13 0) } (.literal (.int 3)) {},
          .ret (.send (.block { scope := some 14 }
            [.expr (.ident { name := "x", symbol := some (.slot 13 0) })]) "value" [] {}) {}] } } }
    tree := ⟨#[
      { name := "global", kind := .global, parent := none },
      { name := "Object", kind := .cls, parent := some 0 },
      { name := "UndefinedObject", kind := .cls, parent := some 0 },
      { name := "Boolean", kind := .cls, parent := some 0 },
      { name := "Integer", kind := .cls, parent := some 0 },
      { name := "Float", kind := .cls, parent := some 0 },
      { name := "Character", kind := .cls, parent := some 0 },
      { name := "String", kind := .cls, parent := some 0 },
      { name := "Array", kind := .cls, parent := some 0 },
      { name := "TranscriptStream", kind := .cls, parent := some 0 },
      { name := "BlockDescriptor", kind := .cls, parent := some 0 },
      { name := "value", kind := .method false, parent := some 10 },
      { name := "MainClass", kind := .cls, parent := some 0 },
      { name := "main", kind := .method false, parent := some 12, vars := ["x"] },
      { name := "main-block0", kind := .block 0, parent := some 13 }]⟩ }

theorem blockProgram_resolves : ∃ log, resolve blockProgram = (log, .ok blockResolution) := by
  have number : "main-block" ++ Nat.repr 0 = "main-block0" := by decide
  simp [resolve, blockProgram, blockResolution, number, Resolve.program, Resolve.classes,
    Resolve.cls, Resolve.methods, Resolve.method, Resolve.inheritedFields, Resolve.superclassOf,
    Resolve.addFields, Resolve.check, Resolve.addScope, Resolve.mainBody, Resolve.openCode,
    Resolve.checkVars, Resolve.body, Resolve.stats, Resolve.stat, Resolve.expr, Resolve.exprs,
    Resolve.openBlock, Resolve.takeBlockIndex, Resolve.maxSlots, rootClass, mainClass, mainSelector,
    ScopeTree.globalId, ScopeTree.add, ScopeTree.empty, Ident.resolve, resolveName,
    Std.HashMap.getElem_insert, bind, EStateM.bind, pure, EStateM.pure,
    EStateM.get_apply, modify, EStateM.modifyGet_apply, throw, throwThe, MonadExceptOf.throw]

/-- The program is accepted with and without source positions, what is made of it can be loaded, and
it has no method that takes identity hashes. -/
theorem blockProgram_compiles (debugInfo : Bool) :
    ∃ log compiled, compileBare { debugInfo } blockProgram = (log, .ok compiled)
      ∧ (∃ log image store, Image.load (LoadClass.ofProgram compiled.classes 0).1
        = (log, .ok (image, store)))
      ∧ ∀ c ∈ compiled.classes, ∀ b ∈ c.methods, b.primitive ≠ some .objectHash := by
  have tag : Primitive.ofTag? "BlockDescriptor_VALUE" = some .blockValue := by decide
  obtain ⟨log, resolved⟩ := blockProgram_resolves
  rw [compileBare, resolved]
  cases debugInfo <;>
    simp [blockResolution, generate, Emit.program, Emit.cls, Emit.method, Emit.scopeOf,
      Emit.primitiveMethod, Emit.qualifiedName, Emit.report, Emit.mainAsClass, Emit.mainBody,
      Emit.withTable, Emit.inBlock, Emit.stats, Emit.stat, Emit.mark, Emit.expr, Emit.constant,
      Emit.instruction, Emit.store, Emit.depthTo, Emit.statsAfter, Emit.returnPosition,
      Emit.warnAfter, Emit.exprs, Emit.finish, Emit.enter, Emit.growTo, Emit.takeBlocks,
      Emit.tableBlocks, Emit.literal, Emit.check, Emit.load, LiteralPool.insert,
      LiteralPool.capacity, short, tag, Primitive.arity, ScopeTree.qualifiedName, ScopeTree.get?,
      ScopeTree.parent?, ScopeTree.relativeDepth, climb_self, @climb_up _ 13 14 13, bind,
      EStateM.bind, pure, EStateM.pure, modify, EStateM.modifyGet_apply, throw, throwThe,
      MonadExceptOf.throw, discard, Functor.mapConst,
      EStateM.map, LoadClass.ofProgram, LoadClass.ofCompiled, Image.load, Image.installAll,
      Image.install, Image.inherited, Image.linkAll, Image.link, Image.finish, Image.knownClasses,
      Image.required, mainClass, rootClass, Std.HashMap.getElem_insert, Except.bind, Except.pure]

end Direct

end Colloquy
