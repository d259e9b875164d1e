import Mathlib.Logic.Relation
import Colloquy.Compile.Library
import Colloquy.Proofs.Compile.Library
import Colloquy.Proofs.Compile.Loading

/-!
# Object layout

Resolution and loading find the fields of an object independently.  Resolution appends the fields of
a class to the list of those it inherits; loading adds up the numbers of fields along the superclass
links.  The two agree, and every program that is accepted can be loaded.

Main statement: `compiled_programs_load`.
-/

namespace Colloquy

/-- A program behind the class library. -/
def Program.onLibrary (p : Program) : Program := { p with classes := Library.classes ++ p.classes }

/-- The classes of a program with their superclasses and own fields, that of the main body last. -/
def Program.hierarchy (p : Program) : List (String × Option String × List String) :=
  p.classes.map (fun c => (c.name, Resolve.superclassOf c, c.fields))
    ++ p.main.toList.map fun _ => (mainClass, some rootClass, [])

/-- All fields of a class, inherited ones first, as resolution has found them.  The class of the
main body is not among the classes it keeps, and sees the fields of the root class. -/
def Resolver.fieldsOf (σ : Resolver) (name : String) : List String :=
  σ.layouts.getD name (σ.layouts.getD rootClass [])

/-- `d` is `c`, or `c` is one of its superclasses. -/
def Class.Inherits (d c : Class) : Prop :=
  Relation.ReflTransGen (fun a b => a.superclass? = some b) d c

/-- What is in one of two related lists has its partner in the other. -/
theorem forall₂_exists_of_mem {α β : Type} {R : α → β → Prop} {as : List α} {bs : List β} {a : α}
    (h : List.Forall₂ R as bs) (ha : a ∈ as) : ∃ b ∈ bs, R a b := by
  induction h with
  | nil => cases ha
  | cons first _ ih =>
    rcases List.mem_cons.1 ha with rfl | ha
    · exact ⟨_, List.mem_cons_self, first⟩
    · obtain ⟨b, hb, later⟩ := ih ha
      exact ⟨b, List.mem_cons_of_mem _ hb, later⟩

/-- A new key hides no entry of a map. -/
theorem getElem?_insert_of_new {α : Type} {map : Std.HashMap String α} {key other : String} {a : α}
    (new : map[key]? = none) (h : map[other]? = some a) (b : α) :
    (map.insert key b)[other]? = some a := by
  rw [Std.HashMap.getElem?_insert, if_neg, h]
  intro he
  rw [beq_iff_eq] at he
  rw [he, h] at new
  cases new

/-! ## Laid out classes -/

/-- The classes, which come behind those in `done`, have new names and come after their
superclasses.  All fields of a class are those of its superclass and then its own. -/
inductive LaidOut (fields : String → List String) :
    List CompiledClass → List CompiledClass → Prop where
  | nil {done : List CompiledClass} : LaidOut fields done []
  | cons {done rest : List CompiledClass} {c : CompiledClass} (new : ∀ d ∈ done, d.name ≠ c.name)
      (root : c.superclass = none → c.name = rootClass ∧ fields c.name = c.fields)
      (inherits : ∀ above, c.superclass = some above →
        (∃ d ∈ done, d.name = above) ∧ fields c.name = fields above ++ c.fields)
      (later : LaidOut fields (done ++ [c]) rest) : LaidOut fields done (c :: rest)

theorem LaidOut.append {fields : String → List String} {done cs ds : List CompiledClass}
    (h : LaidOut fields done cs) (h' : LaidOut fields (done ++ cs) ds) :
    LaidOut fields done (cs ++ ds) := by
  induction h with
  | nil => simpa using h'
  | cons new root inherits _ ih => exact .cons new root inherits (ih (by simpa using h'))

/-! ## What resolution lays out -/

namespace Resolve

variable {σ σ' : Resolver}

/-- The methods of the class were resolved with the given fields. -/
structure ClassUses (fields : List String) (c c' : ClassDef) : Prop where
  name : c'.name = c.name
  superclass : c'.superclass = superclassOf c
  own : c'.fields = c.fields
  methods : ∃ scope σ σ', methods c.name scope fields c.methods {} [] σ = .ok c'.methods σ'

/-- The main body was resolved with the given fields. -/
def MainUses (fields : List String) (m m' : MainBody) : Prop :=
  ∃ scope σ σ', body fields mainSelector scope m.body σ = .ok m'.body σ'

/-- The classes and the main body of a program were resolved with the given fields. -/
structure Uses (fields : String → List String) (p p' : Program) : Prop where
  classes : List.Forall₂ (fun c c' => ClassUses (fields c.name) c c') p.classes p'.classes
  main : Option.Rel (MainUses (fields mainClass)) p.main p'.main

/-- Classes that are known stay as they are. -/
def Keeps (σ σ' : Resolver) : Prop :=
  ∀ (name : String) (fields : List String), σ.layouts[name]? = some fields →
    σ'.layouts[name]? = some fields

theorem fieldsOf_eq {name : String} {fields : List String}
    (h : σ.layouts[name]? = some fields) : σ.fieldsOf name = fields := by
  rw [Resolver.fieldsOf, Std.HashMap.getD_eq_getD_getElem?, h, Option.getD_some]

/-- A class without a superclass is the root class. -/
theorem name_of_superclassOf {c : ClassDef} (h : superclassOf c = none) : c.name = rootClass := by
  unfold superclassOf at h
  split at h
  · cases h
  · by_contra hne
    rw [if_neg hne] at h
    cases h

/-- **Laying out a class.**  A class whose fields stay known is laid out behind those before it. -/
theorem cls_laid {c c' : ClassDef} (h : cls c σ = .ok c' σ') :
    Keeps σ σ' ∧ ∃ fields, ClassUses fields c c' ∧ fields.length ≤ maxSlots
      ∧ (∀ name, (σ'.layouts[name]?).isSome ↔ name = c.name ∨ (σ.layouts[name]?).isSome)
      ∧ σ'.layouts[c.name]? = some fields ∧ σ.layouts[c.name]? = none
      ∧ (superclassOf c = none → fields = c.fields)
      ∧ ∀ above, superclassOf c = some above →
        ∃ inherited, σ.layouts[above]? = some inherited ∧ fields = inherited ++ c.fields := by
  obtain ⟨new, inherited, scope, ms, τ, τ', hinherited, room, hall, -, same, rfl, -, hlayouts⟩ :=
    cls_eq_ok h
  obtain ⟨root, inherits⟩ := inheritedFields_eq_ok hinherited
  have old : τ'.layouts = σ.layouts := (methods_scoped room hall).1.layouts.trans same
  rw [old] at hlayouts
  refine ⟨fun name fields hf => hlayouts ▸ getElem?_insert_of_new new hf _, _,
    ⟨rfl, rfl, rfl, scope, τ, τ', hall⟩, room, fun name => ?_, ?_, new, fun hroot => ?_,
    fun above habove => ⟨inherited, inherits above habove, rfl⟩⟩
  · rw [hlayouts, Std.HashMap.getElem?_insert]
    split
    · simp_all
    · rename_i hne
      simp only [beq_iff_eq] at hne
      simp [Ne.symm hne]
  · rw [hlayouts, Std.HashMap.getElem?_insert_self]
  · rw [root hroot, List.nil_append]

/-- **Laying out classes** behind those that are known. -/
theorem classes_laid {cs done cs' : List ClassDef} (h : classes cs done σ = .ok cs' σ') :
    Keeps σ σ' ∧ ∃ new, cs' = done.reverse ++ new
      ∧ (∀ name, (σ'.layouts[name]?).isSome ↔
        (σ.layouts[name]?).isSome ∨ name ∈ cs.map ClassDef.name)
      ∧ (∀ name ∈ cs.map ClassDef.name, (σ'.fieldsOf name).length ≤ maxSlots)
      ∧ List.Forall₂ (fun c c' => ClassUses (σ'.fieldsOf c.name) c c') cs new
      ∧ ∀ (good : Method → Block → Prop) (before compiled : List CompiledClass),
        List.Forall₂ (ClassCode good) new compiled →
          (∀ name, (σ.layouts[name]?).isSome ↔ ∃ d ∈ before, d.name = name) →
          LaidOut σ'.fieldsOf before compiled := by
  induction cs generalizing σ done with
  | nil =>
    cases h
    refine ⟨fun _ _ => id, [], (List.append_nil _).symm, by simp, by simp, .nil, ?_⟩
    rintro good before _ ⟨⟩ -
    exact .nil
  | cons c rest ih =>
    obtain ⟨c', τ, hc, hrest⟩ := EStateM.bind_eq_ok.1 h
    obtain ⟨keeps, fields, uses, room, names, here, fresh, root, inherits⟩ := cls_laid hc
    obtain ⟨keeps', new, rfl, names', room', each, later⟩ := ih hrest
    have all : σ'.fieldsOf c.name = fields := fieldsOf_eq (keeps' _ _ here)
    refine ⟨fun name fs hf => keeps' _ _ (keeps _ _ hf), c' :: new, by simp, fun name => ?_, ?_,
      .cons (all ▸ uses) each, ?_⟩
    · rw [names', names, List.map_cons, List.mem_cons]
      tauto
    · rw [List.map_cons, List.forall_mem_cons, all]
      exact ⟨room, room'⟩
    · rintro good before (_ | ⟨k, compiled⟩) (_ | ⟨head, tail⟩) known
      have name : k.name = c.name := head.name.trans uses.name
      have superclass : k.superclass = superclassOf c := head.superclass.trans uses.superclass
      have own : k.fields = c.fields := head.fields.trans uses.own
      refine .cons (fun d hd he => ?_) (fun hroot => ?_) (fun above habove => ?_)
        (later _ _ _ tail fun other => ?_)
      · have : (σ.layouts[c.name]?).isSome := (known _).2 ⟨d, hd, he.trans name⟩
        rw [fresh] at this
        cases this
      · rw [superclass] at hroot
        rw [name, all, own]
        exact ⟨name_of_superclassOf hroot, root hroot⟩
      · obtain ⟨inherited, hi, rfl⟩ := inherits above (superclass ▸ habove)
        rw [name, all, own, fieldsOf_eq (keeps' _ _ (keeps _ _ hi))]
        exact ⟨(known above).1 (by rw [hi]; rfl), rfl⟩
      · rw [names, known]
        simp only [List.mem_append, List.mem_singleton, or_and_right, exists_or, exists_eq_left,
          name]
        rw [or_comm, @eq_comm _ other]

/-- The main body sees the fields of the root class, and its class has a name of its own. -/
theorem mainBody_laid {m m' : MainBody} (h : mainBody m σ = .ok m' σ')
    (room : (σ.layouts.getD rootClass []).length ≤ maxSlots) :
    σ'.layouts = σ.layouts ∧ σ.layouts[mainClass]? = none
      ∧ MainUses (σ.layouts.getD rootClass []) m m' := by
  obtain ⟨_, _, scope, τ, _, fresh, ⟨⟩, opens, resolves, rfl⟩ := mainBody_eq_ok h
  obtain ⟨taken, short, s, here, -, vars, -⟩ := openCode_eq_ok opens
  obtain ⟨adds, -⟩ := body_scoped room
    ⟨List.forall_mem_singleton.2 ⟨short, s, here, vars⟩, List.cons_ne_nil _ _⟩ resolves
  exact ⟨adds.layouts.trans taken.layouts, fresh, scope, τ, _, resolves⟩

theorem hierarchy_of_classCode {good : Method → Block → Prop} {fields : String → List String}
    {cs cs' : List ClassDef} {compiled : List CompiledClass}
    (uses : List.Forall₂ (fun c c' => ClassUses (fields c.name) c c') cs cs')
    (code : List.Forall₂ (ClassCode good) cs' compiled) :
    compiled.map (fun c => (c.name, c.superclass, c.fields))
      = cs.map fun c => (c.name, superclassOf c, c.fields) := by
  induction uses generalizing compiled with
  | nil =>
    cases code
    rfl
  | cons first _ ih =>
    cases code with
    | cons head tail =>
      rw [List.map_cons, List.map_cons, ih tail, head.name, head.superclass, head.fields,
        first.name, first.superclass, first.own]

/-- **Laying out a program** that has the root class. -/
theorem program_laid {options : CompilerOptions} {p p' : Program} {tree : ScopeTree}
    {cs : List CompiledClass} {g g' : Generator} (h : program p {} = .ok p' σ)
    (root : rootClass ∈ p.classes.map ClassDef.name)
    (generated : Emit.program tree options p' g = .ok cs g') :
    Uses σ.fieldsOf p p' ∧ LaidOut σ.fieldsOf [] cs
      ∧ cs.map (fun c => (c.name, c.superclass, c.fields)) = p.hierarchy
      ∧ ∀ c ∈ cs, (σ.fieldsOf c.name).length ≤ maxSlots := by
  obtain ⟨compiled, code, without, with_⟩ := Emit.program_makes generated
  obtain ⟨new, τ, hclasses, hmain⟩ := EStateM.bind_eq_ok.1 h
  obtain ⟨-, _, rfl, names, room, uses, laid⟩ := classes_laid hclasses
  have known (name : String) :
      (τ.layouts[name]?).isSome ↔ name ∈ p.classes.map ClassDef.name := by simpa using names name
  have short : (τ.layouts.getD rootClass []).length ≤ maxSlots := by
    obtain ⟨fields, hf⟩ := Option.isSome_iff_exists.1 ((known rootClass).2 root)
    rw [Std.HashMap.getD_eq_getD_getElem?, hf, Option.getD_some, ← fieldsOf_eq hf]
    exact room rootClass root
  have same (hcode : List.Forall₂ (ClassCode (Emit.Makes tree options)) new compiled) :=
    hierarchy_of_classCode uses hcode
  have named (hcode : List.Forall₂ (ClassCode (Emit.Makes tree options)) new compiled)
      (name : String) : (∃ c ∈ compiled, c.name = name) ↔ name ∈ p.classes.map ClassDef.name := by
    have := congrArg (name ∈ ·.map Prod.fst) (same hcode)
    simpa using this
  cases hm : p.main with
  | none =>
    rw [hm] at hmain
    cases hmain
    cases without rfl
    refine ⟨⟨uses, by rw [hm]; exact .none⟩, laid _ _ _ code (by simp), ?_,
      fun c hc => room _ ((named code _).1 ⟨c, hc, rfl⟩)⟩
    rw [Program.hierarchy, hm, same code]
    simp
  | some m =>
    rw [hm] at hmain
    obtain ⟨m', _, hbody, ⟨⟩⟩ := EStateM.bind_eq_ok.1 hmain
    obtain ⟨layouts, fresh, usesMain⟩ := mainBody_laid hbody short
    obtain ⟨b, _, _, -, rfl⟩ := with_ m' rfl
    have fields : σ.fieldsOf = τ.fieldsOf := by
      funext name
      rw [Resolver.fieldsOf, layouts, Resolver.fieldsOf]
    have ofMain : τ.fieldsOf mainClass = τ.layouts.getD rootClass [] := by
      rw [Resolver.fieldsOf, Std.HashMap.getD_eq_getD_getElem?, fresh, Option.getD_none]
    have ofRoot : τ.fieldsOf rootClass = τ.layouts.getD rootClass [] := by
      obtain ⟨fs, hf⟩ := Option.isSome_iff_exists.1 ((known rootClass).2 root)
      rw [fieldsOf_eq hf, Std.HashMap.getD_eq_getD_getElem?, hf, Option.getD_some]
    rw [fields]
    refine ⟨⟨uses, by rw [hm, ofMain]; exact .some usesMain⟩, (laid _ _ _ code (by simp)).append
      (.cons (fun d hd he => ?_) nofun (fun above habove => ?_) .nil), ?_, fun c hc => ?_⟩
    · have := (known d.name).2 ((named code _).1 ⟨d, hd, rfl⟩)
      rw [he] at this
      exact absurd this (by simp [fresh, Emit.classOfMain])
    · cases habove
      exact ⟨(named code _).2 root, ofMain.trans (ofRoot.symm.trans (List.append_nil _).symm)⟩
    · rw [Program.hierarchy, hm, List.map_append, same code]
      rfl
    · rcases List.mem_append.1 hc with hc | hc
      · exact room _ ((named code _).1 ⟨c, hc, rfl⟩)
      · cases List.mem_singleton.1 hc
        exact ofMain ▸ short

end Resolve

/-! ## What loading lays out -/

namespace Image

/-- The class is loaded as it was compiled, with the given fields for instances of each class. -/
structure Installs (byName : Std.HashMap String Class) (fields : String → List String)
    (c : CompiledClass) (cls : Class) : Prop where
  name : cls.name = c.name
  named : byName[c.name]? = some cls
  own : cls.info.fields = c.fields
  methods : ∀ selector : String, (cls.info.methods[selector]?).map Code.block
    = c.methods.reverse.find? (·.name = selector)
  top : c.superclass = none → c.name = rootClass ∧ cls.superclass? = none
  superclass : ∀ above, c.superclass = some above → fields c.name = fields above ++ c.fields
    ∧ ∃ up, byName[above]? = some up ∧ cls.superclass? = some up
  root : ∃ root, byName[rootClass]? = some root ∧ root.superclass? = none ∧ cls.Inherits root
  numFields : cls.numFields = (fields c.name).length

/-- The classes in `done` have been loaded, and no others. -/
structure Loader.Lays (fields : String → List String) (done : List CompiledClass) (l : Loader) :
    Prop where
  each : List.Forall₂ (Installs l.byName fields) done l.classes.toList
  known : ∀ (name : String) (cls : Class), l.byName[name]? = some cls →
    ∃ c ∈ done, c.name = name ∧ Installs l.byName fields c cls

variable {byName : Std.HashMap String Class} {fields : String → List String}
  {done cs : List CompiledClass} {l : Loader} {c : CompiledClass} {cls : Class}

theorem lays_empty : ({} : Loader).Lays fields [] := ⟨.nil, by simp⟩

/-- A class under a new name changes nothing for the classes that are there. -/
theorem Installs.insert (h : Installs byName fields c cls) {name : String} (new : Class)
    (fresh : byName[name]? = none) : Installs (byName.insert name new) fields c cls := by
  refine ⟨h.name, getElem?_insert_of_new fresh h.named _, h.own, h.methods, h.top,
    fun above habove => ?_, ?_, h.numFields⟩
  · obtain ⟨hf, up, hup, link⟩ := h.superclass above habove
    exact ⟨hf, up, getElem?_insert_of_new fresh hup _, link⟩
  · obtain ⟨root, hroot, top, inherits⟩ := h.root
    exact ⟨root, getElem?_insert_of_new fresh hroot _, top, inherits⟩

/-- The method found under a name is the last one with that name. -/
theorem block_linkAll {cls : ClassId} {ms : List (Nat × Block)} {methods : Std.HashMap String Code}
    {owners : Std.HashMap Nat ClassId} {log : Log} (selector : String) :
    ((linkAll cls ms methods owners log).1[selector]?).map Code.block
      = ((ms.map Prod.snd).reverse.find? (·.name = selector)).or
        ((methods[selector]?).map Code.block) := by
  induction ms generalizing methods owners log with
  | nil => rfl
  | cons m rest ih =>
    obtain ⟨number, block⟩ := m
    rw [linkAll]
    dsimp only
    rw [ih, List.map_cons, List.reverse_cons, List.find?_append, Option.or_assoc]
    congr 1
    have : (link cls number block owners log).1.block = block := by
      unfold link
      split <;> rfl
    rw [Std.HashMap.getElem?_insert]
    by_cases hs : block.name = selector <;> simp [hs, this]

/-- What a class inherits that is laid out behind those that are loaded. -/
theorem inherited_lays (lays : l.Lays fields done) (next : Nat)
    (root : c.superclass = none → c.name = rootClass ∧ fields c.name = c.fields)
    (inherits : ∀ above, c.superclass = some above →
      (∃ d ∈ done, d.name = above) ∧ fields c.name = fields above ++ c.fields)
    (fresh : l.byName[c.name]? = none) :
    ∃ above, inherited l.byName (LoadClass.ofCompiled next c) = .ok above
      ∧ ∀ info : ClassInfo, info.name = c.name → info.fields = c.fields →
        (∀ selector : String, (info.methods[selector]?).map Code.block
          = c.methods.reverse.find? (·.name = selector)) →
        Installs (l.byName.insert c.name ⟨info, above⟩) fields c ⟨info, above⟩ := by
  cases hs : c.superclass with
  | none =>
    obtain ⟨top, own⟩ := root hs
    have found : inherited l.byName (LoadClass.ofCompiled next c) = .ok [] := by
      simp only [inherited, LoadClass.ofCompiled, hs]
    refine ⟨[], found, fun info name hf methods => ⟨name, Std.HashMap.getElem?_insert_self, hf,
      methods, fun _ => ⟨top, rfl⟩, by simp [hs], ⟨_, ?_, rfl, .refl⟩, ?_⟩⟩
    · rw [top, Std.HashMap.getElem?_insert_self]
    · rw [own, numFields_cons, hf]
      rfl
  | some above =>
    obtain ⟨⟨d, hd, rfl⟩, all⟩ := inherits above hs
    obtain ⟨up, -, installed⟩ := forall₂_exists_of_mem lays.each hd
    have found : inherited l.byName (LoadClass.ofCompiled next c) = .ok up.chain := by
      simp only [inherited, LoadClass.ofCompiled, hs, installed.named]
    refine ⟨_, found, fun info name hf methods => ⟨name, Std.HashMap.getElem?_insert_self, hf,
      methods, by simp [hs], fun above habove => ?_, ?_, ?_⟩⟩
    · obtain rfl : d.name = above := by simpa [hs] using habove
      exact ⟨all, up, getElem?_insert_of_new fresh installed.named _, rfl⟩
    · obtain ⟨top, htop, none, inherits⟩ := installed.root
      exact ⟨top, getElem?_insert_of_new fresh htop _, none, .head rfl inherits⟩
    · rw [all, List.length_append, ← installed.numFields, numFields_cons, hf, Nat.add_comm]
      rfl

/-- **Loading one more class** that is laid out behind those that are loaded. -/
theorem install_lays (lays : l.Lays fields done) (next : Nat) (new : ∀ d ∈ done, d.name ≠ c.name)
    (root : c.superclass = none → c.name = rootClass ∧ fields c.name = c.fields)
    (inherits : ∀ above, c.superclass = some above →
      (∃ d ∈ done, d.name = above) ∧ fields c.name = fields above ++ c.fields) :
    ∃ l', install l (LoadClass.ofCompiled next c) = .ok l' ∧ l'.Lays fields (done ++ [c]) := by
  have fresh : l.byName[c.name]? = none := by
    by_contra hne
    obtain ⟨cls, hcls⟩ := Option.ne_none_iff_exists'.1 hne
    obtain ⟨d, hd, name, -⟩ := lays.known _ _ hcls
    exact new d hd name
  obtain ⟨above, hi, installs⟩ := inherited_lays lays next root inherits fresh
  have installed := installs
    { id := l.classes.size, name := c.name, fields := c.fields
      methods :=
        (linkAll l.classes.size (LoadClass.ofCompiled next c).methods {} l.owners l.log).1 }
    rfl rfl (fun selector => by
      rw [block_linkAll]
      simp [LoadClass.ofCompiled, Function.comp_def])
  rw [install, hi]
  refine ⟨_, rfl, ?_, fun name cls hcls => ?_⟩
  · dsimp only
    rw [Array.toList_push]
    exact List.rel_append (lays.each.imp fun d cls h => h.insert _ fresh)
      (.cons installed .nil)
  · dsimp only at hcls
    rw [Std.HashMap.getElem?_insert] at hcls
    split at hcls
    · rename_i he
      cases hcls
      exact ⟨c, by simp, beq_iff_eq.1 he, installed⟩
    · obtain ⟨d, hd, hname, old⟩ := lays.known name cls hcls
      exact ⟨d, List.mem_append_left _ hd, hname, old.insert _ fresh⟩

/-- **Loading classes** that are laid out. -/
theorem installAll_lays (laid : LaidOut fields done cs) (lays : l.Lays fields done) (next : Nat) :
    ∃ log l', installAll (LoadClass.ofProgram cs next).1 l = (log, .ok l')
      ∧ l'.Lays fields (done ++ cs) := by
  induction laid generalizing l next with
  | nil => exact ⟨_, l, rfl, by simpa using lays⟩
  | cons new root inherits _ ih =>
    obtain ⟨l₁, installed, lays⟩ := install_lays lays next new root inherits
    obtain ⟨log, l', all, lays⟩ := ih lays (next + _)
    refine ⟨log, l', ?_, by simpa using lays⟩
    rw [LoadClass.ofProgram, installAll, installed]
    exact all

/-- The classes of the values that the machine knows itself. -/
def systemClasses : List String :=
  ["UndefinedObject", "Boolean", "Integer", "Float", "Character", "String", "Array",
    "BlockDescriptor", "TranscriptStream"]

/-- Loading ends well if the machine's own classes are there. -/
theorem finish_eq_ok (h : ∀ name ∈ systemClasses, (l.byName[name]?).isSome) :
    ∃ image store, finish l = .ok (image, store) ∧ image.classes = l.classes
      ∧ image.byName = l.byName := by
  have ok {name : String} (hn : name ∈ systemClasses) :
      ∃ cls, required l.byName name = .ok cls := by
    obtain ⟨cls, hcls⟩ := Option.isSome_iff_exists.1 (h name hn)
    exact ⟨cls, by rw [required, hcls]⟩
  obtain ⟨_, h₁⟩ := @ok "UndefinedObject" (by decide)
  obtain ⟨_, h₂⟩ := @ok "Boolean" (by decide)
  obtain ⟨_, h₃⟩ := @ok "Integer" (by decide)
  obtain ⟨_, h₄⟩ := @ok "Float" (by decide)
  obtain ⟨_, h₅⟩ := @ok "Character" (by decide)
  obtain ⟨_, h₆⟩ := @ok "String" (by decide)
  obtain ⟨_, h₇⟩ := @ok "Array" (by decide)
  obtain ⟨_, h₈⟩ := @ok "BlockDescriptor" (by decide)
  obtain ⟨_, h₉⟩ := @ok "TranscriptStream" (by decide)
  rw [finish, knownClasses, h₁, h₂, h₃, h₄, h₅, h₆, h₇, h₈, h₉]
  exact ⟨_, _, rfl, rfl, rfl⟩

end Image

/-! ## The place of a field -/

/-- A name that is there has a place. -/
theorem idxOf?_of_mem {name : String} {names : List String} (h : name ∈ names) :
    names.idxOf? name = some (names.idxOf name) := by
  simpa [List.idxOf?, List.idxOf] using List.findIdx?_eq_some_of_exists ⟨name, h, by simp⟩

/-- A field that no variable hides has its place in the list of all fields. -/
theorem resolveName_field {fields : List String} {name : String} (h : name ∈ fields)
    {chain : ScopeChain} (seen : ∀ scope ∈ chain, name ∉ scope.2) :
    resolveName fields name chain = .field (fields.idxOf name).toUInt16 := by
  induction chain with
  | nil => rw [resolveName, idxOf?_of_mem h]
  | cons scope outer ih =>
    obtain ⟨id, vars⟩ := scope
    rw [resolveName, List.idxOf?_eq_none_iff.2 (seen _ List.mem_cons_self)]
    exact ih fun scope hs => seen scope (List.mem_cons_of_mem _ hs)

/-- Fields keep their places when others are added behind them. -/
theorem resolveName_of_isPrefix {fields more : List String} {name : String}
    (h : name ∈ fields) (front : fields <+: more) {chain : ScopeChain}
    (seen : ∀ scope ∈ chain, name ∉ scope.2) :
    resolveName more name chain = resolveName fields name chain := by
  obtain ⟨rest, rfl⟩ := front
  rw [resolveName_field h seen, resolveName_field (List.mem_append_left _ h) seen,
    List.idxOf_append_of_mem h]

/-- The fields of a superclass come first. -/
theorem Class.Inherits.isPrefix {byName : Std.HashMap String Class} {fields : String → List String}
    (known : ∀ (name : String) (cls : Class), byName[name]? = some cls →
      ∃ k, k.name = name ∧ Image.Installs byName fields k cls)
    {k : CompiledClass} {c d : Class} (installed : Image.Installs byName fields k d)
    (h : d.Inherits c) : fields c.name <+: fields d.name := by
  induction h using Relation.ReflTransGen.head_induction_on generalizing k with
  | refl => exact List.prefix_rfl
  | @head d up link _ ih =>
    cases hs : k.superclass with
    | none =>
      rw [(installed.top hs).2] at link
      cases link
    | some above =>
      obtain ⟨all, up', named, link'⟩ := installed.superclass above hs
      cases link'.symm.trans link
      obtain ⟨k', rfl, installed'⟩ := known _ _ named
      rw [installed.name, all]
      exact installed'.name ▸ (ih installed').trans (List.prefix_append _ _)

/-- **Every accepted program can be loaded**, with the fields that resolution found. -/
theorem load_laid {options : CompilerOptions} {p : Program} {log : Log} {compiled : CompiledProgram}
    (accepted : compile options p = (log, .ok compiled)) :
    ∃ (p' : Program) (σ : Resolver) (log' : Log) (image : Image) (store : Store),
      Resolve.program p.onLibrary {} = .ok p' σ ∧ Resolve.Uses σ.fieldsOf p.onLibrary p'
      ∧ compiled.classes.map (fun c => (c.name, c.superclass, c.fields)) = p.onLibrary.hierarchy
      ∧ (∀ c ∈ compiled.classes, (σ.fieldsOf c.name).length ≤ Resolve.maxSlots)
      ∧ Image.load (LoadClass.ofProgram compiled.classes 0).1 = (log', .ok (image, store))
      ∧ List.Forall₂ (Image.Installs image.byName σ.fieldsOf) compiled.classes image.classes.toList
      ∧ ∀ (name : String) (cls : Class), image.byName[name]? = some cls →
        ∃ c ∈ compiled.classes, c.name = name ∧ Image.Installs image.byName σ.fieldsOf c cls := by
  obtain ⟨p', σ, cs, g, hp, hcs, rfl⟩ := Direct.compileBare_phases accepted
  have root : rootClass ∈ p.onLibrary.classes.map ClassDef.name := by
    simp [Program.onLibrary, Library.classes, Library.object]
  obtain ⟨uses, laid, hierarchy, room⟩ := Resolve.program_laid hp root hcs
  obtain ⟨log', l, installed, lays⟩ := Image.installAll_lays laid Image.lays_empty 0
  have system : ∀ name ∈ Image.systemClasses, (l.byName[name]?).isSome := by
    intro name hname
    have library : name ∈ Library.classes.map ClassDef.name := List.mem_cons_of_mem _ hname
    have : name ∈ p.onLibrary.hierarchy.map Prod.fst := by
      simp only [Program.hierarchy, Program.onLibrary, List.map_append, List.map_map]
      exact List.mem_append_left _ (List.mem_append_left _ library)
    obtain ⟨c, hc, rfl⟩ : ∃ c ∈ cs, c.name = name := by
      rw [show p.onLibrary.hierarchy = _ from hierarchy.symm] at this
      simpa using this
    obtain ⟨cls, -, installs⟩ := forall₂_exists_of_mem lays.each hc
    rw [installs.named]
    rfl
  obtain ⟨image, store, finished, hclasses, hnames⟩ := Image.finish_eq_ok system
  refine ⟨p', σ, log', image, store, hp, uses, hierarchy, room, ?_, ?_, ?_⟩
  · rw [Image.load, installed]
    exact congrArg _ finished
  · rw [hnames, hclasses]
    exact lays.each
  · rw [hnames]
    exact lays.known

/-- The transcript is the only object that loading makes. -/
theorem Image.transcript_eq {classes : List LoadClass} {log : Log} {image : Image} {store : Store}
    (h : load classes = (log, .ok (image, store))) :
    ∃ cls, image.byName["TranscriptStream"]? = some cls ∧ image.transcript = .object cls 0
      ∧ store = ⟨#[Array.replicate cls.numFields .nil]⟩ := by
  obtain ⟨_, l, -, finished⟩ := Direct.load_eq_ok h
  obtain ⟨known, -, finished⟩ := Checked.bind_eq_ok.1 finished
  obtain ⟨cls, found, finished⟩ := Checked.bind_eq_ok.1 finished
  cases finished
  exact ⟨cls, Direct.required_eq_ok found, rfl, rfl⟩

/-- **The transcript has no fields.** -/
theorem transcript_of_load {options : CompilerOptions} {p : Program} {log log' : Log}
    {compiled : CompiledProgram} {image : Image} {store : Store}
    (accepted : compile options p = (log, .ok compiled))
    (loaded : Image.load (LoadClass.ofProgram compiled.classes 0).1 = (log', .ok (image, store))) :
    ∃ cls, image.transcript = .object cls 0 ∧ cls.numFields = 0 ∧ store = ⟨#[#[]]⟩ := by
  obtain ⟨_, σ, _, _, _, -, -, hierarchy, -, loaded', each, -⟩ := load_laid accepted
  cases loaded.symm.trans loaded'
  have installed {name : String} {superclass : Option String} {fields : List String}
      (h : (name, superclass, fields) ∈ Library.classes.map fun c =>
        (c.name, Resolve.superclassOf c, c.fields)) :
      ∃ c cls, c.name = name ∧ c.superclass = superclass ∧ c.fields = fields
        ∧ Image.Installs image.byName σ.fieldsOf c cls := by
    have : (name, superclass, fields) ∈ p.onLibrary.hierarchy := by
      simp only [Program.hierarchy, Program.onLibrary, List.map_append]
      exact List.mem_append_left _ (List.mem_append_left _ h)
    rw [← hierarchy] at this
    obtain ⟨c, hc, same⟩ := List.mem_map.1 this
    cases same
    obtain ⟨cls, -, installs⟩ := forall₂_exists_of_mem each hc
    exact ⟨c, cls, rfl, rfl, rfl, installs⟩
  obtain ⟨o, object, oname, otop, ofields, oinstalls⟩ :=
    @installed rootClass none [] (by decide)
  obtain ⟨t, stream, tname, tsuper, tfields, tinstalls⟩ :=
    @installed "TranscriptStream" (some rootClass) [] (by decide)
  have root : (σ.fieldsOf rootClass).length = 0 := by
    have top : object.above = [] := by
      have := (oinstalls.top otop).2
      unfold Class.superclass? at this
      split at this
      · assumption
      · cases this
    rw [← oname, ← oinstalls.numFields, Class.numFields, Class.chain, top]
    simp [oinstalls.own, ofields]
  obtain ⟨cls, named, transcript, hstore⟩ := Image.transcript_eq loaded
  have same : cls = stream := by
    have := tinstalls.named
    rw [tname, named] at this
    exact Option.some.inj this
  have none : cls.numFields = 0 := by
    rw [same, tinstalls.numFields, (tinstalls.superclass _ tsuper).1, tfields, List.append_nil,
      root]
  exact ⟨cls, transcript, none, by rw [hstore, none]; rfl⟩

/-- **Compiled programs load, and both sides agree on the layout of objects.**  The fields are those
that the methods of each class were resolved with, and a field keeps its place in subclasses. -/
theorem compiled_programs_load {options : CompilerOptions} {p : Program} {log : Log}
    {compiled : CompiledProgram} (accepted : compile options p = (log, .ok compiled)) :
    ∃ (p' : Program) (σ : Resolver) (log' : Log) (image : Image) (store : Store),
      Resolve.program p.onLibrary {} = .ok p' σ ∧ Resolve.Uses σ.fieldsOf p.onLibrary p'
      ∧ compiled.classes.map (fun c => (c.name, c.superclass, c.fields)) = p.onLibrary.hierarchy
      ∧ Image.load (LoadClass.ofProgram compiled.classes 0).1 = (log', .ok (image, store))
      ∧ List.Forall₂ (Image.Installs image.byName σ.fieldsOf) compiled.classes image.classes.toList
      ∧ ∀ c ∈ image.classes, ∀ d ∈ image.classes, d.Inherits c → ∀ field ∈ σ.fieldsOf c.name,
        ∃ i : UInt16, i.toNat < c.numFields ∧ ∀ chain : ScopeChain,
          (∀ scope ∈ chain, field ∉ scope.2) →
            resolveName (σ.fieldsOf c.name) field chain = .field i
              ∧ resolveName (σ.fieldsOf d.name) field chain = .field i := by
  obtain ⟨p', σ, log', image, store, resolved, uses, hierarchy, room, loaded, each, known⟩ :=
    load_laid accepted
  refine ⟨p', σ, log', image, store, resolved, uses, hierarchy, loaded, each,
    fun c hc d hd inherits field hfield => ?_⟩
  obtain ⟨k, hk, installed⟩ := forall₂_exists_of_mem each.flip hc.val
  obtain ⟨k', -, installed'⟩ := forall₂_exists_of_mem each.flip hd.val
  have short : (σ.fieldsOf c.name).idxOf field < 65536 := by
    have := List.idxOf_lt_length_of_mem hfield
    have := installed.name ▸ room k hk
    unfold Resolve.maxSlots at this
    omega
  have front := inherits.isPrefix (fun name cls hcls =>
    (known name cls hcls).imp fun _ h => h.2) installed'
  refine ⟨((σ.fieldsOf c.name).idxOf field).toUInt16, ?_, fun chain seen => ?_⟩
  · rw [Nat.toUInt16_eq, UInt16.toNat_ofNat', Nat.mod_eq_of_lt short, installed.numFields,
      ← installed.name]
    exact List.idxOf_lt_length_of_mem hfield
  · rw [resolveName_of_isPrefix hfield front seen]
    exact ⟨resolveName_field hfield seen, resolveName_field hfield seen⟩

/-! ## Points and pixels -/

/-- A method that a class has itself is found. -/
theorem Image.Installs.lookup_own {byName : Std.HashMap String Class}
    {fields : String → List String}
    {c : CompiledClass} {cls : Class} (h : Installs byName fields c cls) {selector : String}
    {b : Block} (own : c.methods.reverse.find? (·.name = selector) = some b) :
    ∃ code, cls.lookup selector = some code ∧ code.block = b := by
  have found := h.methods selector
  rw [own] at found
  obtain ⟨code, here, rfl⟩ := Option.map_eq_some_iff.1 found
  exact ⟨code, by rw [Class.lookup, Class.chain, List.findSome?_cons, here], rfl⟩

/-- A method that a class does not have itself is that of its superclass. -/
theorem Image.Installs.lookup_inherited {byName : Std.HashMap String Class}
    {fields : String → List String} {c : CompiledClass} {cls up : Class}
    (h : Installs byName fields c cls) (above : cls.superclass? = some up) {selector : String}
    (own : c.methods.reverse.find? (·.name = selector) = none) :
    cls.lookup selector = up.lookup selector := by
  have missing := h.methods selector
  rw [own, Option.map_eq_none_iff] at missing
  obtain ⟨info, infos⟩ := cls
  rw [Class.lookup, Class.chain, List.findSome?_cons, missing]
  cases infos with
  | nil => cases above
  | cons first rest =>
    cases above
    rfl

open Colloquy.Tree in
/-- Points, and pixels, which are points with a colour.  The variable of the main body holds a block
that the main body itself has made. -/
def pixelProgram : Program :=
  { classes := [
      { name := "Point", fields := ["x", "y"]
        methods := [method "y" [] { stats := [.ret (var "y") {}] }] },
      { name := "Pixel", superclass := some "Point", fields := ["color"]
        methods := [method "show" [] { stats := [.ret (sendAt 3 9 .self "y" []) {}] }] }]
    main := some { locals := ["b"], body := { stats := [
      assignAt 1 1 "b" (.block {} []), .expr (.literal .nil)] } } }

/-- The code of `y`. -/
def yBlock (qualified : String) : Block :=
  { name := "y", qualified, literals := #["<string>"]
    bytecode := Instruction.encodeAll #[.pushField 1, .debug 0 {}, .ret,
      .debug 0 (Position.before {}), .pop, .pushSelf, .ret] }

/-- The code of `show`. -/
def showBlock (qualified : String) : Block :=
  { name := "show", qualified, literals := #["<string>", "y"]
    bytecode := Instruction.encodeAll #[.pushSelf, .debug 0 ⟨3, 9⟩, .send 0 1, .debug 0 {}, .ret,
      .debug 0 (Position.before {}), .pop, .pushSelf, .ret] }

/-- The code of the main body, and of the block in it. -/
def keepingBlock (qualified nested : String) : Block :=
  { name := "main", qualified, nlocals := 1, literals := #["<string>"]
    bytecode := Instruction.encodeAll #[.debug 0 ⟨1, 1⟩, .block 0, .storeLocal 0 0, .pop, .pushNil,
      .debug 0 {}, .ret]
    blocks := #[{
      name := "main-block0", qualified := nested, literals := #["<string>"]
      bytecode := Instruction.encodeAll #[.pushNil, .debug 0 (Position.before {}),
        .blockReturn] }] }

/-- The classes of the program with their names resolved, where `n` is the number of their first
scope. -/
def pixelClasses (n : Nat) : List ClassDef := [
  { name := "Point", superclass := some "Object", fields := ["x", "y"]
    methods := [{
      selector := "y", scope := some (n + 1)
      kind := .code { stats := [.ret (.ident { name := "y", symbol := some (.field 1) }) {}] } }] },
  { name := "Pixel", superclass := some "Point", fields := ["color"]
    methods := [{
      selector := "show", scope := some (n + 3)
      kind := .code { stats := [.ret (.send .self "y" [] ⟨3, 9⟩) {}] } }] }]

/-- The main body of the program with its names resolved. -/
def pixelMain (n : Nat) : MainBody :=
  { locals := ["b"], scope := some (n + 5)
    body := { stats := [
      .assign { name := "b", position := ⟨1, 1⟩, symbol := some (.slot (n + 5) 0) }
        (.block { scope := some (n + 6) } []) ⟨1, 1⟩,
      .expr (.literal .nil)] } }

/-- The scopes of the program, from number `n` on. -/
def pixelScopes (n : Nat) : Array Scope := #[
  { name := "Point", kind := .cls, parent := some 0 },
  { name := "y", kind := .method false, parent := some n },
  { name := "Pixel", kind := .cls, parent := some 0 },
  { name := "show", kind := .method false, parent := some (n + 2) },
  { name := "MainClass", kind := .cls, parent := some 0 },
  { name := "main", kind := .method false, parent := some (n + 4), vars := ["b"] },
  { name := "main-block0", kind := .block 0, parent := some (n + 5) }]

theorem pixelProgram_resolves : ∃ (log : Log) (scopes : Array Scope) (library : List ClassDef),
    resolve pixelProgram.onLibrary = (log, .ok {
        program := ⟨library ++ pixelClasses scopes.size, some (pixelMain scopes.size)⟩
        tree := ⟨scopes ++ pixelScopes scopes.size⟩ })
      ∧ ∀ tree, ScopeTree.Grows ⟨scopes⟩ tree → ∀ c ∈ library, Emit.Compiles tree c := by
  obtain ⟨cs, ⟨⟨scopes⟩, next, layouts, log⟩, resolved, ⟨known⟩, compiles⟩ :=
    Resolve.classes_onLibrary pixelProgram.classes
  have number : "main-block" ++ Nat.repr 0 = "main-block0" := by decide
  have root : layouts["Object"]? = some [] := (known _).trans (by decide)
  have point : layouts["Point"]? = none := (known _).trans (by decide)
  have pixel : layouts["Pixel"]? = none := (known _).trans (by decide)
  have main : layouts["MainClass"]? = none := (known _).trans (by decide)
  have program : ∃ σ, Resolve.program pixelProgram.onLibrary {}
      = .ok ⟨cs.reverse ++ pixelClasses scopes.size, some (pixelMain scopes.size)⟩ σ
        ∧ σ.tree = ⟨scopes ++ pixelScopes scopes.size⟩ := by
    simp only [Resolve.program, Program.onLibrary, bind, EStateM.bind, resolved]
    simp [pixelProgram, pixelClasses, pixelMain, pixelScopes, Resolve.classes, Resolve.cls,
      Tree.var, Tree.assignAt, Tree.sendAt, Tree.pos, Tree.method, Resolve.methods, Resolve.method,
      Resolve.inheritedFields, Resolve.superclassOf, Resolve.addFields, Resolve.check,
      Resolve.addScope, Resolve.mainBody, Resolve.openCode, Resolve.openBlock,
      Resolve.takeBlockIndex, Resolve.checkVars, Resolve.body, Resolve.stats, Resolve.stat,
      Resolve.expr, Resolve.exprs, Resolve.maxSlots, rootClass, mainClass, mainSelector,
      ScopeTree.add, ScopeTree.globalId, Ident.resolve, resolveName, List.idxOf?,
      List.findIdx?_cons, number, root, point, pixel, main, bind, EStateM.bind, pure, EStateM.pure,
      EStateM.get_apply, modify, EStateM.modifyGet_apply, throw, throwThe, MonadExceptOf.throw,
      Std.HashMap.getElem?_insert, Std.HashMap.getD_eq_getD_getElem?,
      Std.HashMap.contains_eq_isSome_getElem?, ← Array.toList_inj]
  obtain ⟨⟨_, _, _, log⟩, program, rfl⟩ := program
  exact ⟨log, scopes, cs.reverse, by rw [resolve, program], compiles⟩

theorem pixelProgram_compiles : ∃ log compiled, compile {} pixelProgram = (log, .ok compiled)
    ∧ (∃ c ∈ compiled.classes, c.name = "Point" ∧ ∃ q, c.methods = [yBlock q])
    ∧ (∃ c ∈ compiled.classes, c.name = "Pixel" ∧ c.superclass = some "Point"
      ∧ ∃ q, c.methods = [showBlock q])
    ∧ ∃ c ∈ compiled.classes, c.name = mainClass ∧ ∃ q q', c.methods = [keepingBlock q q'] := by
  obtain ⟨log, scopes, library, resolved, compiles⟩ := pixelProgram_resolves
  generalize hn : scopes.size = n at resolved
  generalize htree : (⟨scopes ++ pixelScopes n⟩ : ScopeTree) = tree at resolved
  have known (k : Nat) : tree.get? (n + k) = (pixelScopes n)[k]? := by
    rw [← htree, ScopeTree.get?, Array.getElem?_append_right (hn ▸ Nat.le_add_right _ _), hn,
      Nat.add_sub_cancel_left]
  have grows : ScopeTree.Grows ⟨scopes⟩ tree := fun id s here => by
    have hlt : id < scopes.size := (Array.getElem?_eq_some_iff.1 here).1
    rw [← htree]
    exact (Array.getElem?_append_left hlt).trans here
  obtain ⟨front, t, hfront⟩ := Emit.mapM_of_forall (fun c hc => compiles tree grows c hc {}) {}
  have generated : ∃ g, Emit.program tree {} ⟨library ++ pixelClasses n, some (pixelMain n)⟩ {}
      = .ok (front ++ [
        ⟨"Point", some "Object", ["x", "y"], [yBlock (tree.qualify (some n) "y")]⟩,
        ⟨"Pixel", some "Point", ["color"], [showBlock (tree.qualify (some (n + 2)) "show")]⟩,
        ⟨mainClass, some rootClass, [], [keepingBlock (tree.qualify (some (n + 4)) "main")
          (tree.qualify (some (n + 5)) "main-block0")]⟩]) g := by
    simp [Emit.program, hfront, pixelClasses, pixelMain, yBlock, showBlock, keepingBlock,
      Emit.fileLiteral, mainClass, Emit.cls, Emit.method, Emit.scopeOf, Emit.qualifiedName,
      Emit.report, Emit.mainAsClass, Emit.mainBody, Emit.withTable, Emit.inBlock, Emit.stats,
      Emit.stat, Emit.mark, Emit.expr, Emit.constant, Emit.instruction, Emit.store, Emit.depthTo,
      Emit.statsAfter, Emit.returnPosition, Emit.warnAfter, Emit.exprs, Emit.finish, Emit.enter,
      Emit.growTo, Emit.takeBlocks, Emit.tableBlocks, Emit.literal, Emit.check, Emit.load,
      LiteralPool.insert, LiteralPool.capacity, short, known, pixelScopes, ScopeTree.qualifiedName,
      ScopeTree.relativeDepth, Direct.climb_self, bind, EStateM.bind, pure, EStateM.pure, modify,
      EStateM.modifyGet_apply, discard, Functor.mapConst, EStateM.map]
  obtain ⟨g, generated⟩ := generated
  rw [show compile {} pixelProgram = compileBare {} pixelProgram.onLibrary from rfl, compileBare,
    resolved]
  simp only [generate, generated]
  refine ⟨_, _, rfl, ⟨_, List.mem_append_right _ List.mem_cons_self, rfl, _, rfl⟩,
    ⟨_, List.mem_append_right _ (List.mem_cons_of_mem _ List.mem_cons_self), rfl, rfl, _, rfl⟩,
    _, List.mem_append_right _ (List.mem_cons_of_mem _ (List.mem_cons_of_mem _ List.mem_cons_self)),
    rfl, _, _, rfl⟩

/-- What loading makes of the classes of pixels and of the main body. -/
structure Image.HasPixels (image : Image) (pixel main : Class) (show_ y entry : Code) : Prop where
  pixelClass : image.byName["Pixel"]? = some pixel
  showMethod : pixel.lookup "show" = some show_ ∧ ∃ q, show_.block = showBlock q
  yMethod : pixel.lookup "y" = some y ∧ ∃ q, y.block = yBlock q
  mainClass : image.byName[Colloquy.mainClass]? = some main
  mainMethod : main.lookup mainSelector = some entry ∧ ∃ q q', entry.block = keepingBlock q q'

theorem pixelProgram_loads : ∃ log compiled log' image store pixel main show_ y entry,
    compile {} pixelProgram = (log, .ok compiled)
      ∧ Image.load (LoadClass.ofProgram compiled.classes 0).1 = (log', .ok (image, store))
      ∧ image.HasPixels pixel main show_ y entry := by
  obtain ⟨log, compiled, accepted, ⟨a, ha, aname, q, amethods⟩,
    ⟨b, hb, bname, bsuper, q', bmethods⟩, c, hc, cname, q₀, q₁, cmethods⟩ := pixelProgram_compiles
  obtain ⟨_, σ, log', image, store, -, -, -, -, loaded, each, -⟩ := load_laid accepted
  obtain ⟨point, -, pointInstalls⟩ := forall₂_exists_of_mem each ha
  obtain ⟨pixel, -, pixelInstalls⟩ := forall₂_exists_of_mem each hb
  obtain ⟨main, -, mainInstalls⟩ := forall₂_exists_of_mem each hc
  obtain ⟨-, up, named, above⟩ := pixelInstalls.superclass _ bsuper
  have same : up = point := by
    have known := pointInstalls.named
    rw [aname, named] at known
    exact Option.some.inj known
  subst same
  obtain ⟨show_, hshow, showCode⟩ : ∃ code, pixel.lookup "show" = some code
      ∧ code.block = showBlock q' := pixelInstalls.lookup_own (by rw [bmethods]; rfl)
  obtain ⟨y, hy, yCode⟩ : ∃ code, up.lookup "y" = some code ∧ code.block = yBlock q :=
    pointInstalls.lookup_own (by rw [amethods]; rfl)
  obtain ⟨entry, hentry, entryCode⟩ : ∃ code, main.lookup mainSelector = some code
      ∧ code.block = keepingBlock q₀ q₁ := mainInstalls.lookup_own (by rw [cmethods]; rfl)
  have inherited : pixel.lookup "y" = up.lookup "y" :=
    pixelInstalls.lookup_inherited above (by rw [bmethods]; rfl)
  exact ⟨log, compiled, log', image, store, pixel, main, show_, y, entry, accepted, loaded,
    ⟨bname ▸ pixelInstalls.named, ⟨hshow, q', showCode⟩, ⟨inherited.trans hy, q, yCode⟩,
      cname ▸ mainInstalls.named, hentry, q₀, q₁, entryCode⟩⟩

/-- The library, points, pixels and the main body. -/
theorem pixels_load : ∃ log compiled log' image store,
    compile {} pixelProgram = (log, .ok compiled)
      ∧ Image.load (LoadClass.ofProgram compiled.classes 0).1 = (log', .ok (image, store))
      ∧ image.classes.size = Library.classes.length + 3 := by
  obtain ⟨log, compiled, accepted, -⟩ := pixelProgram_compiles
  obtain ⟨p', σ, log', image, store, -, -, hierarchy, loaded, each, -⟩ :=
    compiled_programs_load accepted
  refine ⟨log, compiled, log', image, store, accepted, loaded, ?_⟩
  have count := congrArg List.length hierarchy
  rw [List.length_map] at count
  rw [← Array.length_toList, ← each.length_eq, count]
  rfl

end Colloquy
