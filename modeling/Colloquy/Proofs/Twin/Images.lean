import Mathlib.Data.List.Nodup
import Colloquy.Proofs.Correspondence.Images
import Colloquy.Proofs.Twin.Blocks

/-!
# Images with and without source positions

The methods of a loaded program have numbers, and the blocks nested in a method have paths, so that
loaded code is known by its identity (`codeAt`).  Given the methods `ms` and their twins `ms'`, two
pieces of code are twins if they have one identity.  Classes, closures and values are twins if they
are the same but for code; strings may be literals with other numbers, as long as they are one
literal of one block.

Main statements: what a primitive can see of twins is the same (`Image.Twin.lawful`); loading what
was compiled with source positions and without them ends in the same fault or in twins
(`CompiledProgram.load_twin`).
-/

namespace Colloquy

open Primitive (Agree)

/-! ## Code by its identity -/

/-- The block at the end of a path through the tables of nested blocks, innermost step first. -/
def blockAt (ms : List Block) (number : Nat) : (path : List Nat) → Option Block
  | [] => ms[number]?
  | i :: path => (blockAt ms number path).bind (·.blocks[i]?)

/-- The block with a given identity, where `ms` are the methods by number. -/
def codeAt (ms : List Block) (id : BlockId) : Option Block := blockAt ms id.method id.path

/-- The pieces of code have the same identity and belong to the same class. -/
structure Code.Twin (ms ms' : List Block) (c c' : Code) : Prop where
  id : c'.id = c.id
  owner : c'.owner = c.owner
  here : codeAt ms c.id = some c.block
  here' : codeAt ms' c.id = some c'.block

/-- The strings are one string made while running, or one literal of one block. -/
inductive StringId.Twin (ms ms' : List Block) : StringId → StringId → Prop where
  | made (serial : Nat) : Twin ms ms' (.made serial) (.made serial)
  | literal {id : BlockId} {b b' : Block} {k k' : Nat} {text : String}
      (here : codeAt ms id = some b) (here' : codeAt ms' id = some b')
      (entry : b.literals[k]? = some text) (entry' : b'.literals[k']? = some text) :
      Twin ms ms' (.literal id k) (.literal id k')

/-- The definitions are the same but for methods, which are twins. -/
structure ClassInfo.Twin (ms ms' : List Block) (c c' : ClassInfo) : Prop where
  id : c'.id = c.id
  name : c'.name = c.name
  fields : c'.fields = c.fields
  methods : ∀ selector : String,
    Option.Rel (Code.Twin ms ms') c.methods[selector]? c'.methods[selector]?

def Class.Twin (ms ms' : List Block) (c c' : Class) : Prop :=
  List.Forall₂ (ClassInfo.Twin ms ms') c.chain c'.chain

/-- The closures were made at the same time by the same frame. -/
inductive Closure.Twin (ms ms' : List Block) : Closure Value → Closure Value → Prop where
  | mk {c c' : Closure Value} (serial : c'.serial = c.serial) (code : c.code.Twin ms ms' c'.code)
      (enclosing : c'.enclosing = c.enclosing) (home : c'.home = c.home)
      (receiver : c.receiver.Like
        ⟨StringId.Twin ms ms', Class.Twin ms ms', Code.Twin ms ms', fun _ => Twin ms ms'⟩
        (fun _ => True) c'.receiver) :
      Twin ms ms' c c'

/-- Values are alike if they differ in code only. -/
def Likeness.twin (ms ms' : List Block) : Likeness where
  ids := StringId.Twin ms ms'
  classes := Class.Twin ms ms'
  codes := Code.Twin ms ms'
  closures _ := Closure.Twin ms ms'

/-- The values are the same but for code. -/
abbrev Value.Twin (ms ms' : List Block) : Value → Value → Prop :=
  Value.Like (.twin ms ms') fun _ => True

/-- The classes of built-in values are twins. -/
structure KnownClasses.Twin (ms ms' : List Block) (k k' : KnownClasses) : Prop where
  undefinedObject : k.undefinedObject.Twin ms ms' k'.undefinedObject
  boolean : k.boolean.Twin ms ms' k'.boolean
  integer : k.integer.Twin ms ms' k'.integer
  float : k.float.Twin ms ms' k'.float
  character : k.character.Twin ms ms' k'.character
  string : k.string.Twin ms ms' k'.string
  array : k.array.Twin ms ms' k'.array
  block : k.block.Twin ms ms' k'.block

/-- Maps from names to classes that are twins. -/
def ClassesTwin (ms ms' : List Block) (byName byName' : Std.HashMap String Class) : Prop :=
  ∀ name : String, Option.Rel (Class.Twin ms ms') byName[name]? byName'[name]?

structure Image.Twin (ms ms' : List Block) (i i' : Image) : Prop where
  methods : List.Forall₂ Block.OuterTwin ms ms'
  classes : List.Forall₂ (Class.Twin ms ms') i.classes.toList i'.classes.toList
  byName : ClassesTwin ms ms' i.byName i'.byName
  known : i.known.Twin ms ms' i'.known
  transcript : i.transcript.Twin ms ms' i'.transcript

variable {ms ms' : List Block} {i i' : Image} {c c' : Code}

theorem Block.InnerTwin.outer {b b' : Block} (h : b.InnerTwin b') : b.OuterTwin b' := by
  refine ⟨h.twin, ?_⟩
  rw [h.blocks, h.blocks']
  exact .nil

/-- **The blocks with one identity are twins.** -/
theorem codeAt_twin (methods : List.Forall₂ Block.OuterTwin ms ms') (id : BlockId) :
    Option.Rel Block.OuterTwin (codeAt ms id) (codeAt ms' id) := by
  obtain ⟨number, path⟩ := id
  rw [codeAt, codeAt]
  dsimp only
  induction path with
  | nil => exact forall₂_getElem? methods number
  | cons k path ih =>
    rw [blockAt, blockAt]
    generalize blockAt ms number path = o at ih
    generalize blockAt ms' number path = o' at ih
    cases ih with
    | none => exact .none
    | @some b b' twin =>
      have entry := forall₂_getElem? twin.nested k
      rw [Array.getElem?_toList, Array.getElem?_toList] at entry
      simp only [Option.bind_some]
      generalize b.blocks[k]? = o at entry
      generalize b'.blocks[k]? = o' at entry
      cases entry with
      | none => exact .none
      | some inner => exact .some inner.outer

namespace Code.Twin

theorem block (methods : List.Forall₂ Block.OuterTwin ms ms') (h : c.Twin ms ms' c') :
    c.block.Twin c'.block := by
  have twin := codeAt_twin methods c.id
  rw [h.here, h.here'] at twin
  cases twin with
  | some outer => exact outer.twin

theorem nested? (methods : List.Forall₂ Block.OuterTwin ms ms') (h : c.Twin ms ms' c') (k : Nat) :
    Option.Rel (Code.Twin ms ms') (c.nested? k) (c'.nested? k) := by
  have here : codeAt ms ⟨c.id.method, k :: c.id.path⟩ = c.block.blocks[k]? :=
    congrArg (fun o : Option Block => o.bind (·.blocks[k]?)) h.here
  have here' : codeAt ms' ⟨c.id.method, k :: c.id.path⟩ = c'.block.blocks[k]? :=
    congrArg (fun o : Option Block => o.bind (·.blocks[k]?)) h.here'
  have twin := codeAt_twin methods ⟨c.id.method, k :: c.id.path⟩
  rw [here, here'] at twin
  simp only [Code.nested?, h.id, h.owner]
  generalize c.block.blocks[k]? = o at twin here
  generalize c'.block.blocks[k]? = o' at twin here'
  cases twin with
  | none => exact .none
  | some _ => exact .some ⟨rfl, rfl, here, here'⟩

end Code.Twin

/-! ## What can be seen of twins -/

/-- A string has one number in a pool. -/
theorem number_inj {lits : Array String} {k l : Nat} {s t : String} (h : lits.toList.Nodup)
    (hk : lits[k]? = some s) (hl : lits[l]? = some t) : k = l ↔ s = t := by
  obtain ⟨_, rfl⟩ := Array.getElem?_eq_some_iff.1 hk
  obtain ⟨_, rfl⟩ := Array.getElem?_eq_some_iff.1 hl
  rw [← Array.getElem_toList, ← Array.getElem_toList]
  exact h.getElem_inj_iff.symm

theorem StringId.Twin.eq_iff (methods : List.Forall₂ Block.OuterTwin ms ms') {a a' b b' : StringId}
    (ha : a.Twin ms ms' a') (hb : b.Twin ms ms' b') : a' = b' ↔ a = b := by
  cases ha with
  | made n =>
    cases hb with
    | made k => exact Iff.rfl
    | literal here here' entry entry' => simp
  | @literal id d d' k k' text here here' entry entry' =>
    cases hb with
    | made n => simp
    | @literal id₂ e e' l l' text₂ here₂ here₂' entry₂ entry₂' =>
      simp only [StringId.literal.injEq]
      refine and_congr_right fun same => ?_
      subst same
      cases here.symm.trans here₂
      cases here'.symm.trans here₂'
      have twin := codeAt_twin methods id
      rw [here, here'] at twin
      cases twin with
      | some outer =>
        rw [number_inj outer.twin.distinct entry entry₂,
          number_inj outer.twin.distinct' entry' entry₂']

namespace Class.Twin

variable {c c' : Class}

theorem info (h : c.Twin ms ms' c') : c.info.Twin ms ms' c'.info := (List.forall₂_cons.1 h).1

theorem numFields (h : c.Twin ms ms' c') : c'.numFields = c.numFields := by
  unfold Class.Twin at h
  unfold Class.numFields
  generalize c.chain = chain at h
  generalize c'.chain = chain' at h
  induction h with
  | nil => rfl
  | cons info _ ih => rw [List.foldr_cons, List.foldr_cons, ih, info.fields]

theorem superclass? (h : c.Twin ms ms' c') :
    Option.Rel (Class.Twin ms ms') c.superclass? c'.superclass? := by
  obtain ⟨info, above⟩ := c
  obtain ⟨info', above'⟩ := c'
  have rest : List.Forall₂ (ClassInfo.Twin ms ms') above above' := (List.forall₂_cons.1 h).2
  cases rest with
  | nil => exact .none
  | cons first later => exact .some (.cons first later)

/-- **Looking a selector up in twins** finds twins. -/
theorem lookup (h : c.Twin ms ms' c') (selector : String) :
    Option.Rel (Code.Twin ms ms') (c.lookup selector) (c'.lookup selector) := by
  unfold Class.Twin at h
  unfold Class.lookup
  generalize c.chain = chain at h
  generalize c'.chain = chain' at h
  induction h with
  | nil => exact .none
  | @cons info info' _ _ first _ ih =>
    have found := first.methods selector
    rw [List.findSome?_cons, List.findSome?_cons]
    generalize info.methods[selector]? = o at found
    generalize info'.methods[selector]? = o' at found
    cases found with
    | none => exact ih
    | some code => exact .some code

end Class.Twin

namespace Image.Twin

/-- **What primitives see of twins is the same.** -/
theorem lawful (h : i.Twin ms ms' i') : (Likeness.twin ms ms').Lawful i i' where
  made n := .made n
  ids ha hb := ha.eq_iff h.methods hb
  known hv := by
    cases hv with
    | nil => exact h.known.undefinedObject
    | bool b => exact h.known.boolean
    | int n => exact h.known.integer
    | float x => exact h.known.float
    | char c => exact h.known.character
    | string same text => exact h.known.string
    | array row => exact h.known.array
    | object same row => exact same
    | cls same => exact same
    | block same => exact h.known.block
  id hc := (Class.Twin.info hc).id
  name hc := (Class.Twin.info hc).name
  numFields hc := Class.Twin.numFields hc
  head hc := (Code.Twin.block h.methods hc).head
  serial hc := by
    cases hc with
    | mk serial code enclosing home receiver => exact serial
  code hc := by
    cases hc with
    | mk serial code enclosing home receiver => exact code
  mono _ hc := hc

variable {v v' : Value}

theorem methodFrom (h : i.Twin ms ms' i') {start start' : Class} (hs : start.Twin ms ms' start')
    (whom : String) (hv : v.Twin ms ms' v') (selector : String) :
    Agree (Code.Twin ms ms') (i.methodFrom start whom v selector)
      (i'.methodFrom start' whom v' selector) := by
  have found := hs.lookup selector
  unfold Image.methodFrom
  rw [hv.isClass_eq, hv.className_eq h.lawful.fair]
  generalize start.lookup selector = o at found
  generalize start'.lookup selector = o' at found
  cases found with
  | none => rfl
  | some code =>
    dsimp only
    rw [(code.block h.methods).head.classSide]
    split
    · rfl
    · split
      · rfl
      · exact code

theorem method (h : i.Twin ms ms' i') (hv : v.Twin ms ms' v') (selector : String) :
    Agree (Code.Twin ms ms') (i.method v selector) (i'.method v' selector) := by
  unfold Image.method
  rw [hv.className_eq h.lawful.fair]
  exact h.methodFrom (h.lawful.known hv) _ hv selector

theorem owner? (h : i.Twin ms ms' i') (hc : c.Twin ms ms' c') :
    Option.Rel (Class.Twin ms ms') (i.owner? c) (i'.owner? c') := by
  unfold Image.owner?
  rw [hc.owner]
  cases c.owner with
  | none => exact .none
  | some k =>
    have entry := forall₂_getElem? h.classes k
    rwa [Array.getElem?_toList, Array.getElem?_toList] at entry

theorem superMethod (h : i.Twin ms ms' i') (hc : c.Twin ms ms' c') (hv : v.Twin ms ms' v')
    (selector : String) :
    Agree (Code.Twin ms ms') (i.superMethod c v selector) (i'.superMethod c' v' selector) := by
  have owner := h.owner? hc
  unfold Image.superMethod
  generalize i.owner? c = o at owner
  generalize i'.owner? c' = o' at owner
  cases owner with
  | none => rfl
  | @some cls cls' twin =>
    have above := twin.superclass?
    dsimp only
    generalize cls.superclass? = o at above
    generalize cls'.superclass? = o' at above
    cases above with
    | none => exact congrArg (Cause.noSuperclass · selector) twin.info.name
    | some twin =>
      dsimp only
      rw [hv.className_eq h.lawful.fair]
      exact h.methodFrom twin _ hv selector

theorem lookup (h : i.Twin ms ms' i') (name : String) :
    Option.Rel (Value.Twin ms ms') (i.lookup name) (i'.lookup name) := by
  unfold Image.lookup
  split
  · exact .some .nil
  · split
    · exact .some h.transcript
    · have found := h.byName name
      generalize i.byName[name]? = o at found
      generalize i'.byName[name]? = o' at found
      cases found with
      | none => exact .none
      | some cls => exact .some (.cls cls)

end Image.Twin

/-! ## Loading -/

/-- The method is known by its number. -/
structure MethodTwin (ms ms' : List Block) (p p' : Nat × Block) : Prop where
  number : p'.1 = p.1
  here : ms[p.1]? = some p.2
  here' : ms'[p.1]? = some p'.2

/-- The classes to be loaded are the same but for methods, which are twins. -/
structure LoadClass.Twin (ms ms' : List Block) (c c' : LoadClass) : Prop where
  name : c'.name = c.name
  superclass : c'.superclass = c.superclass
  fields : c'.fields = c.fields
  methods : List.Forall₂ (MethodTwin ms ms') c.methods c'.methods

namespace Image

structure Loader.Twin (ms ms' : List Block) (l l' : Loader) : Prop where
  classes : List.Forall₂ (Class.Twin ms ms') l.classes.toList l'.classes.toList
  byName : ClassesTwin ms ms' l.byName l'.byName
  owners : l'.owners = l.owners

variable {l l' : Loader}

theorem linkAll_twin (methods : List.Forall₂ Block.OuterTwin ms ms') (cls : ClassId)
    (owners : Std.HashMap Nat ClassId) (log log' : Log) {ps ps' : List (Nat × Block)}
    (h : List.Forall₂ (MethodTwin ms ms') ps ps') {table table' : Std.HashMap String Code}
    (ht : ∀ selector : String, Option.Rel (Code.Twin ms ms') table[selector]? table'[selector]?) :
    (∀ selector : String, Option.Rel (Code.Twin ms ms')
        (linkAll cls ps table owners log).1[selector]?
        (linkAll cls ps' table' owners log').1[selector]?)
      ∧ (linkAll cls ps' table' owners log').2.1 = (linkAll cls ps table owners log).2.1 := by
  induction h generalizing table table' owners log log' with
  | nil => exact ⟨ht, rfl⟩
  | @cons p p' ps ps' first rest ih =>
    obtain ⟨_, block⟩ := p
    obtain ⟨number, block'⟩ := p'
    obtain ⟨rfl, here, here'⟩ := first
    have code (owner : ClassId) :
        Code.Twin ms ms' ⟨block, { method := number }, some owner⟩
          ⟨block', { method := number }, some owner⟩ := ⟨rfl, rfl, here, here'⟩
    have name : block'.name = block.name := ((code cls).block methods).head.name
    simp only [linkAll, link, name]
    cases owners[number]? with
    | none => exact ih _ _ _ (rel_insert ht _ (code cls))
    | some owner => exact ih _ _ _ (rel_insert ht _ (code owner))

theorem inherited_twin (h : l.Twin ms ms' l') {c c' : LoadClass} (hc : c.Twin ms ms' c') :
    Agree (List.Forall₂ (ClassInfo.Twin ms ms')) (inherited l.byName c)
      (inherited l'.byName c') := by
  unfold inherited
  rw [hc.superclass, hc.name]
  cases c.superclass with
  | none => exact .nil
  | some name =>
    have found := h.byName name
    dsimp only
    generalize l.byName[name]? = o at found
    generalize l'.byName[name]? = o' at found
    cases found with
    | none => rfl
    | some cls => exact cls

theorem install_twin (methods : List.Forall₂ Block.OuterTwin ms ms') (h : l.Twin ms ms' l')
    {c c' : LoadClass} (hc : c.Twin ms ms' c') :
    Agree (Loader.Twin ms ms') (install l c) (install l' c') := by
  have above := inherited_twin h hc
  have count : l'.classes.size = l.classes.size := by simpa using h.classes.length_eq.symm
  unfold install
  generalize inherited l.byName c = r at above
  generalize inherited l'.byName c' = r' at above
  match r, r', above with
  | .error e, .error _, rfl => rfl
  | .ok above, .ok above', inherits =>
    have inherits : List.Forall₂ (ClassInfo.Twin ms ms') above above' := inherits
    dsimp only
    rw [hc.name, h.owners, count]
    have none : ∀ selector : String, Option.Rel (Code.Twin ms ms')
        (∅ : Std.HashMap String Code)[selector]? (∅ : Std.HashMap String Code)[selector]? := by
      simp
    obtain ⟨table, owners⟩ :=
      linkAll_twin methods l.classes.size l.owners l.log l'.log hc.methods none
    have cls : Class.Twin ms ms' ⟨⟨l.classes.size, c.name, c.fields, _⟩, above⟩
        ⟨⟨l.classes.size, c.name, c'.fields, _⟩, above'⟩ :=
      .cons ⟨rfl, rfl, hc.fields, table⟩ inherits
    refine ⟨?_, rel_insert h.byName _ cls, owners⟩
    rw [Array.toList_push, Array.toList_push]
    exact List.rel_append h.classes (.cons cls .nil)

theorem installAll_twin (methods : List.Forall₂ Block.OuterTwin ms ms') {cs cs' : List LoadClass}
    (hcs : List.Forall₂ (LoadClass.Twin ms ms') cs cs') (h : l.Twin ms ms' l') :
    Agree (Loader.Twin ms ms') (installAll cs l).2 (installAll cs' l').2 := by
  induction hcs generalizing l l' with
  | nil => exact h
  | @cons c c' _ _ first _ ih =>
    have installed := install_twin methods h first
    rw [installAll, installAll]
    generalize install l c = r at installed
    generalize install l' c' = r' at installed
    rcases installed.cases with ⟨l, l', rfl, rfl, twin⟩ | ⟨e, rfl, rfl⟩
    · exact ih twin
    · exact rfl

theorem required_twin {byName byName' : Std.HashMap String Class}
    (h : ClassesTwin ms ms' byName byName') (name : String) :
    Agree (Class.Twin ms ms') (required byName name) (required byName' name) := by
  have found := h name
  unfold required
  generalize byName[name]? = o at found
  generalize byName'[name]? = o' at found
  cases found with
  | none => rfl
  | some cls => exact cls

theorem knownClasses_twin {byName byName' : Std.HashMap String Class}
    (h : ClassesTwin ms ms' byName byName') :
    Agree (KnownClasses.Twin ms ms') (knownClasses byName) (knownClasses byName') :=
  (required_twin h _).bind fun _ _ h₁ => (required_twin h _).bind fun _ _ h₂ =>
  (required_twin h _).bind fun _ _ h₃ => (required_twin h _).bind fun _ _ h₄ =>
  (required_twin h _).bind fun _ _ h₅ => (required_twin h _).bind fun _ _ h₆ =>
  (required_twin h _).bind fun _ _ h₇ => (required_twin h _).bind fun _ _ h₈ =>
  ⟨h₁, h₂, h₃, h₄, h₅, h₆, h₇, h₈⟩

/-- The image with the store that it starts with. -/
structure LoadedTwin (ms ms' : List Block) (r r' : Image × Store) : Prop where
  image : r.1.Twin ms ms' r'.1
  store : r.2.Like (.twin ms ms') (fun _ => True) r'.2

theorem finish_twin (methods : List.Forall₂ Block.OuterTwin ms ms') (h : l.Twin ms ms' l') :
    Agree (LoadedTwin ms ms') (finish l) (finish l') := by
  refine (knownClasses_twin h.byName).bind fun known known' hknown =>
    (required_twin h.byName _).bind fun cls cls' hcls => ?_
  have image (v v' : Value) (hv : v.Twin ms ms' v') :
      Image.Twin ms ms' ⟨l.classes, l.byName, known, v⟩ ⟨l'.classes, l'.byName, known', v'⟩ :=
    ⟨methods, h.classes, h.byName, hknown, hv⟩
  have empty : Store.Like (.twin ms ms') (fun _ => True) {} {} :=
    ⟨rfl, fun r _ => by simp [Store.row]⟩
  obtain ⟨store, value⟩ := instantiate_like (image _ _ .nil).lawful.fair empty hcls
  rw [Store.grown_true] at store value
  exact ⟨image _ _ value, store⟩

/-- **Loading twins** ends in the same fault or in twins. -/
theorem load_twin (methods : List.Forall₂ Block.OuterTwin ms ms') {cs cs' : List LoadClass}
    (h : List.Forall₂ (LoadClass.Twin ms ms') cs cs') :
    Agree (LoadedTwin ms ms') (load cs).2 (load cs').2 := by
  have empty : Loader.Twin ms ms' {} {} := ⟨.nil, fun name => by simp, rfl⟩
  have installed := installAll_twin methods h empty
  unfold load
  generalize installAll cs {} = r at installed
  generalize installAll cs' {} = r' at installed
  match r, r', installed with
  | (_, .error e), (_, .error _), rfl => rfl
  | (_, .ok l), (_, .ok l'), twin => exact finish_twin methods twin

end Image

/-! ## Compiled programs -/

/-- The methods of a compiled program, in the order of their numbers. -/
def CompiledProgram.methods (p : CompiledProgram) : List Block := p.classes.flatMap (·.methods)

/-- Methods get the numbers of their places. -/
theorem zipIdx_twin {bs bs' before before' after after' : List Block}
    (h : List.Forall₂ Block.OuterTwin bs bs') (count : before'.length = before.length)
    (hms : ms = before ++ (bs ++ after)) (hms' : ms' = before' ++ (bs' ++ after')) :
    List.Forall₂ (MethodTwin ms ms')
      ((bs.zipIdx before.length).map fun (b, n) => (n, b))
      ((bs'.zipIdx before.length).map fun (b, n) => (n, b)) := by
  induction h generalizing before before' with
  | nil => exact .nil
  | @cons b b' bs bs' first rest ih =>
    rw [List.zipIdx_cons, List.zipIdx_cons, List.map_cons, List.map_cons]
    refine .cons ⟨rfl, ?_, ?_⟩ ?_
    · simp [hms]
    · simp [hms', ← count]
    · have later := @ih (before ++ [b]) (before' ++ [b']) (by simp [count]) (by simp [hms])
        (by simp [hms'])
      rwa [List.length_append] at later

theorem ofProgram_twin {cs cs' : List CompiledClass} {before before' : List Block}
    (h : List.Forall₂ CompiledClass.Twin cs cs') (count : before'.length = before.length)
    (hms : ms = before ++ cs.flatMap (·.methods))
    (hms' : ms' = before' ++ cs'.flatMap (·.methods)) :
    List.Forall₂ (LoadClass.Twin ms ms') (LoadClass.ofProgram cs before.length).1
      (LoadClass.ofProgram cs' before.length).1 := by
  induction h generalizing before before' with
  | nil => exact .nil
  | @cons c c' cs cs' first rest ih =>
    rw [List.flatMap_cons] at hms hms'
    refine .cons ⟨first.name, first.superclass, first.fields, ?_⟩ ?_
    · exact zipIdx_twin first.methods count hms hms'
    · have width := first.methods.length_eq
      have later := @ih (before ++ c.methods) (before' ++ c'.methods) (by simp [count, width])
        (by simp [hms]) (by simp [hms'])
      rw [List.length_append] at later
      rwa [← width]

/-- **Loading a program that was compiled with source positions and without them.** -/
theorem CompiledProgram.load_twin {p p' : CompiledProgram}
    (h : List.Forall₂ CompiledClass.Twin p.classes p'.classes) :
    Agree (Image.LoadedTwin p.methods p'.methods)
      (Image.load (LoadClass.ofProgram p.classes 0).1).2
      (Image.load (LoadClass.ofProgram p'.classes 0).1).2 :=
  Image.load_twin (List.rel_flatMap h fun _ _ hc => hc.methods)
    (@ofProgram_twin _ _ _ _ [] [] h rfl rfl rfl)

end Colloquy
