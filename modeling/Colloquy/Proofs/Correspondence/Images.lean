import Colloquy.Proofs.Likeness

/-!
# Images with corresponding methods

Two programs may have other code and still the same classes.  Given which methods correspond to each
other, classes are the same *up to methods* if they have the same names and fields, and
corresponding methods under every selector, inherited ones included (`Class.UpTo`).

Main statements: lookups in images that are the same up to methods find methods that correspond
(`Image.UpTo.method`, `Image.UpTo.superMethod`); loading classes that are the same up to methods
ends in the same fault or in images that are (`Image.load_upTo`).
-/

namespace Colloquy

open Primitive (Agree)

/-! ## Classes -/

/-- The definitions are the same but for methods, which correspond. -/
structure ClassInfo.UpTo (K : Code → Code → Prop) (c c' : ClassInfo) : Prop where
  id : c'.id = c.id
  name : c'.name = c.name
  fields : c'.fields = c.fields
  methods : ∀ selector : String, Option.Rel K c.methods[selector]? c'.methods[selector]?

def Class.UpTo (K : Code → Code → Prop) (c c' : Class) : Prop :=
  List.Forall₂ (ClassInfo.UpTo K) c.chain c'.chain

/-- The classes of built-in values are the same up to methods. -/
structure KnownClasses.UpTo (K : Code → Code → Prop) (k k' : KnownClasses) : Prop where
  undefinedObject : k.undefinedObject.UpTo K k'.undefinedObject
  boolean : k.boolean.UpTo K k'.boolean
  integer : k.integer.UpTo K k'.integer
  float : k.float.UpTo K k'.float
  character : k.character.UpTo K k'.character
  string : k.string.UpTo K k'.string
  array : k.array.UpTo K k'.array
  block : k.block.UpTo K k'.block

/-- Maps from names to classes that are the same up to methods. -/
def ClassesUpTo (K : Code → Code → Prop) (byName byName' : Std.HashMap String Class) : Prop :=
  ∀ name : String, Option.Rel (Class.UpTo K) byName[name]? byName'[name]?

namespace Class.UpTo

variable {K : Code → Code → Prop} {c c' : Class}

theorem info (h : c.UpTo K c') : c.info.UpTo K c'.info := (List.forall₂_cons.1 h).1

theorem numFields (h : c.UpTo K c') : c'.numFields = c.numFields := by
  unfold Class.UpTo at h
  unfold Class.numFields
  generalize c.chain = chain at h
  generalize c'.chain = chain' at h
  induction h with
  | nil => rfl
  | cons info _ ih => rw [List.foldr_cons, List.foldr_cons, ih, info.fields]

theorem superclass? (h : c.UpTo K c') :
    Option.Rel (Class.UpTo K) c.superclass? c'.superclass? := by
  obtain ⟨info, above⟩ := c
  obtain ⟨info', above'⟩ := c'
  have rest : List.Forall₂ (ClassInfo.UpTo K) above above' := (List.forall₂_cons.1 h).2
  cases rest with
  | nil => exact .none
  | cons first later => exact .some (.cons first later)

/-- **Looking a selector up** finds methods that correspond. -/
theorem lookup (h : c.UpTo K c') (selector : String) :
    Option.Rel K (c.lookup selector) (c'.lookup selector) := by
  unfold Class.UpTo at h
  unfold Class.lookup
  generalize c.chain = chain at h
  generalize c'.chain = chain' at h
  induction h with
  | nil => exact .none
  | @cons info info' _ _ first _ ih =>
    have found := first.methods selector
    rw [List.findSome?_cons, List.findSome?_cons]
    generalize info.methods[selector]? = o at found
    generalize info'.methods[selector]? = o' at found
    cases found with
    | none => exact ih
    | some code => exact .some code

end Class.UpTo

/-! ## Images -/

/-- Values may differ in methods that correspond, and in what primitives do not see. -/
structure Likeness.Linked (L : Likeness) : Prop where
  classes : L.classes = Class.UpTo L.codes
  classSide : ∀ {c c' : Code}, L.codes c c' → c'.block.classSide = c.block.classSide
  made : ∀ n, L.ids (.made n) (.made n)
  ids : ∀ {a a' b b' : StringId}, L.ids a a' → L.ids b b' → (a' = b' ↔ a = b)
  serial : ∀ {R : Ref → Prop} {c c' : Closure Value}, L.closures R c c' → c'.serial = c.serial
  mono : ∀ {R R' : Ref → Prop} {c c' : Closure Value}, (∀ r, R r → R' r) →
    L.closures R c c' → L.closures R' c c'

structure Image.UpTo (L : Likeness) (i i' : Image) : Prop where
  classes : List.Forall₂ (Class.UpTo L.codes) i.classes.toList i'.classes.toList
  byName : ClassesUpTo L.codes i.byName i'.byName
  known : i.known.UpTo L.codes i'.known
  transcript : i.transcript.Like L (fun _ => True) i'.transcript

namespace Image.UpTo

variable {L : Likeness} {i i' : Image} {v v' : Value} {R : Ref → Prop}

/-- **What primitives see** is the same. -/
theorem fair (h : i.UpTo L i') (linked : L.Linked) : L.Fair i i' where
  made := linked.made
  ids := linked.ids
  known hv := by
    rw [linked.classes]
    cases hv with
    | nil => exact h.known.undefinedObject
    | bool b => exact h.known.boolean
    | int n => exact h.known.integer
    | float x => exact h.known.float
    | char c => exact h.known.character
    | string same text => exact h.known.string
    | array row => exact h.known.array
    | object same row => exact linked.classes ▸ same
    | cls same => exact linked.classes ▸ same
    | block same => exact h.known.block
  id hc := (linked.classes ▸ hc : Class.UpTo _ _ _).info.id
  name hc := (linked.classes ▸ hc : Class.UpTo _ _ _).info.name
  numFields hc := (linked.classes ▸ hc : Class.UpTo _ _ _).numFields
  serial := linked.serial
  mono := linked.mono

section Lookups

variable (h : i.UpTo L i') (linked : L.Linked)
include h linked

theorem methodFrom {start start' : Class} (hs : start.UpTo L.codes start') (whom : String)
    (hv : v.Like L R v') (selector : String) :
    Agree L.codes (i.methodFrom start whom v selector) (i'.methodFrom start' whom v' selector) := by
  have found := hs.lookup selector
  unfold Image.methodFrom
  rw [hv.isClass_eq, hv.className_eq (h.fair linked)]
  generalize start.lookup selector = o at found
  generalize start'.lookup selector = o' at found
  cases found with
  | none => rfl
  | some code =>
    dsimp only
    rw [linked.classSide code]
    split
    · rfl
    · split
      · rfl
      · exact code

/-- **An ordinary send** finds methods that correspond. -/
theorem method (hv : v.Like L R v') (selector : String) :
    Agree L.codes (i.method v selector) (i'.method v' selector) := by
  unfold Image.method
  rw [hv.className_eq (h.fair linked)]
  exact h.methodFrom linked (linked.classes ▸ (h.fair linked).known hv) _ hv selector

omit linked in
theorem owner? {c c' : Code} (owner : c'.owner = c.owner) :
    Option.Rel (Class.UpTo L.codes) (i.owner? c) (i'.owner? c') := by
  unfold Image.owner?
  rw [owner]
  cases c.owner with
  | none => exact .none
  | some k =>
    have entry := forall₂_getElem? h.classes k
    rwa [Array.getElem?_toList, Array.getElem?_toList] at entry

/-- **A `super` send** in code of one class finds methods that correspond. -/
theorem superMethod {c c' : Code} (owner : c'.owner = c.owner) (hv : v.Like L R v')
    (selector : String) :
    Agree L.codes (i.superMethod c v selector) (i'.superMethod c' v' selector) := by
  have owner := h.owner? owner
  unfold Image.superMethod
  generalize i.owner? c = o at owner
  generalize i'.owner? c' = o' at owner
  cases owner with
  | none => rfl
  | @some cls cls' same =>
    have above := same.superclass?
    dsimp only
    generalize cls.superclass? = o at above
    generalize cls'.superclass? = o' at above
    cases above with
    | none => exact congrArg (Cause.noSuperclass · selector) same.info.name
    | some up =>
      dsimp only
      rw [hv.className_eq (h.fair linked)]
      exact h.methodFrom linked up _ hv selector

theorem lookup (name : String) :
    Option.Rel (Value.Like L fun _ => True) (i.lookup name) (i'.lookup name) := by
  unfold Image.lookup
  split
  · exact .some .nil
  · split
    · exact .some h.transcript
    · have found := h.byName name
      generalize i.byName[name]? = o at found
      generalize i'.byName[name]? = o' at found
      cases found with
      | none => exact .none
      | some same => exact .some (.cls (linked.classes ▸ same))

end Lookups

end Image.UpTo

/-! ## Loading -/

/-- Methods with one number and one name, which correspond whatever class they come to belong to. -/
structure MethodUpTo (K : Code → Code → Prop) (p p' : Nat × Block) : Prop where
  number : p'.1 = p.1
  name : p'.2.name = p.2.name
  code : ∀ owner, K ⟨p.2, { method := p.1 }, some owner⟩ ⟨p'.2, { method := p'.1 }, some owner⟩

/-- The classes to be loaded are the same but for methods, which correspond. -/
structure LoadClass.UpTo (K : Code → Code → Prop) (c c' : LoadClass) : Prop where
  name : c'.name = c.name
  superclass : c'.superclass = c.superclass
  fields : c'.fields = c.fields
  methods : List.Forall₂ (MethodUpTo K) c.methods c'.methods

namespace Image

structure Loader.UpTo (K : Code → Code → Prop) (l l' : Loader) : Prop where
  classes : List.Forall₂ (Class.UpTo K) l.classes.toList l'.classes.toList
  byName : ClassesUpTo K l.byName l'.byName
  owners : l'.owners = l.owners

/-- Corresponding entries are added to maps that correspond. -/
theorem rel_insert {α : Type} {T : α → α → Prop} {m m' : Std.HashMap String α} {a a' : α}
    (h : ∀ k : String, Option.Rel T m[k]? m'[k]?) (key : String) (ha : T a a') (k : String) :
    Option.Rel T (m.insert key a)[k]? (m'.insert key a')[k]? := by
  rw [Std.HashMap.getElem?_insert, Std.HashMap.getElem?_insert]
  split
  · exact .some ha
  · exact h k

variable {K : Code → Code → Prop} {l l' : Loader}

theorem linkAll_upTo (cls : ClassId) (owners : Std.HashMap Nat ClassId) (log log' : Log)
    {ps ps' : List (Nat × Block)} (h : List.Forall₂ (MethodUpTo K) ps ps')
    {table table' : Std.HashMap String Code}
    (ht : ∀ selector : String, Option.Rel K table[selector]? table'[selector]?) :
    (∀ selector : String, Option.Rel K (linkAll cls ps table owners log).1[selector]?
        (linkAll cls ps' table' owners log').1[selector]?)
      ∧ (linkAll cls ps' table' owners log').2.1 = (linkAll cls ps table owners log).2.1 := by
  induction h generalizing table table' owners log log' with
  | nil => exact ⟨ht, rfl⟩
  | @cons p p' ps ps' first rest ih =>
    obtain ⟨_, block⟩ := p
    obtain ⟨number, block'⟩ := p'
    obtain ⟨rfl, name, code⟩ := first
    have name : block'.name = block.name := name
    simp only [linkAll, link, name]
    cases owners[number]? with
    | none => exact ih _ _ _ (rel_insert ht _ (code cls))
    | some owner => exact ih _ _ _ (rel_insert ht _ (code owner))

theorem inherited_upTo (h : l.UpTo K l') {c c' : LoadClass} (hc : c.UpTo K c') :
    Agree (List.Forall₂ (ClassInfo.UpTo K)) (inherited l.byName c) (inherited l'.byName c') := by
  unfold inherited
  rw [hc.superclass, hc.name]
  cases c.superclass with
  | none => exact .nil
  | some name =>
    have found := h.byName name
    dsimp only
    generalize l.byName[name]? = o at found
    generalize l'.byName[name]? = o' at found
    cases found with
    | none => rfl
    | some cls => exact cls

theorem install_upTo (h : l.UpTo K l') {c c' : LoadClass} (hc : c.UpTo K c') :
    Agree (Loader.UpTo K) (install l c) (install l' c') := by
  have above := inherited_upTo h hc
  have count : l'.classes.size = l.classes.size := by simpa using h.classes.length_eq.symm
  unfold install
  generalize inherited l.byName c = r at above
  generalize inherited l'.byName c' = r' at above
  rcases above.cases with ⟨infos, infos', rfl, rfl, inherits⟩ | ⟨e, rfl, rfl⟩
  · dsimp only
    rw [hc.name, h.owners, count]
    have none : ∀ selector : String, Option.Rel K
        (∅ : Std.HashMap String Code)[selector]? (∅ : Std.HashMap String Code)[selector]? := by
      simp
    obtain ⟨table, owners⟩ :=
      linkAll_upTo l.classes.size l.owners l.log l'.log hc.methods none
    have cls : Class.UpTo K ⟨⟨l.classes.size, c.name, c.fields, _⟩, infos⟩
        ⟨⟨l.classes.size, c.name, c'.fields, _⟩, infos'⟩ :=
      .cons ⟨rfl, rfl, hc.fields, table⟩ inherits
    refine ⟨?_, rel_insert h.byName _ cls, owners⟩
    rw [Array.toList_push, Array.toList_push]
    exact List.rel_append h.classes (.cons cls .nil)
  · exact rfl

theorem installAll_upTo {cs cs' : List LoadClass} (hcs : List.Forall₂ (LoadClass.UpTo K) cs cs')
    (h : l.UpTo K l') : Agree (Loader.UpTo K) (installAll cs l).2 (installAll cs' l').2 := by
  induction hcs generalizing l l' with
  | nil => exact h
  | @cons c c' _ _ first _ ih =>
    have installed := install_upTo h first
    rw [installAll, installAll]
    generalize install l c = r at installed
    generalize install l' c' = r' at installed
    rcases installed.cases with ⟨l, l', rfl, rfl, same⟩ | ⟨e, rfl, rfl⟩
    · exact ih same
    · exact rfl

theorem required_upTo {byName byName' : Std.HashMap String Class}
    (h : ClassesUpTo K byName byName') (name : String) :
    Agree (Class.UpTo K) (required byName name) (required byName' name) := by
  have found := h name
  unfold required
  generalize byName[name]? = o at found
  generalize byName'[name]? = o' at found
  cases found with
  | none => rfl
  | some cls => exact cls

theorem knownClasses_upTo {byName byName' : Std.HashMap String Class}
    (h : ClassesUpTo K byName byName') :
    Agree (KnownClasses.UpTo K) (knownClasses byName) (knownClasses byName') :=
  (required_upTo h _).bind fun _ _ h₁ => (required_upTo h _).bind fun _ _ h₂ =>
  (required_upTo h _).bind fun _ _ h₃ => (required_upTo h _).bind fun _ _ h₄ =>
  (required_upTo h _).bind fun _ _ h₅ => (required_upTo h _).bind fun _ _ h₆ =>
  (required_upTo h _).bind fun _ _ h₇ => (required_upTo h _).bind fun _ _ h₈ =>
  ⟨h₁, h₂, h₃, h₄, h₅, h₆, h₇, h₈⟩

/-- The image with the store that it starts with. -/
structure LoadedUpTo (L : Likeness) (r r' : Image × Store) : Prop where
  image : r.1.UpTo L r'.1
  store : r.2.Like L (fun _ => True) r'.2

variable {L : Likeness}

theorem finish_upTo (linked : L.Linked) (h : l.UpTo L.codes l') :
    Agree (LoadedUpTo L) (finish l) (finish l') := by
  refine (knownClasses_upTo h.byName).bind fun known known' hknown =>
    (required_upTo h.byName _).bind fun cls cls' hcls => ?_
  have image (v v' : Value) (hv : v.Like L (fun _ => True) v') :
      Image.UpTo L ⟨l.classes, l.byName, known, v⟩ ⟨l'.classes, l'.byName, known', v'⟩ :=
    ⟨h.classes, h.byName, hknown, hv⟩
  have empty : Store.Like L (fun _ => True) {} {} := ⟨rfl, fun r _ => by simp [Store.row]⟩
  obtain ⟨store, value⟩ :=
    instantiate_like ((image _ _ .nil).fair linked) empty (linked.classes ▸ hcls)
  rw [Store.grown_true] at store value
  exact ⟨image _ _ value, store⟩

/-- **Loading classes that are the same up to methods** ends in the same fault or in images that
are. -/
theorem load_upTo (linked : L.Linked) {cs cs' : List LoadClass}
    (h : List.Forall₂ (LoadClass.UpTo L.codes) cs cs') :
    Agree (LoadedUpTo L) (load cs).2 (load cs').2 := by
  have empty : Loader.UpTo L.codes {} {} := ⟨.nil, fun name => by simp, rfl⟩
  have installed := installAll_upTo h empty
  unfold load
  generalize installAll cs {} = r at installed
  generalize installAll cs' {} = r' at installed
  obtain ⟨log, r⟩ := r
  obtain ⟨log', r'⟩ := r'
  dsimp only at installed
  rcases installed.cases with ⟨l, l', rfl, rfl, same⟩ | ⟨e, rfl, rfl⟩
  · exact finish_upTo linked same
  · exact rfl

end Image

end Colloquy
