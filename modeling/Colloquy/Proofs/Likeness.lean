import Mathlib.Data.List.Forall2
import Colloquy.Machine.Dispatch

/-!
# Values that are alike

Primitives see little of their operands: numbers, characters, truth values and texts, what the rows
of arrays hold, the names and sizes of classes, and whether two values are one object.  So two runs
may differ in the rest, which a `Likeness` relates: the identities of strings, the classes of
objects, and closures with their code.  `Value.Like L R` is the relation of such values; `R` holds
of the rows of the store that they name.

Main statements: a primitive carried out on operands that are alike gives replies that are alike
(`Primitive.apply_like`), and so does calling a method (`invoke_like`).
-/

namespace Colloquy

/-- How two values may differ.  Closures may be related through what they hold, which names rows in
a given set. -/
structure Likeness where
  ids : StringId → StringId → Prop
  classes : Class → Class → Prop
  codes : Code → Code → Prop
  closures : (Ref → Prop) → Closure Value → Closure Value → Prop

/-- The values are the same but for what `L` relates, and name rows in `R`. -/
inductive Value.Like (L : Likeness) (R : Ref → Prop) : Value → Value → Prop where
  | nil : Like L R .nil .nil
  | bool (b : Bool) : Like L R (.bool b) (.bool b)
  | int (n : Int32) : Like L R (.int n) (.int n)
  | float (x : Single) : Like L R (.float x) (.float x)
  | char (c : Char) : Like L R (.char c) (.char c)
  | string {id id' : StringId} (same : L.ids id id') (text : String) :
      Like L R (.string id text) (.string id' text)
  | array {r : Ref} (row : R r) : Like L R (.array r) (.array r)
  | object {cls cls' : Class} {r : Ref} (same : L.classes cls cls') (row : R r) :
      Like L R (.object cls r) (.object cls' r)
  | cls {c c' : Class} (same : L.classes c c') : Like L R (.cls c) (.cls c')
  | block {c c' : Closure Value} (same : L.closures R c c') : Like L R (.block c) (.block c')

/-- What code is called and how it is called. -/
structure Block.SameHead (b b' : Block) : Prop where
  name : b'.name = b.name
  qualified : b'.qualified = b.qualified
  nargs : b'.nargs = b.nargs
  nlocals : b'.nlocals = b.nlocals
  primitive : b'.primitive = b.primitive
  classSide : b'.classSide = b.classSide

/-- What primitives see is the same in the images `i` and `i'`. -/
structure Likeness.Lawful (L : Likeness) (i i' : Image) : Prop where
  made : ∀ n, L.ids (.made n) (.made n)
  ids : ∀ {a a' b b' : StringId}, L.ids a a' → L.ids b b' → (a' = b' ↔ a = b)
  known : ∀ {R : Ref → Prop} {v v' : Value}, v.Like L R v' →
    L.classes (i.classOf v) (i'.classOf v')
  id : ∀ {c c' : Class}, L.classes c c' → c'.id = c.id
  name : ∀ {c c' : Class}, L.classes c c' → c'.name = c.name
  numFields : ∀ {c c' : Class}, L.classes c c' → c'.numFields = c.numFields
  head : ∀ {c c' : Code}, L.codes c c' → c.block.SameHead c'.block
  serial : ∀ {R : Ref → Prop} {c c' : Closure Value}, L.closures R c c' → c'.serial = c.serial
  code : ∀ {R : Ref → Prop} {c c' : Closure Value}, L.closures R c c' → L.codes c.code c'.code
  mono : ∀ {R R' : Ref → Prop} {c c' : Closure Value}, (∀ r, R r → R' r) →
    L.closures R c c' → L.closures R' c c'

/-- What primitives see is the same in the images `i` and `i'`, but for what the code of closures is
called and how it is called. -/
structure Likeness.Fair (L : Likeness) (i i' : Image) : Prop where
  made : ∀ n, L.ids (.made n) (.made n)
  ids : ∀ {a a' b b' : StringId}, L.ids a a' → L.ids b b' → (a' = b' ↔ a = b)
  known : ∀ {R : Ref → Prop} {v v' : Value}, v.Like L R v' →
    L.classes (i.classOf v) (i'.classOf v')
  id : ∀ {c c' : Class}, L.classes c c' → c'.id = c.id
  name : ∀ {c c' : Class}, L.classes c c' → c'.name = c.name
  numFields : ∀ {c c' : Class}, L.classes c c' → c'.numFields = c.numFields
  serial : ∀ {R : Ref → Prop} {c c' : Closure Value}, L.closures R c c' → c'.serial = c.serial
  mono : ∀ {R R' : Ref → Prop} {c c' : Closure Value}, (∀ r, R r → R' r) →
    L.closures R c c' → L.closures R' c c'

theorem Likeness.Lawful.fair {L : Likeness} {i i' : Image} (h : L.Lawful i i') : L.Fair i i' where
  made := h.made
  ids := h.ids
  known := h.known
  id := h.id
  name := h.name
  numFields := h.numFields
  serial := h.serial
  mono := h.mono

/-- The rows that were reachable before, and those that have been made since. -/
def Store.Grown (s s' : Store) (R : Ref → Prop) (r : Ref) : Prop :=
  R r ∨ s.rows.size ≤ r ∧ r < s'.rows.size

/-- As many rows have been made, and those in `R` are alike. -/
structure Store.Like (L : Likeness) (R : Ref → Prop) (s s' : Store) : Prop where
  size : s'.rows.size = s.rows.size
  rows : ∀ r, R r → List.Forall₂ (Value.Like L R) (s.row r).toList (s'.row r).toList

/-- The memories are alike, frames and logs apart. -/
structure Memory.Like (L : Likeness) (R : Ref → Prop) (m m' : Memory) : Prop where
  store : m.store.Like L R m'.store
  serial : m'.serial = m.serial
  transcript : m'.transcript = m.transcript

/-- The callees run code that is alike on values that are alike. -/
inductive Callee.Like (L : Likeness) (R : Ref → Prop) : Callee → Callee → Prop where
  | method {code code' : Code} {receiver receiver' : Value} {args args' : List Value}
      (same : L.codes code code') (hr : receiver.Like L R receiver')
      (ha : List.Forall₂ (Value.Like L R) args args') :
      Like L R (.method code receiver args) (.method code' receiver' args')
  | block {c c' : Closure Value} {args args' : List Value} (same : L.closures R c c')
      (ha : List.Forall₂ (Value.Like L R) args args')
      (arity : args.length = c.code.block.nargs) :
      Like L R (.block c args) (.block c' args')

/-- The memory after a reply has the frames and the log of the memory before it, and may have given
out identities and rows. -/
structure Memory.Beside (m₁ m : Memory) : Prop where
  frames : m₁.frames = m.frames
  serial : m.serial ≤ m₁.serial
  logging : m₁.logging = m.logging
  log : m₁.log = m.log
  rows : m.store.rows.size ≤ m₁.store.rows.size

/-- The replies are of one kind, with values and memories that are alike; `m` and `m'` are the
memories before. -/
inductive Reply.Like (L : Likeness) (R : Ref → Prop) (m m' : Memory) : Reply → Reply → Prop where
  | answer {v v' : Value} {m₁ m₁' : Memory} (beside : m₁.Beside m) (beside' : m₁'.Beside m')
      (hm : m₁.Like L (m.store.Grown m₁.store R) m₁')
      (hv : v.Like L (m.store.Grown m₁.store R) v') : Like L R m m' (.answer v m₁) (.answer v' m₁')
  | enter {callee callee' : Callee} (hc : callee.Like L R callee') :
      Like L R m m' (.enter callee m) (.enter callee' m')
  | fault (cause : Cause) : Like L R m m' (.fault cause m) (.fault cause m')

variable {L : Likeness} {R R' : Ref → Prop} {i i' : Image} {v v' w w' receiver receiver' : Value}
  {args args' : List Value} {s s' : Store} {m m' : Memory}

theorem Value.Like.mono (fair : L.Fair i i') (hR : ∀ r, R r → R' r) (h : v.Like L R v') :
    v.Like L R' v' := by
  cases h with
  | nil => exact .nil
  | bool b => exact .bool b
  | int n => exact .int n
  | float x => exact .float x
  | char c => exact .char c
  | string same text => exact .string same text
  | array row => exact .array (hR _ row)
  | object same row => exact .object same (hR _ row)
  | cls same => exact .cls same
  | block same => exact .block (fair.mono hR same)

namespace Store

theorem grown_of_size (h : s'.rows.size = s.rows.size) : s.Grown s' R = R := by
  funext r
  simp only [Grown, h, eq_iff_iff, or_iff_left_iff_imp]
  exact fun hr => absurd hr.2 (Nat.not_lt.2 hr.1)

theorem grown_self : s.Grown s R = R := grown_of_size rfl

theorem grown_true : s.Grown s' (fun _ => True) = fun _ => True := by
  funext r
  exact eq_true (.inl trivial)

theorem size_set (s : Store) (r : Ref) (k : Nat) (v : Value) :
    (s.set r k v).rows.size = s.rows.size := by
  simp [set]

theorem size_add (s : Store) (values : Array Value) :
    (s.add values).1.rows.size = s.rows.size + 1 := by
  simp [add]

end Store

/-! ## Lists and rows -/

theorem forall₂_getElem? {α β : Type} {T : α → β → Prop} {as : List α} {bs : List β}
    (h : List.Forall₂ T as bs) (k : Nat) : Option.Rel T as[k]? bs[k]? := by
  induction h generalizing k with
  | nil => exact .none
  | cons hab _ ih => cases k with
    | zero => exact .some hab
    | succ k => exact ih k

theorem forall₂_set {α β : Type} {T : α → β → Prop} {as : List α} {bs : List β} {a : α} {b : β}
    (h : List.Forall₂ T as bs) (k : Nat) (hab : T a b) :
    List.Forall₂ T (as.set k a) (bs.set k b) := by
  induction h generalizing k with
  | nil => exact .nil
  | cons hab' hs ih => cases k with
    | zero => exact .cons hab hs
    | succ k => exact .cons hab' (ih k)

/-- Lists that are alike are alike place by place. -/
theorem Value.Like.getD (h : List.Forall₂ (Value.Like L R) args args') (k : Nat) :
    (args.getD k .nil).Like L R (args'.getD k .nil) := by
  have place := forall₂_getElem? h k
  rw [List.getD_eq_getElem?_getD, List.getD_eq_getElem?_getD]
  generalize args[k]? = o, args'[k]? = o' at place
  cases place with
  | none => exact .nil
  | some hv => exact hv

/-- Arrays of `nil` are alike. -/
theorem Value.Like.replicate (n : Nat) :
    List.Forall₂ (Value.Like L R) (Array.replicate n Value.nil).toList
      (Array.replicate n Value.nil).toList := by
  refine List.forall₂_same.2 fun v hv => ?_
  rw [Array.toList_replicate] at hv
  rw [List.eq_of_mem_replicate hv]
  exact .nil

namespace Store.Like

theorem size_row {r : Ref} (h : s.Like L R s') (hr : R r) : (s'.row r).size = (s.row r).size := by
  simpa using (h.rows r hr).length_eq.symm

theorem getD {r : Ref} (h : s.Like L R s') (hr : R r) (k : Nat) :
    ((s.row r).getD k .nil).Like L R ((s'.row r).getD k .nil) := by
  simpa [List.getD_eq_getElem?_getD, Array.getD_eq_getD_getElem?]
    using Value.Like.getD (h.rows r hr) k

theorem set {r : Ref} (h : s.Like L R s') (k : Nat) (hv : v.Like L R v') :
    (s.set r k v).Like L R (s'.set r k v') := by
  refine ⟨by rw [size_set, size_set, h.size], fun q hq => ?_⟩
  by_cases he : r = q
  · subst he
    rw [row_set_self, row_set_self, Array.toList_setIfInBounds, Array.toList_setIfInBounds]
    exact forall₂_set (h.rows r hq) k hv
  · rw [row_set_of_ne he, row_set_of_ne he]
    exact h.rows q hq

theorem add {values values' : Array Value} (fair : L.Fair i i') (h : s.Like L R s')
    (hv : List.Forall₂ (Value.Like L R) values.toList values'.toList) :
    (s.add values).1.Like L (s.Grown (s.add values).1 R) (s'.add values').1
      ∧ (s'.add values').2 = (s.add values).2
      ∧ s.Grown (s.add values).1 R (s.add values).2 := by
  have number : (s'.add values').2 = (s.add values).2 := by simp [Store.add, h.size]
  have grow : ∀ v v', Value.Like L R v v' → v.Like L (s.Grown (s.add values).1 R) v' :=
    fun _ _ hm => hm.mono fair fun _ => .inl
  have hnew : s.Grown (s.add values).1 R (s.add values).2 :=
    .inr ⟨Nat.le_refl _, by rw [size_add]; exact Nat.lt_succ_self _⟩
  refine ⟨⟨by rw [size_add, size_add, h.size], fun r hr => ?_⟩, number, hnew⟩
  by_cases he : r = (s.add values).2
  · rw [he, Store.row_add_self, ← number, Store.row_add_self]
    exact hv.imp grow
  · rw [Store.row_add_of_ne he, Store.row_add_of_ne (number ▸ he)]
    refine (h.rows r ?_).imp grow
    rcases hr with hr | hr
    · exact hr
    · rw [size_add] at hr
      exact absurd (Nat.le_antisymm (Nat.le_of_lt_succ hr.2) hr.1) he

end Store.Like

/-- A new object of a class. -/
theorem Image.instantiate_like (fair : L.Fair i i') {cls cls' : Class} (h : s.Like L R s')
    (same : L.classes cls cls') :
    (instantiate s cls).1.Like L (s.Grown (instantiate s cls).1 R) (instantiate s' cls').1
      ∧ (instantiate s cls).2.Like L (s.Grown (instantiate s cls).1 R) (instantiate s' cls').2 := by
  simp only [instantiate, fair.numFields same]
  obtain ⟨store, number, row⟩ := h.add fair (Value.Like.replicate cls.numFields)
  refine ⟨store, ?_⟩
  rw [number]
  exact .object same row

theorem Memory.Like.newArray {values values' : Array Value} (fair : L.Fair i i')
    (h : m.Like L R m') (hv : List.Forall₂ (Value.Like L R) values.toList values'.toList) :
    (m.newArray values).1.Like L (m.store.Grown (m.newArray values).1.store R)
        (m'.newArray values').1
      ∧ (m.newArray values).2.Like L (m.store.Grown (m.newArray values).1.store R)
        (m'.newArray values').2 := by
  obtain ⟨store, number, row⟩ := h.store.add fair hv
  refine ⟨⟨store, h.serial, h.transcript⟩, ?_⟩
  have same : (m'.newArray values').2 = (m.newArray values).2 := congrArg Value.array number
  rw [same]
  exact .array row

/-! ## What is seen of a value -/

namespace Value.Like

theorem isClass_eq (h : v.Like L R v') : v'.isClass = v.isClass := by cases h <;> rfl

theorem className_eq (fair : L.Fair i i') (h : v.Like L R v') :
    i'.className v' = i.className v :=
  fair.name (fair.known h)

theorem identical_eq (fair : L.Fair i i') (hv : v.Like L R v') (hw : w.Like L R w') :
    v'.identical w' = v.identical w := by
  cases hv with
  | string same =>
    cases hw with
    | string same' => simp only [identical, fair.ids same same']
    | _ => rfl
  | block same =>
    cases hw with
    | block same' => simp only [identical, fair.serial same, fair.serial same']
    | _ => rfl
  | cls same =>
    cases hw with
    | cls same' => simp only [identical, fair.id same, fair.id same']
    | _ => rfl
  | _ => cases hw <;> rfl

/-- Values that are alike are shown alike. -/
theorem renderTo_eq (fair : L.Fair i i') (hs : s.Like L R s') (depth : Nat)
    (h : v.Like L R v') : v'.renderTo s' depth = v.renderTo s depth := by
  induction depth generalizing v v' with
  | zero =>
    cases h with
    | bool b => cases b <;> rfl
    | object same => simp only [renderTo, fair.name same]
    | cls same => simp only [renderTo, Class.shown, fair.name same]
    | _ => rfl
  | succ depth ih =>
    cases h with
    | @array r row =>
      have shown : (s'.row r).toList.map (renderTo s' depth)
          = (s.row r).toList.map (renderTo s depth) := by
        have := hs.rows r row
        generalize (s.row r).toList = vs at this
        generalize (s'.row r).toList = vs' at this
        induction this with
        | nil => rfl
        | cons hv _ ih' => rw [List.map_cons, List.map_cons, ih hv, ih']
      simp only [renderTo, shown]
    | bool b => cases b <;> rfl
    | object same => simp only [renderTo, fair.name same]
    | cls same => simp only [renderTo, Class.shown, fair.name same]
    | _ => rfl

theorem render_eq (fair : L.Fair i i') (hs : s.Like L R s') (h : v.Like L R v') :
    v'.render s' = v.render s :=
  renderTo_eq fair hs _ h

end Value.Like

/-! ## Operands -/

namespace Primitive

/-- The computations end in the same fault or in values related by `T`. -/
def Agree {α β : Type} (T : α → β → Prop) : Checked α → Checked β → Prop
  | .ok a, .ok b => T a b
  | .error e, .error e' => e' = e
  | _, _ => False

theorem Agree.refl {α : Type} {T : α → α → Prop} (hT : ∀ a, T a a) (x : Checked α) :
    Agree T x x := by
  cases x with
  | ok a => exact hT a
  | error e => rfl

theorem Agree.cases {α β : Type} {T : α → β → Prop} {x : Checked α} {y : Checked β}
    (h : Agree T x y) :
    (∃ a b, x = .ok a ∧ y = .ok b ∧ T a b) ∨ ∃ e, x = .error e ∧ y = .error e := by
  cases x <;> cases y
  · exact .inr ⟨_, rfl, congrArg _ h⟩
  · exact h.elim
  · exact h.elim
  · exact .inl ⟨_, _, rfl, rfl, h⟩

theorem Agree.of_ok {α β : Type} {T : α → β → Prop} {a : α} {y : Checked β}
    (h : Agree T (.ok a) y) : ∃ b, y = .ok b ∧ T a b := by
  cases y with
  | error e => exact h.elim
  | ok b => exact ⟨b, rfl, h⟩

theorem Agree.bind {α β γ δ : Type} {T : α → β → Prop} {U : γ → δ → Prop} {x : Checked α}
    {y : Checked β} {f : α → Checked γ} {g : β → Checked δ} (h : Agree T x y)
    (hfg : ∀ a b, T a b → Agree U (f a) (g b)) : Agree U (x >>= f) (y >>= g) := by
  match x, y, h with
  | .ok a, .ok b, h => exact hfg a b h
  | .error e, .error e', h => exact h

theorem Agree.map {α β γ δ : Type} {T : α → β → Prop} {U : γ → δ → Prop} {x : Checked α}
    {y : Checked β} {f : α → γ} {g : β → δ} (h : Agree T x y)
    (hfg : ∀ a b, T a b → U (f a) (g b)) : Agree U (x.map f) (y.map g) := by
  match x, y, h with
  | .ok a, .ok b, h => exact hfg a b h
  | .error e, .error e', h => exact h

theorem agree_argument (h : List.Forall₂ (Value.Like L R) args args') (k : Nat) :
    Agree (Value.Like L R) (argument args k) (argument args' k) := by
  have rel := forall₂_getElem? h k
  unfold argument
  generalize args[k]? = o, args'[k]? = o' at rel
  cases rel with
  | none => rfl
  | some hv => exact hv

section Expect

variable (fair : L.Fair i i') (h : v.Like L R v')
include fair h

/-- Where the value is not of the type that is expected, the fault names its class. -/
theorem agree_wrongType {α β : Type} {T : α → β → Prop} (expected : String) :
    Agree T (wrongType i expected v) (wrongType i' expected v') := by
  simp only [wrongType, h.className_eq fair]
  rfl

theorem agree_expectInt : Agree Eq (expectInt i v) (expectInt i' v') := by
  have wrong := agree_wrongType fair h (T := @Eq Int32) "Integer"
  cases h <;> first | rfl | exact wrong

theorem agree_expectFloat : Agree Eq (expectFloat i v) (expectFloat i' v') := by
  have wrong := agree_wrongType fair h (T := @Eq Single) "Float"
  cases h <;> first | rfl | exact wrong

theorem agree_expectBool : Agree Eq (expectBool i v) (expectBool i' v') := by
  have wrong := agree_wrongType fair h (T := @Eq Bool) "Boolean"
  cases h <;> first | rfl | exact wrong

theorem agree_expectChar : Agree Eq (expectChar i v) (expectChar i' v') := by
  have wrong := agree_wrongType fair h (T := @Eq Char) "Character"
  cases h <;> first | rfl | exact wrong

theorem agree_expectString : Agree Eq (expectString i v) (expectString i' v') := by
  have wrong := agree_wrongType fair h (T := @Eq String) "String"
  cases h <;> first | rfl | exact wrong

theorem agree_expectClass : Agree L.classes (expectClass i v) (expectClass i' v') := by
  have wrong := agree_wrongType fair h (T := L.classes) "a class"
  cases h with
  | cls same => exact same
  | _ => exact wrong

theorem agree_expectArray :
    Agree (fun r r' => r' = r ∧ R r) (expectArray i v) (expectArray i' v') := by
  have wrong := agree_wrongType fair h (T := fun r r' => r' = r ∧ R r) "Array"
  cases h with
  | array row => exact ⟨rfl, row⟩
  | _ => exact wrong

theorem agree_expectBlock : Agree (L.closures R) (expectBlock i v) (expectBlock i' v') := by
  have wrong := agree_wrongType fair h (T := L.closures R) "BlockDescriptor"
  cases h with
  | block same => exact same
  | _ => exact wrong

end Expect

section Operands

variable (fair : L.Fair i i') (hr : receiver.Like L R receiver')
  (ha : List.Forall₂ (Value.Like L R) args args')
include fair ha

theorem agree_argumentText (hs : m.store.Like L R m'.store) :
    Agree Eq (argumentText m args) (argumentText m' args') :=
  (agree_argument ha 0).map fun _ _ hv => (hv.render_eq fair hs).symm

theorem agree_arraySizeArg : Agree Eq (arraySizeArg i args) (arraySizeArg i' args') := by
  refine (agree_argument ha 0).bind fun _ _ hv => (agree_expectInt fair hv).bind ?_
  rintro n _ rfl
  exact Agree.refl (fun _ => rfl) _

theorem agree_characterOf :
    Agree (Value.Like L R) (characterOf i args) (characterOf i' args') := by
  refine (agree_argument ha 0).bind fun _ _ hv => (agree_expectInt fair hv).bind ?_
  rintro n _ rfl
  dsimp only
  split
  · exact .char _
  · rfl

include hr

theorem agree_intOperands :
    Agree Eq (intOperands i receiver args) (intOperands i' receiver' args') := by
  refine (agree_expectInt fair hr).bind ?_
  rintro a _ rfl
  refine (agree_argument ha 0).bind fun _ _ hv => (agree_expectInt fair hv).bind ?_
  rintro b _ rfl
  rfl

theorem agree_floatOperands :
    Agree Eq (floatOperands i receiver args) (floatOperands i' receiver' args') := by
  refine (agree_expectFloat fair hr).bind ?_
  rintro a _ rfl
  refine (agree_argument ha 0).bind fun _ _ hv => (agree_expectFloat fair hv).bind ?_
  rintro b _ rfl
  rfl

theorem agree_divOperands :
    Agree Eq (divOperands i receiver args) (divOperands i' receiver' args') := by
  refine (agree_intOperands fair hr ha).bind ?_
  rintro p _ rfl
  exact Agree.refl (fun _ => rfl) _

theorem agree_sameInt :
    Agree (Value.Like L R) (sameInt i receiver args) (sameInt i' receiver' args') := by
  refine (agree_expectInt fair hr).bind ?_
  rintro a _ rfl
  refine (agree_argument ha 0).bind fun _ _ hv => ?_
  cases hv <;> exact .bool _

theorem agree_sameFloat :
    Agree (Value.Like L R) (sameFloat i receiver args) (sameFloat i' receiver' args') := by
  refine (agree_expectFloat fair hr).bind ?_
  rintro a _ rfl
  refine (agree_argument ha 0).bind fun _ _ hv => ?_
  cases hv <;> exact .bool _

theorem agree_arrayAtValue (hs : s.Like L R s') :
    Agree (Value.Like L R) (arrayAtValue i s receiver args)
      (arrayAtValue i' s' receiver' args') := by
  refine (agree_expectArray fair hr).bind ?_
  rintro r _ ⟨rfl, row⟩
  refine (agree_argument ha 0).bind fun _ _ hv => (agree_expectInt fair hv).bind ?_
  rintro n _ rfl
  rw [hs.size_row row]
  refine (Agree.refl (fun _ => rfl) (offset n _)).bind ?_
  rintro k _ rfl
  exact hs.getD row k

theorem agree_arrayPut (hs : s.Like L R s') :
    Agree (fun p p' => p'.1 = p.1 ∧ p'.2.1 = p.2.1 ∧ p.2.2.Like L R p'.2.2)
      (arrayPut i s receiver args) (arrayPut i' s' receiver' args') := by
  refine (agree_expectArray fair hr).bind ?_
  rintro r _ ⟨rfl, row⟩
  refine (agree_argument ha 0).bind fun _ _ hv => (agree_expectInt fair hv).bind ?_
  rintro n _ rfl
  refine (agree_argument ha 1).bind fun v v' hv => ?_
  rw [hs.size_row row]
  refine (Agree.refl (fun _ => rfl) (offset n _)).bind ?_
  rintro k _ rfl
  exact ⟨rfl, rfl, hv⟩

end Operands

section Blocks

variable (lawful : L.Lawful i i') (hr : receiver.Like L R receiver')
  (ha : List.Forall₂ (Value.Like L R) args args')
include lawful ha

theorem agree_matching {c c' : Closure Value} (hc : L.closures R c c') :
    Agree (Callee.Like L R) (matching c args) (matching c' args') := by
  have head := lawful.head (lawful.code hc)
  simp only [matching, head.nargs, head.qualified, ha.length_eq]
  split
  · exact .block hc ha (ha.length_eq.trans ‹_›)
  · rfl

include hr

theorem agree_blockToEnter :
    Agree (Callee.Like L R) (blockToEnter i receiver args) (blockToEnter i' receiver' args') :=
  (agree_expectBlock lawful.fair hr).bind fun _ _ hc => agree_matching lawful ha hc

theorem agree_chosenBlock :
    Agree (Callee.Like L R) (chosenBlock i receiver args) (chosenBlock i' receiver' args') := by
  refine (agree_expectBool lawful.fair hr).bind ?_
  rintro b _ rfl
  refine (agree_argument ha _).bind fun _ _ hv =>
    (agree_expectBlock lawful.fair hv).bind fun _ _ hc => ?_
  exact agree_matching lawful .nil hc

theorem agree_guardedBlock :
    Agree (Option.Rel (Callee.Like L R)) (guardedBlock i receiver args)
      (guardedBlock i' receiver' args') := by
  refine (agree_expectBool lawful.fair hr).bind ?_
  rintro b _ rfl
  refine (agree_argument ha 0).bind fun _ _ hv =>
    (agree_expectBlock lawful.fair hv).bind fun _ _ hc => ?_
  cases b with
  | false => exact .none
  | true => exact (agree_matching lawful .nil hc).bind fun _ _ hcallee => .some hcallee

end Blocks

/-! ## Replies -/

section Replies

variable (hm : m.Like L R m')
include hm

/-- Memory that has not changed is still alike. -/
theorem reply_answer (hv : v.Like L R v') : Reply.Like L R m m' (.answer v m) (.answer v' m') := by
  refine .answer ⟨rfl, Nat.le_refl _, rfl, rfl, Nat.le_refl _⟩
    ⟨rfl, Nat.le_refl _, rfl, rfl, Nat.le_refl _⟩ ?_ ?_ <;> rw [Store.grown_self] <;> assumption

theorem reply_answer_checked {x x' : Checked Value} (h : Agree (Value.Like L R) x x') :
    Reply.Like L R m m' (answer m x) (answer m' x') := by
  match x, x', h with
  | .ok v, .ok v', h => exact reply_answer hm h
  | .error e, .error _, rfl => exact .fault e

theorem reply_answerString (fair : L.Fair i i') {x x' : Checked String} (h : Agree Eq x x') :
    Reply.Like L R m m' (answerString m x) (answerString m' x') := by
  match x, x', h with
  | .ok text, .ok _, rfl =>
    refine .answer ⟨rfl, Nat.le_succ _, rfl, rfl, Nat.le_refl _⟩
      ⟨rfl, Nat.le_succ _, rfl, rfl, Nat.le_refl _⟩ ⟨?_, ?_, hm.transcript⟩ ?_
    · exact Store.grown_self.symm ▸ hm.store
    · simp only [hm.serial]
    · simp only [hm.serial]
      exact .string (fair.made _) _
  | .error e, .error _, rfl => exact .fault e

theorem reply_answerArray (fair : L.Fair i i') {x x' : Checked (Array Value)}
    (h : Agree (fun a b => List.Forall₂ (Value.Like L R) a.toList b.toList) x x') :
    Reply.Like L R m m' (answerArray m x) (answerArray m' x') := by
  match x, x', h with
  | .ok values, .ok values', h =>
    obtain ⟨memory, value⟩ := hm.newArray fair h
    have longer (s : Store) (values : Array Value) : s.rows.size ≤ (s.add values).1.rows.size := by
      rw [Store.size_add]
      exact Nat.le_succ _
    exact .answer ⟨rfl, Nat.le_refl _, rfl, rfl, longer _ _⟩
      ⟨rfl, Nat.le_refl _, rfl, rfl, longer _ _⟩ memory value
  | .error e, .error _, rfl => exact .fault e

theorem reply_answerInstance (fair : L.Fair i i') {x x' : Checked Class}
    (h : Agree L.classes x x') :
    Reply.Like L R m m' (answerInstance m x) (answerInstance m' x') := by
  match x, x', h with
  | .ok cls, .ok cls', h =>
    obtain ⟨store, value⟩ := Image.instantiate_like fair hm.store h
    have longer (s : Store) (c : Class) :
        s.rows.size ≤ (Image.instantiate s c).1.rows.size := by
      rw [Image.instantiate, Store.size_add]
      exact Nat.le_succ _
    exact .answer ⟨rfl, Nat.le_refl _, rfl, rfl, longer _ _⟩
      ⟨rfl, Nat.le_refl _, rfl, rfl, longer _ _⟩ ⟨store, hm.serial, hm.transcript⟩ value
  | .error e, .error _, rfl => exact .fault e

omit hm in
theorem reply_enter {x x' : Checked Callee} (h : Agree (Callee.Like L R) x x') :
    Reply.Like L R m m' (enter m x) (enter m' x') := by
  match x, x', h with
  | .ok callee, .ok callee', h => exact .enter h
  | .error e, .error _, rfl => exact .fault e

theorem reply_showLine {x x' : Checked String} (h : Agree Eq x x')
    (hr : receiver.Like L R receiver') :
    Reply.Like L R m m' (showLine m receiver x) (showLine m' receiver' x') := by
  match x, x', h with
  | .ok line, .ok _, rfl =>
    simp only [showLine, hm.transcript]
    cases m.transcript.write? line with
    | none => exact .fault _
    | some transcript =>
      refine .answer ⟨rfl, Nat.le_refl _, rfl, rfl, Nat.le_refl _⟩
        ⟨rfl, Nat.le_refl _, rfl, rfl, Nat.le_refl _⟩ ⟨?_, hm.serial, rfl⟩ ?_
      · exact Store.grown_self.symm ▸ hm.store
      · exact Store.grown_self.symm ▸ hr
  | .error e, .error _, rfl => exact .fault e

theorem reply_putAnswer {x x' : Checked (Ref × Nat × Value)}
    (h : Agree (fun p p' => p'.1 = p.1 ∧ p'.2.1 = p.2.1 ∧ p.2.2.Like L R p'.2.2) x x') :
    Reply.Like L R m m' (putAnswer m x) (putAnswer m' x') := by
  match x, x', h with
  | .ok (row, place, value), .ok (_, _, value'), ⟨rfl, rfl, hv⟩ =>
    have same := Store.size_set m.store row place value
    have same' := Store.size_set m'.store row place value'
    have unchanged := Store.grown_of_size (R := R) same
    refine .answer ⟨rfl, Nat.le_refl _, rfl, rfl, Nat.le_of_eq same.symm⟩
      ⟨rfl, Nat.le_refl _, rfl, rfl, Nat.le_of_eq same'.symm⟩ ⟨?_, hm.serial, hm.transcript⟩ ?_
    · exact unchanged.symm ▸ hm.store.set place hv
    · exact unchanged.symm ▸ hv
  | .error e, .error _, rfl => exact .fault e

end Replies

/-- The primitive runs a block. -/
def runsBlock : Primitive → Bool
  | booleanIfTrueIfFalse | booleanIfTrue | blockValue | blockValue1 | blockValue2 => true
  | _ => false

/-- A primitive that runs no block does the same on operands that are alike, whatever the code of
closures is called. -/
theorem apply_like_of_plain (p : Primitive) (plain : p.runsBlock = false) (fair : L.Fair i i')
    (hm : m.Like L R m') (hr : receiver.Like L R receiver')
    (ha : List.Forall₂ (Value.Like L R) args args')
    (hash : p = objectHash → receiver'.identityHash = receiver.identityHash) :
    Reply.Like L R m m' (p.apply i m receiver args) (p.apply i' m' receiver' args') := by
  cases p with
  | objectAsString =>
    have same : Agree Eq (.ok (receiver.render m.store)) (.ok (receiver'.render m'.store)) :=
      (hr.render_eq fair hm.store).symm
    exact reply_answerString hm fair same
  | objectClassName =>
    have same : Agree Eq (.ok (i.className receiver)) (.ok (i'.className receiver')) :=
      (hr.className_eq fair).symm
    exact reply_answerString hm fair same
  | objectSame =>
    refine reply_answer_checked hm ((agree_argument ha 0).map fun v v' hv => ?_)
    rw [hr.identical_eq fair hv]
    exact .bool _
  | objectHash =>
    refine reply_answer hm ?_
    rw [hash rfl]
    exact .int _
  | objectBasicNew => exact reply_answerInstance hm fair (agree_expectClass fair hr)
  | objectError =>
    refine reply_answer_checked hm ((agree_argumentText fair ha hm.store).bind ?_)
    rintro text _ rfl
    rfl
  | integerAdd | integerSub | integerMul =>
    exact reply_answer_checked hm ((agree_intOperands fair hr ha).map fun p _ he => he ▸ .int _)
  | integerDiv | integerMod =>
    exact reply_answer_checked hm ((agree_divOperands fair hr ha).map fun p _ he => he ▸ .int _)
  | integerLt | integerLe | integerGt | integerGe =>
    exact reply_answer_checked hm ((agree_intOperands fair hr ha).map fun p _ he => he ▸ .bool _)
  | integerEq => exact reply_answer_checked hm (agree_sameInt fair hr ha)
  | integerAsFloat =>
    exact reply_answer_checked hm ((agree_expectInt fair hr).map fun n _ he => he ▸ .float _)
  | floatAdd | floatSub | floatMul | floatDiv =>
    exact reply_answer_checked hm ((agree_floatOperands fair hr ha).map fun p _ he => he ▸ .float _)
  | floatLt | floatLe | floatGt | floatGe =>
    exact reply_answer_checked hm ((agree_floatOperands fair hr ha).map fun p _ he => he ▸ .bool _)
  | floatEq => exact reply_answer_checked hm (agree_sameFloat fair hr ha)
  | floatAsInteger =>
    exact reply_answer_checked hm ((agree_expectFloat fair hr).map fun x _ he => he ▸ .int _)
  | stringNew => exact reply_answerString hm fair (agree_argumentText fair ha hm.store)
  | stringCat =>
    refine reply_answerString hm fair ((agree_expectString fair hr).bind ?_)
    rintro head _ rfl
    refine (agree_argumentText fair ha hm.store).bind ?_
    rintro text _ rfl
    rfl
  | stringEq =>
    refine reply_answer_checked hm ((agree_expectString fair hr).bind ?_)
    rintro head _ rfl
    refine (agree_argumentText fair ha hm.store).bind ?_
    rintro text _ rfl
    exact .bool _
  | stringAsArray =>
    refine reply_answerArray hm fair ((agree_expectString fair hr).map ?_)
    rintro text _ rfl
    refine List.forall₂_same.2 fun v hv => ?_
    obtain ⟨c, -, rfl⟩ := List.mem_map.1 hv
    exact .char c
  | arrayNew =>
    refine reply_answerArray hm fair ((agree_arraySizeArg fair ha).map ?_)
    rintro n _ rfl
    exact Value.Like.replicate n
  | arraySize =>
    refine reply_answer_checked hm ((agree_expectArray fair hr).map ?_)
    rintro r _ ⟨rfl, row⟩
    rw [hm.store.size_row row]
    exact .int _
  | arrayAt => exact reply_answer_checked hm (agree_arrayAtValue fair hr ha hm.store)
  | arrayAtPut => exact reply_putAnswer hm (agree_arrayPut fair hr ha hm.store)
  | booleanNot =>
    exact reply_answer_checked hm ((agree_expectBool fair hr).map fun b _ he => he ▸ .bool _)
  | characterAsInteger =>
    exact reply_answer_checked hm ((agree_expectChar fair hr).map fun c _ he => he ▸ .int _)
  | characterNew => exact reply_answer_checked hm (agree_characterOf fair ha)
  | transcriptShow => exact reply_showLine hm (agree_argumentText fair ha hm.store) hr
  | booleanIfTrueIfFalse | booleanIfTrue | blockValue | blockValue1 | blockValue2 => cases plain

/-- **A primitive does the same on operands that are alike**; for the identity hash, the receivers
have to have the same one. -/
theorem apply_like (p : Primitive) (lawful : L.Lawful i i') (hm : m.Like L R m')
    (hr : receiver.Like L R receiver') (ha : List.Forall₂ (Value.Like L R) args args')
    (hash : p = objectHash → receiver'.identityHash = receiver.identityHash) :
    Reply.Like L R m m' (p.apply i m receiver args) (p.apply i' m' receiver' args') := by
  cases blocks : p.runsBlock with
  | false => exact apply_like_of_plain p blocks lawful.fair hm hr ha hash
  | true =>
    cases p with
    | booleanIfTrueIfFalse => exact reply_enter (agree_chosenBlock lawful hr ha)
    | booleanIfTrue =>
      have chosen := agree_guardedBlock lawful hr ha
      simp only [apply]
      rcases chosen.cases with ⟨o, o', hx, hx', ho⟩ | ⟨e, hx, hx'⟩
      · rw [hx, hx']
        cases ho with
        | none => exact reply_answer hm .nil
        | some hc => exact .enter hc
      · rw [hx, hx']
        exact .fault e
    | blockValue => exact reply_enter (agree_blockToEnter lawful hr ha)
    | blockValue1 => exact reply_enter (agree_blockToEnter lawful hr ha)
    | blockValue2 => exact reply_enter (agree_blockToEnter lawful hr ha)
    | _ => cases blocks

end Primitive

/-- **Calling a method does the same on operands that are alike.** -/
theorem invoke_like {code code' : Code} (lawful : L.Lawful i i') (same : L.codes code code')
    (hm : m.Like L R m') (hr : receiver.Like L R receiver')
    (ha : List.Forall₂ (Value.Like L R) args args')
    (hash : code.block.primitive = some .objectHash → args = [] →
      receiver'.identityHash = receiver.identityHash) :
    Reply.Like L R m m' (invoke i m receiver code args) (invoke i' m' receiver' code' args') := by
  have head := lawful.head same
  have arity : code'.arity = code.arity := by
    simp only [Code.arity, head.primitive, head.nargs]
  simp only [invoke, arity, head.qualified, head.primitive, ← ha.length_eq]
  split
  · exact .fault _
  · rename_i count
    cases hp : code.block.primitive with
    | none => exact .enter (.method same hr ha)
    | some p =>
      refine Primitive.apply_like p lawful hm hr ha fun he => ?_
      subst he
      refine hash hp (List.length_eq_zero_iff.1 ?_)
      rw [Decidable.not_not.1 count, Code.arity, hp]
      rfl

end Colloquy
