import Colloquy.Proofs.Likeness

/-!
# Values that match

Primitives and message lookup do not look into the frames of closures.  So if two values differ only
in what their closures say about frames, a primitive does the same with both.  `Value.Match S R` is
the relation of such values: `S` relates the closures, and `R` holds of the rows of the store that
the values name.  It is a likeness in which nothing else differs (`Value.match_eq_like`).

Main statements: a primitive carried out on matching operands in matching memories gives matching
replies (`Primitive.apply_match`), and so does calling a method (`invoke_match`).
-/

namespace Colloquy

/-- The values are the same but for closures, which are related by `S`, and name rows in `R`. -/
inductive Value.Match (S : Closure Value → Closure Value → Prop) (R : Ref → Prop) :
    Value → Value → Prop where
  | nil : Match S R .nil .nil
  | bool (b : Bool) : Match S R (.bool b) (.bool b)
  | int (n : Int32) : Match S R (.int n) (.int n)
  | float (x : Single) : Match S R (.float x) (.float x)
  | char (c : Char) : Match S R (.char c) (.char c)
  | string (id : StringId) (text : String) : Match S R (.string id text) (.string id text)
  | array {r : Ref} (row : R r) : Match S R (.array r) (.array r)
  | object (cls : Class) {r : Ref} (row : R r) : Match S R (.object cls r) (.object cls r)
  | cls (c : Class) : Match S R (.cls c) (.cls c)
  | block {c c' : Closure Value} (related : S c c') (serial : c'.serial = c.serial)
      (code : c'.code = c.code) (receiver : Match S R c.receiver c'.receiver) :
      Match S R (.block c) (.block c')

/-- The rows in `R` match, and as many rows have been made. -/
structure Store.Match (S : Closure Value → Closure Value → Prop) (R : Ref → Prop) (s s' : Store) :
    Prop where
  size : s'.rows.size = s.rows.size
  rows : ∀ r, R r → r < s.rows.size
    ∧ List.Forall₂ (Value.Match S R) (s.row r).toList (s'.row r).toList

/-- The memories match, frames and logs apart. -/
structure Memory.Match (S : Closure Value → Closure Value → Prop) (R : Ref → Prop)
    (m m' : Memory) : Prop where
  store : m.store.Match S R m'.store
  serial : m'.serial = m.serial
  transcript : m'.transcript = m.transcript

/-- The callees run the same code on matching values. -/
inductive Callee.Match (S : Closure Value → Closure Value → Prop) (R : Ref → Prop) :
    Callee → Callee → Prop where
  | method (code : Code) {receiver receiver' : Value} {args args' : List Value}
      (hr : receiver.Match S R receiver') (ha : List.Forall₂ (Value.Match S R) args args') :
      Match S R (.method code receiver args) (.method code receiver' args')
  | block {c c' : Closure Value} {args args' : List Value}
      (hc : (Value.block c).Match S R (.block c'))
      (ha : List.Forall₂ (Value.Match S R) args args')
      (arity : args.length = c.code.block.nargs) :
      Match S R (.block c args) (.block c' args')

/-- The replies are of one kind, with matching values and memories; `m` and `m'` are the memories
before. -/
inductive Reply.Match (S : Closure Value → Closure Value → Prop) (R : Ref → Prop) (m m' : Memory) :
    Reply → Reply → Prop where
  | answer {v v' : Value} {m₁ m₁' : Memory} (beside : m₁.Beside m) (beside' : m₁'.Beside m')
      (hm : m₁.Match S (m.store.Grown m₁.store R) m₁')
      (hv : v.Match S (m.store.Grown m₁.store R) v') :
      Match S R m m' (.answer v m₁) (.answer v' m₁')
  | enter {callee callee' : Callee} (hc : callee.Match S R callee') :
      Match S R m m' (.enter callee m) (.enter callee' m')
  | fault (cause : Cause) : Match S R m m' (.fault cause m) (.fault cause m')

variable {S : Closure Value → Closure Value → Prop} {R R' : Ref → Prop} {i : Image}
  {v v' w w' receiver receiver' : Value} {args args' : List Value} {s s' : Store} {m m' : Memory}

theorem Value.Match.mono (hR : ∀ r, R r → R' r) (h : v.Match S R v') : v.Match S R' v' := by
  induction h with
  | nil => exact .nil
  | bool b => exact .bool b
  | int n => exact .int n
  | float x => exact .float x
  | char c => exact .char c
  | string id text => exact .string id text
  | array row => exact .array (hR _ row)
  | object cls row => exact .object cls (hR _ row)
  | cls c => exact .cls c
  | block related serial code _ ih => exact .block related serial code ih

/-! ## Matching as a likeness -/

/-- The likeness in which only closures differ, as `S` says. -/
def Likeness.matching (S : Closure Value → Closure Value → Prop) : Likeness where
  ids := Eq
  classes := Eq
  codes := Eq
  closures R c c' := S c c' ∧ c'.serial = c.serial ∧ c'.code = c.code
    ∧ c.receiver.Match S R c'.receiver

theorem Value.match_eq_like : Value.Match S R = Value.Like (.matching S) R := by
  funext v v'
  refine propext ⟨fun h => ?_, fun h => ?_⟩
  · cases h with
    | nil => exact .nil
    | bool b => exact .bool b
    | int n => exact .int n
    | float x => exact .float x
    | char c => exact .char c
    | string id text => exact .string rfl text
    | array row => exact .array row
    | object cls row => exact .object rfl row
    | cls c => exact .cls rfl
    | block related serial code receiver => exact .block ⟨related, serial, code, receiver⟩
  · cases h with
    | nil => exact .nil
    | bool b => exact .bool b
    | int n => exact .int n
    | float x => exact .float x
    | char c => exact .char c
    | @string id _ same text =>
      cases same
      exact .string id text
    | array row => exact .array row
    | @object cls _ _ same row =>
      cases same
      exact .object cls row
    | @cls c _ same =>
      cases same
      exact .cls c
    | block same => exact .block same.1 same.2.1 same.2.2.1 same.2.2.2

theorem Value.Match.classOf_eq (h : v.Match S R v') : i.classOf v' = i.classOf v := by
  cases h <;> rfl

theorem Likeness.lawful_matching : (Likeness.matching S).Lawful i i where
  made _ := rfl
  ids ha hb := by
    cases ha
    cases hb
    rfl
  known h := by
    rw [← Value.match_eq_like] at h
    exact h.classOf_eq.symm
  id h := h ▸ rfl
  name h := h ▸ rfl
  numFields h := h ▸ rfl
  head h := h ▸ ⟨rfl, rfl, rfl, rfl, rfl, rfl⟩
  serial h := h.2.1
  code h := h.2.2.1.symm
  mono hR h := ⟨h.1, h.2.1, h.2.2.1, h.2.2.2.mono hR⟩

theorem Store.match_iff_like :
    s.Match S R s' ↔ s.Like (.matching S) R s' ∧ ∀ r, R r → r < s.rows.size := by
  refine ⟨fun h => ⟨⟨h.size, fun r hr => ?_⟩, fun r hr => (h.rows r hr).1⟩,
    fun h => ⟨h.1.size, fun r hr => ⟨h.2 r hr, ?_⟩⟩⟩
  · rw [← Value.match_eq_like]
    exact (h.rows r hr).2
  · rw [Value.match_eq_like]
    exact h.1.rows r hr

/-- What has been reached or made is there. -/
theorem Store.grown_lt (h : ∀ r, R r → r < s.rows.size) (longer : s.rows.size ≤ s'.rows.size)
    (r : Ref) (hr : s.Grown s' R r) : r < s'.rows.size :=
  hr.elim (fun hr => Nat.lt_of_lt_of_le (h r hr) longer) And.right

/-! ## Stores -/

section Stores

theorem Store.Match.like (h : s.Match S R s') : s.Like (.matching S) R s' :=
  (match_iff_like.1 h).1

theorem Store.Match.bound (h : s.Match S R s') : ∀ r, R r → r < s.rows.size :=
  (match_iff_like.1 h).2

theorem Store.Match.row {r : Ref} (h : s.Match S R s') (hr : R r) :
    List.Forall₂ (Value.Match S R) (s.row r).toList (s'.row r).toList := (h.rows r hr).2

theorem Store.Match.size_row {r : Ref} (h : s.Match S R s') (hr : R r) :
    (s'.row r).size = (s.row r).size :=
  h.like.size_row hr

/-- Matching lists match place by place. -/
theorem Value.Match.getD (h : List.Forall₂ (Value.Match S R) args args') (k : Nat) :
    (args.getD k .nil).Match S R (args'.getD k .nil) := by
  rw [match_eq_like] at h ⊢
  exact Like.getD h k

theorem Store.Match.getD {r : Ref} (h : s.Match S R s') (hr : R r) (k : Nat) :
    ((s.row r).getD k .nil).Match S R ((s'.row r).getD k .nil) := by
  rw [Value.match_eq_like]
  exact h.like.getD hr k

theorem Store.Match.set {r : Ref} (h : s.Match S R s') (k : Nat) (hv : v.Match S R v') :
    (s.set r k v).Match S R (s'.set r k v') := by
  rw [Value.match_eq_like] at hv
  exact match_iff_like.2 ⟨h.like.set k hv, by rw [size_set]; exact h.bound⟩

theorem Store.Match.add {values values' : Array Value} (h : s.Match S R s')
    (hv : List.Forall₂ (Value.Match S R) values.toList values'.toList) :
    (s.add values).1.Match S (s.Grown (s.add values).1 R) (s'.add values').1
      ∧ (s'.add values').2 = (s.add values).2
      ∧ s.Grown (s.add values).1 R (s.add values).2 := by
  rw [Value.match_eq_like] at hv
  obtain ⟨store, number, row⟩ := h.like.add (Likeness.lawful_matching (i := default)).fair hv
  refine ⟨match_iff_like.2 ⟨store, grown_lt h.bound ?_⟩, number, row⟩
  rw [size_add]
  exact Nat.le_succ _

/-- Arrays of `nil` match. -/
theorem Value.Match.replicate (n : Nat) :
    List.Forall₂ (Value.Match S R) (Array.replicate n Value.nil).toList
      (Array.replicate n Value.nil).toList := by
  rw [match_eq_like]
  exact Like.replicate n

theorem Image.instantiate_match (h : s.Match S R s') (cls : Class) :
    (instantiate s cls).1.Match S (s.Grown (instantiate s cls).1 R) (instantiate s' cls).1
      ∧ (instantiate s cls).2.Match S (s.Grown (instantiate s cls).1 R) (instantiate s' cls).2 := by
  obtain ⟨store, number, row⟩ := h.add (Value.Match.replicate cls.numFields)
  refine ⟨store, ?_⟩
  have same : (instantiate s' cls).2 = (instantiate s cls).2 := congrArg (Value.object cls) number
  rw [same]
  exact .object cls row

theorem Memory.Match.newArray {values values' : Array Value} (h : m.Match S R m')
    (hv : List.Forall₂ (Value.Match S R) values.toList values'.toList) :
    (m.newArray values).1.Match S (m.store.Grown (m.newArray values).1.store R)
        (m'.newArray values').1
      ∧ (m.newArray values).2.Match S (m.store.Grown (m.newArray values).1.store R)
        (m'.newArray values').2 := by
  obtain ⟨store, number, row⟩ := h.store.add hv
  refine ⟨⟨store, h.serial, h.transcript⟩, ?_⟩
  have same : (m'.newArray values').2 = (m.newArray values).2 := congrArg Value.array number
  rw [same]
  exact .array row

end Stores

/-! ## Lookup -/

namespace Value.Match

theorem isClass_eq (h : v.Match S R v') : v'.isClass = v.isClass := by cases h <;> rfl

theorem className_eq (h : v.Match S R v') : i.className v' = i.className v := by
  rw [Image.className, h.classOf_eq, Image.className]

theorem identityHash_eq (h : v.Match S R v') : v'.identityHash = v.identityHash := by
  cases h with
  | block _ serial => simp only [identityHash, serial]
  | _ => rfl

end Value.Match

namespace Image

theorem methodFrom_match (h : receiver.Match S R receiver') (start : Class) (whom : String)
    (selector : String) :
    i.methodFrom start whom receiver' selector = i.methodFrom start whom receiver selector := by
  simp only [methodFrom, h.isClass_eq, h.className_eq]

theorem method_match (h : receiver.Match S R receiver') (selector : String) :
    i.method receiver' selector = i.method receiver selector := by
  rw [method, h.classOf_eq, h.className_eq, methodFrom_match h, method]

theorem superMethod_match (h : receiver.Match S R receiver') (sender : Code) (selector : String) :
    i.superMethod sender receiver' selector = i.superMethod sender receiver selector := by
  simp only [superMethod, h.className_eq, methodFrom_match h]

end Image

/-! ## Calls -/

theorem Memory.Match.like (h : m.Match S R m') : m.Like (.matching S) R m' :=
  ⟨h.store.like, h.serial, h.transcript⟩

theorem Callee.match_of_like {callee callee' : Callee} (h : callee.Like (.matching S) R callee') :
    callee.Match S R callee' := by
  cases h with
  | @method code _ _ _ _ _ same hr ha =>
    cases same
    rw [← Value.match_eq_like] at hr ha
    exact .method code hr ha
  | block same ha arity =>
    rw [← Value.match_eq_like] at ha
    exact .block (.block same.1 same.2.1 same.2.2.1 same.2.2.2) ha arity

theorem Reply.match_of_like {reply reply' : Reply} (bound : ∀ r, R r → r < m.store.rows.size)
    (h : reply.Like (.matching S) R m m' reply') : reply.Match S R m m' reply' := by
  cases h with
  | answer beside beside' hm hv =>
    rw [← Value.match_eq_like] at hv
    exact .answer beside beside'
      ⟨Store.match_iff_like.2 ⟨hm.store, Store.grown_lt bound beside.rows⟩, hm.serial,
        hm.transcript⟩ hv
  | enter hc => exact .enter (Callee.match_of_like hc)
  | fault cause => exact .fault cause

/-- **A primitive does the same on matching operands.** -/
theorem Primitive.apply_match (p : Primitive) (hm : m.Match S R m')
    (hr : receiver.Match S R receiver') (ha : List.Forall₂ (Value.Match S R) args args') :
    Reply.Match S R m m' (p.apply i m receiver args) (p.apply i m' receiver' args') := by
  have hash := hr.identityHash_eq
  rw [Value.match_eq_like] at hr ha
  exact Reply.match_of_like hm.store.bound
    (p.apply_like Likeness.lawful_matching hm.like hr ha fun _ => hash)

/-- **Calling a method does the same on matching operands.** -/
theorem invoke_match (hm : m.Match S R m') (hr : receiver.Match S R receiver')
    (ha : List.Forall₂ (Value.Match S R) args args') (code : Code) :
    Reply.Match S R m m' (invoke i m receiver code args) (invoke i m' receiver' code args') := by
  have hash := hr.identityHash_eq
  rw [Value.match_eq_like] at hr ha
  exact Reply.match_of_like hm.store.bound
    (invoke_like Likeness.lawful_matching rfl hm.like hr ha fun _ _ => hash)

end Colloquy
