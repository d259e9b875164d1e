import Colloquy.Proofs.Twin.Execution

/-!
# Renamed values

Two machines with the same image do the same thing, but the second has been in use before: it names
frames by other handles, the rows that it makes have larger numbers, and so have the identities that
it gives out; and something had been written to its transcript.  A `Renaming` says how the second
machine names what the first one has.  Only the first row, that of the transcript, is the same in
both.

Main statements: what primitives see of a value is what they see of the renamed value, so a
primitive on renamed operands gives the renamed reply (`Primitive.apply_copies`), and so does
calling a method (`invoke_copies`).  The identity hash of an object is the one exception.
-/

namespace Colloquy

/-- How a machine that has been in use names what a new one has. -/
structure Renaming where
  frame : FrameId → FrameId
  /-- How many rows there were. -/
  rows : Nat
  /-- How many identities had been given out. -/
  serials : Nat
  /-- What had been written. -/
  written : String

namespace Renaming

variable (ρ : Renaming)

def row (r : Ref) : Ref := if r = 0 then 0 else r + ρ.rows

def string : StringId → StringId
  | .literal block index => .literal block index
  | .made serial => .made (serial + ρ.serials)

def value : Value → Value
  | .string id text => .string (ρ.string id) text
  | .array r => .array (ρ.row r)
  | .object cls r => .object cls (ρ.row r)
  | .block ⟨serial, code, enclosing, home, receiver⟩ =>
    .block ⟨serial + ρ.serials, code, ρ.frame enclosing, ρ.frame home, value receiver⟩
  | .nil => .nil
  | .bool b => .bool b
  | .int n => .int n
  | .float x => .float x
  | .char c => .char c
  | .cls c => .cls c

def closure (c : Closure Value) : Closure Value where
  serial := c.serial + ρ.serials
  code := c.code
  enclosing := ρ.frame c.enclosing
  home := ρ.frame c.home
  receiver := ρ.value c.receiver

def callee : Callee → Callee
  | .method code receiver args => .method code (ρ.value receiver) (args.map ρ.value)
  | .block c args => .block (ρ.closure c) (args.map ρ.value)

def transcript (t : Transcript) : Transcript := { t with text := ρ.written ++ t.text }

theorem value_block (c : Closure Value) : ρ.value (.block c) = .block (ρ.closure c) := by
  cases c
  rfl

theorem row_injective : Function.Injective ρ.row := by
  intro (r : Nat) (r' : Nat) h
  have h : (if r = 0 then 0 else r + ρ.rows) = if r' = 0 then 0 else r' + ρ.rows := h
  show r = r'
  split at h <;> split at h <;> omega

theorem string_injective : Function.Injective ρ.string := by
  intro a b h
  cases a <;> cases b <;> simp_all [string]

theorem map_value_replicate (n : Nat) :
    (Array.replicate n Value.nil).map ρ.value = Array.replicate n .nil := by
  simp [value]

/-! ## What is seen of a value -/

variable (i : Image) (v w : Value)

@[simp] theorem isClass_value : (ρ.value v).isClass = v.isClass := by
  cases v <;> rfl

@[simp] theorem classOf_value : i.classOf (ρ.value v) = i.classOf v := by
  cases v <;> rfl

@[simp] theorem className_value : i.className (ρ.value v) = i.className v := by
  rw [Image.className, classOf_value, Image.className]

theorem hasIdentity_value : (ρ.value v).HasIdentity ↔ v.HasIdentity := by
  cases v <;> rfl

theorem identityHash_value (h : ¬ v.HasIdentity) : (ρ.value v).identityHash = v.identityHash := by
  cases v with
  | string | array | object | cls | block => exact absurd trivial h
  | _ => rfl

theorem identical_value : (ρ.value v).identical (ρ.value w) = v.identical w := by
  cases v with
  | string id text =>
    cases w with
    | string id' text' => simp only [value, Value.identical, ρ.string_injective.eq_iff]
    | _ => rfl
  | array r =>
    cases w with
    | array r' => simp only [value, Value.identical, ρ.row_injective.eq_iff]
    | _ => rfl
  | object cls r =>
    cases w with
    | object cls' r' => simp only [value, Value.identical, ρ.row_injective.eq_iff]
    | _ => rfl
  | block c =>
    cases w with
    | block c' => simp only [value_block, closure, Value.identical, Nat.add_right_cancel_iff]
    | _ => rfl
  | _ => cases w <;> rfl

@[simp] theorem method_value (selector : String) :
    i.method (ρ.value v) selector = i.method v selector := by
  simp only [Image.method, Image.methodFrom, classOf_value, className_value, isClass_value]

@[simp] theorem superMethod_value (sender : Code) (selector : String) :
    i.superMethod sender (ρ.value v) selector = i.superMethod sender v selector := by
  simp only [Image.superMethod, Image.methodFrom, className_value, isClass_value]

theorem write?_transcript (t : Transcript) (line : String) :
    (ρ.transcript t).write? line = (t.write? line).map ρ.transcript := by
  obtain ⟨sink, text⟩ := t
  cases sink with
  | buffer => simp [transcript, Transcript.write?, String.append_assoc]
  | writer room =>
    rcases room with _ | _ | n <;> simp [transcript, Transcript.write?, String.append_assoc]

end Renaming

variable {ρ : Renaming} {s s' : Store} {m m' : Memory} {i : Image} {receiver v : Value}
  {args : List Value}

/-! ## Rows -/

/-- The second store has every row of the first, renamed, and as many rows besides as the renaming
says. -/
structure Store.Copies (ρ : Renaming) (s s' : Store) : Prop where
  nonempty : 0 < s.rows.size
  size : s'.rows.size = s.rows.size + ρ.rows
  row : ∀ r, s'.row (ρ.row r) = (s.row r).map ρ.value

namespace Store.Copies

theorem size_row (h : s.Copies ρ s') (r : Ref) : (s'.row (ρ.row r)).size = (s.row r).size := by
  rw [h.row, Array.size_map]

theorem getD (h : s.Copies ρ s') (r : Ref) (k : Nat) :
    (s'.row (ρ.row r)).getD k .nil = ρ.value ((s.row r).getD k .nil) := by
  rw [h.row, Array.getD_eq_getD_getElem?, Array.getD_eq_getD_getElem?, Array.getElem?_map]
  cases (s.row r)[k]? <;> rfl

theorem add (h : s.Copies ρ s') (values : Array Value) :
    (s.add values).1.Copies ρ (s'.add (values.map ρ.value)).1
      ∧ (s'.add (values.map ρ.value)).2 = ρ.row (s.add values).2 := by
  have number : (s'.add (values.map ρ.value)).2 = ρ.row (s.add values).2 := by
    show s'.rows.size = ρ.row s.rows.size
    rw [h.size, Renaming.row, if_neg (Nat.ne_of_gt h.nonempty)]
  refine ⟨⟨?_, ?_, fun r => ?_⟩, number⟩
  · rw [size_add]
    exact Nat.succ_pos _
  · rw [size_add, size_add, h.size, Nat.add_right_comm]
  · by_cases new : r = (s.add values).2
    · rw [new, row_add_self, ← number, row_add_self]
    · rw [row_add_of_ne new, row_add_of_ne, h.row]
      rw [number]
      exact fun same => new (ρ.row_injective same)

theorem set (h : s.Copies ρ s') (r : Ref) (k : Nat) (v : Value) :
    (s.set r k v).Copies ρ (s'.set (ρ.row r) k (ρ.value v)) := by
  refine ⟨?_, ?_, fun q => ?_⟩
  · rw [size_set]
    exact h.nonempty
  · rw [size_set, size_set, h.size]
  · by_cases same : r = q
    · subst same
      rw [row_set_self, row_set_self, h.row]
      exact (Array.map_setIfInBounds).symm
    · rw [row_set_of_ne same, row_set_of_ne (ρ.row_injective.ne same), h.row]

theorem instantiate (h : s.Copies ρ s') (cls : Class) :
    (Image.instantiate s cls).1.Copies ρ (Image.instantiate s' cls).1
      ∧ (Image.instantiate s' cls).2 = ρ.value (Image.instantiate s cls).2 := by
  have added := h.add (Array.replicate cls.numFields .nil)
  rw [ρ.map_value_replicate] at added
  exact ⟨added.1, congrArg (Value.object cls) added.2⟩

/-- **Renamed values are shown alike.** -/
theorem renderTo (h : s.Copies ρ s') (depth : Nat) (v : Value) :
    (ρ.value v).renderTo s' depth = v.renderTo s depth := by
  induction depth generalizing v with
  | zero => cases v with
    | bool b => cases b <;> rfl
    | _ => rfl
  | succ depth ih => cases v with
    | array r =>
      have shown : (s'.row (ρ.row r)).toList.map (Value.renderTo s' depth)
          = (s.row r).toList.map (Value.renderTo s depth) := by
        rw [h.row, Array.toList_map, List.map_map]
        exact List.map_congr_left fun v _ => ih v
      simp only [Renaming.value, Value.renderTo, shown]
    | bool b => cases b <;> rfl
    | _ => rfl

theorem render (h : s.Copies ρ s') (v : Value) : (ρ.value v).render s' = v.render s :=
  h.renderTo _ v

theorem inspect (h : s.Copies ρ s') (v : Value) : (ρ.value v).inspect s' = v.inspect s := by
  cases v with
  | string id text => rfl
  | block c => rfl
  | _ => exact h.render _

theorem inspectAll (h : s.Copies ρ s') (vs : List Value) :
    Value.inspectAll s' (vs.map ρ.value) = Value.inspectAll s vs := by
  have shown : (vs.map ρ.value).map (Value.inspect s') = vs.map (Value.inspect s) := by
    rw [List.map_map]
    exact List.map_congr_left fun v _ => h.inspect v
  rw [Value.inspectAll, shown, Value.inspectAll]

end Store.Copies

/-- The second memory has the rows of the first, renamed, and the same has been written since; both
have given out as many identities since. -/
structure Memory.Copies (ρ : Renaming) (m m' : Memory) : Prop where
  store : m.store.Copies ρ m'.store
  serial : m'.serial = m.serial + ρ.serials
  transcript : m'.transcript = ρ.transcript m.transcript

/-- Frames and logs may be others. -/
theorem Memory.Copies.congr {m₁ m₁' : Memory} (h : m.Copies ρ m') (data : m.SameData m₁)
    (data' : m'.SameData m₁') : m₁.Copies ρ m₁' := by
  refine ⟨?_, ?_, ?_⟩
  · rw [data.store, data'.store]
    exact h.store
  · rw [data.serial, data'.serial]
    exact h.serial
  · rw [data.transcript, data'.transcript]
    exact h.transcript

/-! ## Replies -/

/-- The second reply is the first one, renamed. -/
inductive Reply.Copies (ρ : Renaming) : Reply → Reply → Prop where
  | answer (v : Value) {m m' : Memory} (hm : m.Copies ρ m') :
      Copies ρ (.answer v m) (.answer (ρ.value v) m')
  | enter (callee : Callee) {m m' : Memory} (hm : m.Copies ρ m') :
      Copies ρ (.enter callee m) (.enter (ρ.callee callee) m')
  | fault (cause : Cause) {m m' : Memory} (hm : m.Copies ρ m') :
      Copies ρ (.fault cause m) (.fault cause m')

theorem Checked.map_bind {α β γ : Type} (x : Checked α) (f : α → β) (g : β → Checked γ) :
    (x.map f >>= g) = x >>= fun a => g (f a) := by
  cases x <;> rfl

theorem Checked.bind_map {α β γ : Type} (x : Checked α) (f : α → Checked β) (g : β → γ) :
    (x >>= f).map g = x >>= fun a => (f a).map g := by
  cases x <;> rfl

theorem Checked.map_map {α β γ : Type} (x : Checked α) (f : α → β) (g : β → γ) :
    (x.map f).map g = x.map fun a => g (f a) := by
  cases x <;> rfl

namespace Primitive

/-! ### Operands -/

section Operands

variable (ρ i v)

theorem argument_map (args : List Value) (k : Nat) :
    argument (args.map ρ.value) k = (argument args k).map ρ.value := by
  unfold argument
  rw [List.getElem?_map]
  cases args[k]? <;> rfl

theorem expectInt_value : expectInt i (ρ.value v) = expectInt i v := by
  cases v <;> rfl

theorem expectFloat_value : expectFloat i (ρ.value v) = expectFloat i v := by
  cases v <;> rfl

theorem expectBool_value : expectBool i (ρ.value v) = expectBool i v := by
  cases v <;> rfl

theorem expectChar_value : expectChar i (ρ.value v) = expectChar i v := by
  cases v <;> rfl

theorem expectString_value : expectString i (ρ.value v) = expectString i v := by
  cases v <;> rfl

theorem expectClass_value : expectClass i (ρ.value v) = expectClass i v := by
  cases v <;> rfl

theorem expectArray_value : expectArray i (ρ.value v) = (expectArray i v).map ρ.row := by
  cases v <;> rfl

theorem expectBlock_value : expectBlock i (ρ.value v) = (expectBlock i v).map ρ.closure := by
  cases v <;> rfl

variable (receiver) (args : List Value)

theorem intOperands_map :
    intOperands i (ρ.value receiver) (args.map ρ.value) = intOperands i receiver args := by
  simp only [intOperands, expectInt_value, argument_map, Checked.map_bind]

theorem divOperands_map :
    divOperands i (ρ.value receiver) (args.map ρ.value) = divOperands i receiver args := by
  simp only [divOperands, intOperands_map]

theorem floatOperands_map :
    floatOperands i (ρ.value receiver) (args.map ρ.value) = floatOperands i receiver args := by
  simp only [floatOperands, expectFloat_value, argument_map, Checked.map_bind]

theorem sameInt_map :
    sameInt i (ρ.value receiver) (args.map ρ.value) = (sameInt i receiver args).map ρ.value := by
  simp only [sameInt, expectInt_value, argument_map, Checked.map_bind, Checked.bind_map]
  congr 1
  funext a
  congr 1
  funext v
  cases v <;> rfl

theorem sameFloat_map :
    sameFloat i (ρ.value receiver) (args.map ρ.value)
      = (sameFloat i receiver args).map ρ.value := by
  simp only [sameFloat, expectFloat_value, argument_map, Checked.map_bind, Checked.bind_map]
  congr 1
  funext a
  congr 1
  funext v
  cases v <;> rfl

theorem arraySizeArg_map : arraySizeArg i (args.map ρ.value) = arraySizeArg i args := by
  simp only [arraySizeArg, expectInt_value, argument_map, Checked.map_bind]

theorem characterOf_map :
    characterOf i (args.map ρ.value) = (characterOf i args).map ρ.value := by
  simp only [characterOf, expectInt_value, argument_map, Checked.map_bind, Checked.bind_map]
  congr 1
  funext v
  congr 1
  funext n
  split <;> rfl

theorem matching_closure (c : Closure Value) :
    matching (ρ.closure c) (args.map ρ.value) = (matching c args).map ρ.callee := by
  unfold matching
  rw [List.length_map]
  show (if args.length = c.code.block.nargs then _ else _) = _
  split <;> rfl

theorem blockToEnter_map : blockToEnter i (ρ.value receiver) (args.map ρ.value)
    = (blockToEnter i receiver args).map ρ.callee := by
  simp only [blockToEnter, expectBlock_value, Checked.map_bind, Checked.bind_map, matching_closure]

theorem chosenBlock_map : chosenBlock i (ρ.value receiver) (args.map ρ.value)
    = (chosenBlock i receiver args).map ρ.callee := by
  have plain (c : Closure Value) : matching (ρ.closure c) [] = (matching c []).map ρ.callee :=
    matching_closure ρ [] c
  simp only [chosenBlock, expectBool_value, argument_map, expectBlock_value, Checked.map_bind,
    Checked.bind_map, plain]

theorem guardedBlock_map : guardedBlock i (ρ.value receiver) (args.map ρ.value)
    = (guardedBlock i receiver args).map (·.map ρ.callee) := by
  have plain (c : Closure Value) : matching (ρ.closure c) [] = (matching c []).map ρ.callee :=
    matching_closure ρ [] c
  simp only [guardedBlock, expectBool_value, argument_map, expectBlock_value, Checked.map_bind,
    Checked.bind_map]
  congr 1
  funext condition
  congr 1
  funext v
  congr 1
  funext c
  cases condition with
  | false => rfl
  | true =>
    simp only [if_true, plain, Checked.map_bind, Checked.bind_map]
    rfl

variable {args} (h : s.Copies ρ s')
include h

theorem arrayAtValue_map : arrayAtValue i s' (ρ.value receiver) (args.map ρ.value)
    = (arrayAtValue i s receiver args).map ρ.value := by
  simp only [arrayAtValue, expectArray_value, expectInt_value, argument_map, Checked.map_bind,
    Checked.bind_map, h.size_row, h.getD]
  rfl

theorem arrayPut_map : arrayPut i s' (ρ.value receiver) (args.map ρ.value)
    = (arrayPut i s receiver args).map fun p => (ρ.row p.1, p.2.1, ρ.value p.2.2) := by
  simp only [arrayPut, expectArray_value, expectInt_value, argument_map, Checked.map_bind,
    Checked.bind_map, h.size_row]
  rfl

end Operands

/-! ### Replies -/

section Replies

variable (hm : m.Copies ρ m')
include hm

theorem copies_answer {x x' : Checked Value} (hx : x' = x.map ρ.value) :
    Reply.Copies ρ (answer m x) (answer m' x') := by
  subst hx
  cases x with
  | ok v => exact .answer v hm
  | error e => exact .fault e hm

/-- The answer is no object, so its name is the same. -/
theorem copies_plain {α : Type} (x : Checked α) {f : α → Value} (hf : ∀ a, ρ.value (f a) = f a) :
    Reply.Copies ρ (answer m (x.map f)) (answer m' (x.map f)) := by
  refine copies_answer hm ?_
  rw [Checked.map_map]
  simp only [hf]

theorem copies_answerString (x : Checked String) :
    Reply.Copies ρ (answerString m x) (answerString m' x) := by
  cases x with
  | error e => exact .fault e hm
  | ok text =>
    have made : (m'.newString text).2 = ρ.value (m.newString text).2 := by
      simp only [Memory.newString, hm.serial]
      rfl
    have given : (m.newString text).1.Copies ρ (m'.newString text).1 := by
      refine ⟨hm.store, ?_, hm.transcript⟩
      show m'.serial + 1 = m.serial + 1 + ρ.serials
      rw [hm.serial, Nat.add_right_comm]
    show Reply.Copies ρ (.answer (m.newString text).2 _) (.answer (m'.newString text).2 _)
    rw [made]
    exact .answer _ given

theorem copies_answerArray {x x' : Checked (Array Value)} (hx : x' = x.map (·.map ρ.value)) :
    Reply.Copies ρ (answerArray m x) (answerArray m' x') := by
  subst hx
  cases x with
  | error e => exact .fault e hm
  | ok values =>
    obtain ⟨store, number⟩ := hm.store.add values
    have made : (m'.newArray (values.map ρ.value)).2 = ρ.value (m.newArray values).2 :=
      congrArg Value.array number
    show Reply.Copies ρ (.answer (m.newArray values).2 _)
      (.answer (m'.newArray (values.map ρ.value)).2 _)
    rw [made]
    exact .answer _ ⟨store, hm.serial, hm.transcript⟩

theorem copies_answerInstance (x : Checked Class) :
    Reply.Copies ρ (answerInstance m x) (answerInstance m' x) := by
  cases x with
  | error e => exact .fault e hm
  | ok cls =>
    obtain ⟨store, made⟩ := hm.store.instantiate cls
    show Reply.Copies ρ (.answer (Image.instantiate m.store cls).2 _)
      (.answer (Image.instantiate m'.store cls).2 _)
    rw [made]
    exact .answer _ ⟨store, hm.serial, hm.transcript⟩

theorem copies_enter {x x' : Checked Callee} (hx : x' = x.map ρ.callee) :
    Reply.Copies ρ (enter m x) (enter m' x') := by
  subst hx
  cases x with
  | ok callee => exact .enter callee hm
  | error e => exact .fault e hm

theorem copies_showLine (receiver : Value) (x : Checked String) :
    Reply.Copies ρ (showLine m receiver x) (showLine m' (ρ.value receiver) x) := by
  cases x with
  | error e => exact .fault e hm
  | ok line =>
    simp only [showLine, hm.transcript, ρ.write?_transcript]
    cases m.transcript.write? line with
    | none => exact .fault _ hm
    | some transcript => exact .answer receiver ⟨hm.store, hm.serial, rfl⟩

theorem copies_putAnswer {x x' : Checked (Ref × Nat × Value)}
    (hx : x' = x.map fun p => (ρ.row p.1, p.2.1, ρ.value p.2.2)) :
    Reply.Copies ρ (putAnswer m x) (putAnswer m' x') := by
  subst hx
  cases x with
  | error e => exact .fault e hm
  | ok p =>
    obtain ⟨row, place, value⟩ := p
    exact .answer value ⟨hm.store.set row place value, hm.serial, hm.transcript⟩

theorem argumentText_map (args : List Value) :
    argumentText m' (args.map ρ.value) = argumentText m args := by
  simp only [argumentText, argument_map, Checked.map_map, hm.store.render]

/-- **A primitive on renamed operands gives the renamed reply**; for the identity hash, the receiver
must not be an object. -/
theorem apply_copies (p : Primitive) (i : Image) (receiver : Value) (args : List Value)
    (hash : p = objectHash → ¬ receiver.HasIdentity) :
    Reply.Copies ρ (p.apply i m receiver args)
      (p.apply i m' (ρ.value receiver) (args.map ρ.value)) := by
  have texts := argumentText_map hm args
  cases p with
  | objectAsString =>
    simp only [apply, hm.store.render]
    exact copies_answerString hm _
  | objectClassName =>
    simp only [apply, ρ.className_value]
    exact copies_answerString hm _
  | objectSame =>
    refine copies_answer hm ?_
    rw [argument_map, Checked.map_map, Checked.map_map]
    simp only [ρ.identical_value]
    rfl
  | objectHash =>
    simp only [apply, ρ.identityHash_value receiver (hash rfl)]
    exact .answer (.int _) hm
  | objectBasicNew =>
    simp only [apply, expectClass_value]
    exact copies_answerInstance hm _
  | objectError =>
    simp only [apply, texts]
    refine copies_answer hm ?_
    cases argumentText m args <;> rfl
  | integerAdd | integerSub | integerMul | integerLt | integerLe | integerGt | integerGe =>
    simp only [apply, intOperands_map]
    exact copies_plain hm _ fun _ => rfl
  | floatAdd | floatSub | floatMul | floatDiv | floatLt | floatLe | floatGt | floatGe =>
    simp only [apply, floatOperands_map]
    exact copies_plain hm _ fun _ => rfl
  | integerDiv | integerMod =>
    simp only [apply, divOperands_map]
    exact copies_plain hm _ fun _ => rfl
  | integerEq => exact copies_answer hm (sameInt_map ρ i receiver args)
  | floatEq => exact copies_answer hm (sameFloat_map ρ i receiver args)
  | integerAsFloat =>
    simp only [apply, expectInt_value]
    exact copies_plain hm _ fun _ => rfl
  | floatAsInteger =>
    simp only [apply, expectFloat_value]
    exact copies_plain hm _ fun _ => rfl
  | stringNew =>
    simp only [apply, texts]
    exact copies_answerString hm _
  | stringCat =>
    simp only [apply, expectString_value, texts]
    exact copies_answerString hm _
  | stringEq =>
    simp only [apply, expectString_value, texts]
    refine copies_answer hm ?_
    rw [Checked.bind_map]
    simp only [Checked.bind_map]
    rfl
  | stringAsArray =>
    simp only [apply, expectString_value]
    refine copies_answerArray hm ?_
    rw [Checked.map_map]
    congr 1
    funext text
    simp [Renaming.value]
  | arrayNew =>
    simp only [apply, arraySizeArg_map]
    refine copies_answerArray hm ?_
    rw [Checked.map_map]
    simp only [ρ.map_value_replicate]
  | arraySize =>
    simp only [apply, expectArray_value, Checked.map_map, hm.store.size_row]
    exact copies_plain hm _ fun _ => rfl
  | arrayAt => exact copies_answer hm (arrayAtValue_map ρ i receiver hm.store)
  | arrayAtPut => exact copies_putAnswer hm (arrayPut_map ρ i receiver hm.store)
  | booleanIfTrueIfFalse => exact copies_enter hm (chosenBlock_map ρ i receiver args)
  | booleanIfTrue =>
    simp only [apply, guardedBlock_map]
    cases guardedBlock i receiver args with
    | error e => exact .fault e hm
    | ok o => cases o with
      | none => exact .answer .nil hm
      | some callee => exact .enter callee hm
  | booleanNot =>
    simp only [apply, expectBool_value]
    exact copies_plain hm _ fun _ => rfl
  | characterAsInteger =>
    simp only [apply, expectChar_value]
    exact copies_plain hm _ fun _ => rfl
  | characterNew => exact copies_answer hm (characterOf_map ρ i args)
  | blockValue | blockValue1 | blockValue2 =>
    exact copies_enter hm (blockToEnter_map ρ i receiver args)
  | transcriptShow =>
    simp only [apply, texts]
    exact copies_showLine hm receiver _

end Replies

end Primitive

/-- **Calling a method on renamed operands gives the renamed reply**, if it takes no identity hash
of an object. -/
theorem invoke_copies (hm : m.Copies ρ m') (i : Image) (receiver : Value) (code : Code)
    (args : List Value) (quiet : ¬ code.Hashes receiver args) :
    Reply.Copies ρ (invoke i m receiver code args)
      (invoke i m' (ρ.value receiver) code (args.map ρ.value)) := by
  unfold invoke
  rw [List.length_map]
  split
  · exact .fault _ hm
  · rename_i count
    cases hp : code.block.primitive with
    | none => exact .enter (.method code receiver args) hm
    | some p =>
      refine Primitive.apply_copies hm p i receiver args fun same identity => quiet ?_
      subst same
      refine ⟨hp, List.length_eq_zero_iff.1 ?_, identity⟩
      rw [Decidable.not_not.1 count, Code.arity, hp]
      rfl

end Colloquy
