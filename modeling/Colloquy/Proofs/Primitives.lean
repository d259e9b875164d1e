import Colloquy.Machine.Dispatch

/-!
# What primitives do

A primitive that gets as many arguments as it takes does one of a few things: it answers a simple
value, one that it was given or one that it has made, it changes an array or the transcript, it asks
for a block to be entered, or it fails for an ordinary cause (`Primitive.Gives`).

Main statements: `Primitive.apply_gives`, and `invoke_gives` for calls of methods.
-/

namespace Colloquy

/-- The causes that well-formed code can fail for.  The others say that code, operands, slots or
frames are not what they should be. -/
def Cause.Ordinary : Cause → Prop
  | emptyPop | emptyTop | shortArray .. | shortSend .. | missingArgument .. | superOutsideClass
  | noField .. | noLiteral .. | noLocal .. | noEnclosing .. | noNestedBlock .. | staleFrame ..
  | noActiveFrame | badBytecode .. | invalidCharacter .. | missingSuperclass ..
  | missingSystemClass .. => False
  | _ => True

/-- What an ordinary cause can be, of those that a machine finds by checking its own state. -/
theorem Cause.Ordinary.checks {cause : Cause} (h : cause.Ordinary) :
    cause.kind ≠ .stackUnderflow
      ∧ (cause.kind = .internal → cause = .callStackOverflow ∨ cause = .divisionByZero
        ∨ cause = .transcriptClosed
        ∨ ∃ method expected given, cause = .argumentCount method expected given)
      ∧ (cause.kind = .unknownField → ∃ className, cause = .noFields className) := by
  cases cause <;> first | exact h.elim | simp [kind]

/-- A value that refers to nothing: it has no row, no closure and no class. -/
def Value.Simple : Value → Prop
  | .array _ | .object _ _ | .block _ | .cls _ => False
  | _ => True

/-- What a method call comes to at once, when the method is carried out by the machine itself. -/
inductive Primitive.Gives (m : Memory) (receiver : Value) (args : List Value) : Reply → Prop where
  | simple {v : Value} (h : v.Simple) : Gives m receiver args (.answer v m)
  | element {r : Ref} {v : Value} (of : receiver = .array r) (h : v ∈ m.store.row r) :
      Gives m receiver args (.answer v m)
  | string (text : String) :
      Gives m receiver args (.answer (m.newString text).2 (m.newString text).1)
  | array {values : Array Value} (h : ∀ v ∈ values, v.Simple) :
      Gives m receiver args (.answer (m.newArray values).2 (m.newArray values).1)
  | object {cls : Class} (of : receiver = .cls cls) :
      Gives m receiver args (.answer (Image.instantiate m.store cls).2
        { m with store := (Image.instantiate m.store cls).1 })
  | put (r : Ref) (place : Nat) {v : Value} (h : v ∈ args) :
      Gives m receiver args (.answer v { m with store := m.store.set r place v })
  | write (transcript : Transcript) : Gives m receiver args (.answer receiver { m with transcript })
  | enter {c : Closure Value} {given : List Value} (of : .block c ∈ receiver :: args)
      (h : ∀ v ∈ given, v ∈ args) (arity : given.length = c.code.block.nargs) :
      Gives m receiver args (.enter (.block c given) m)
  | fault {cause : Cause} (h : cause.Ordinary) : Gives m receiver args (.fault cause m)

namespace Primitive

/-- Whatever the computation comes to is in order: a value in `P`, or an ordinary cause. -/
def Yields {α : Type} (P : α → Prop) : Checked α → Prop
  | .ok a => P a
  | .error e => e.Ordinary

variable {α β : Type} {P : α → Prop} {U : β → Prop} {x : Checked α} {i : Image} {m : Memory}
  {receiver v : Value} {args : List Value}

theorem Yields.bind {f : α → Checked β} (h : Yields P x) (hf : ∀ a, P a → Yields U (f a)) :
    Yields U (x >>= f) := by
  cases x with
  | ok a => exact hf a h
  | error e => exact h

theorem Yields.map {f : α → β} (h : Yields P x) (hf : ∀ a, P a → U (f a)) :
    Yields U (x.map f) := by
  cases x with
  | ok a => exact hf a h
  | error e => exact h

/-! ## Operands -/

theorem yields_argument {k : Nat} (hk : k < args.length) :
    Yields (· ∈ args) (argument args k) := by
  unfold argument
  rw [List.getElem?_eq_getElem hk]
  exact List.getElem_mem hk

theorem yields_expectInt (v : Value) : Yields (fun _ => True) (expectInt i v) := by
  cases v <;> trivial

/-- What is no integer is refused where one is expected. -/
theorem expectInt_other (other : ∀ n, v ≠ .int n) :
    expectInt i v = .error (.wrongType "Integer" (i.className v)) := by
  cases v with
  | int n => exact absurd rfl (other n)
  | _ => rfl

theorem yields_expectFloat (v : Value) : Yields (fun _ => True) (expectFloat i v) := by
  cases v <;> trivial

theorem yields_expectBool (v : Value) : Yields (fun _ => True) (expectBool i v) := by
  cases v <;> trivial

theorem yields_expectChar (v : Value) : Yields (fun _ => True) (expectChar i v) := by
  cases v <;> trivial

theorem yields_expectString (v : Value) : Yields (fun _ => True) (expectString i v) := by
  cases v <;> trivial

theorem yields_expectArray (v : Value) : Yields (fun r => v = .array r) (expectArray i v) := by
  cases v <;> first | rfl | trivial

theorem yields_expectBlock (v : Value) : Yields (fun c => v = .block c) (expectBlock i v) := by
  cases v <;> first | rfl | trivial

theorem yields_expectClass (v : Value) : Yields (fun c => v = .cls c) (expectClass i v) := by
  cases v <;> first | rfl | trivial

theorem yields_offset (index : Int32) (size : Nat) : Yields (· < size) (offset index size) := by
  unfold offset
  dsimp only
  split
  · rename_i h
    change index.toInt.toNat - 1 < size
    omega
  · trivial

section One

variable (arity : args.length = 1)
include arity

theorem yields_first : Yields (· ∈ args) (argument args 0) :=
  yields_argument (arity ▸ Nat.one_pos)

theorem yields_argumentText : Yields (fun _ => True) (argumentText m args) :=
  (yields_first arity).map fun _ _ => trivial

theorem yields_intOperands : Yields (fun _ => True) (intOperands i receiver args) :=
  (yields_expectInt _).bind fun _ _ => (yields_first arity).bind fun v _ =>
    (yields_expectInt v).bind fun _ _ => trivial

theorem yields_divOperands : Yields (fun _ => True) (divOperands i receiver args) := by
  refine (yields_intOperands arity).bind fun p _ => ?_
  dsimp only
  split <;> trivial

theorem yields_floatOperands : Yields (fun _ => True) (floatOperands i receiver args) :=
  (yields_expectFloat _).bind fun _ _ => (yields_first arity).bind fun v _ =>
    (yields_expectFloat v).bind fun _ _ => trivial

theorem yields_sameInt : Yields Value.Simple (sameInt i receiver args) := by
  refine (yields_expectInt _).bind fun _ _ => (yields_first arity).bind fun v _ => ?_
  cases v <;> trivial

theorem yields_sameFloat : Yields Value.Simple (sameFloat i receiver args) := by
  refine (yields_expectFloat _).bind fun _ _ => (yields_first arity).bind fun v _ => ?_
  cases v <;> trivial

theorem yields_arraySizeArg : Yields (fun _ => True) (arraySizeArg i args) := by
  refine (yields_first arity).bind fun v _ => (yields_expectInt v).bind fun n _ => ?_
  dsimp only
  split
  · trivial
  · change Yields _ (if _ then _ else _)
    split <;> trivial

theorem yields_characterOf : Yields Value.Simple (characterOf i args) := by
  refine (yields_first arity).bind fun v _ => (yields_expectInt v).bind fun n _ => ?_
  dsimp only
  split <;> trivial

theorem yields_arrayAtValue (s : Store) :
    Yields (fun v => ∃ r, receiver = .array r ∧ v ∈ s.row r) (arrayAtValue i s receiver args) := by
  refine (yields_expectArray _).bind fun r hr => (yields_first arity).bind fun v _ =>
    (yields_expectInt v).bind fun n _ => (yields_offset n _).bind fun k hk => ?_
  refine ⟨r, hr, ?_⟩
  rw [Array.getD_eq_getD_getElem?, Array.getElem?_eq_getElem hk]
  exact Array.getElem_mem hk

end One

theorem yields_arrayPut (arity : args.length = 2) (s : Store) :
    Yields (fun p => p.2.2 ∈ args) (arrayPut i s receiver args) :=
  (yields_expectArray _).bind fun _ _ => (yields_argument (by omega)).bind fun v _ =>
    (yields_expectInt v).bind fun n _ => (yields_argument (by omega)).bind fun _ hw =>
      (yields_offset n _).bind fun _ _ => hw

/-- The callee is a closure among the operands, with as many of the arguments as it takes. -/
def Among (receiver : Value) (args : List Value) : Callee → Prop
  | .method _ _ _ => False
  | .block c given => .block c ∈ receiver :: args ∧ (∀ v ∈ given, v ∈ args)
      ∧ given.length = c.code.block.nargs

theorem yields_matching {c : Closure Value} {given : List Value} (of : .block c ∈ receiver :: args)
    (h : ∀ v ∈ given, v ∈ args) : Yields (Among receiver args) (matching c given) := by
  unfold matching
  split
  · exact ⟨of, h, ‹_›⟩
  · trivial

theorem yields_blockToEnter : Yields (Among receiver args) (blockToEnter i receiver args) :=
  (yields_expectBlock _).bind fun _ hc => yields_matching (hc ▸ List.mem_cons_self) fun _ hv => hv

theorem yields_chosenBlock (arity : args.length = 2) :
    Yields (Among receiver args) (chosenBlock i receiver args) := by
  refine (yields_expectBool _).bind fun b _ => ?_
  have inside : (if b then 0 else 1) < args.length := by split <;> omega
  refine (yields_argument inside).bind fun v hv => ?_
  refine (yields_expectBlock v).bind fun c hc => ?_
  exact yields_matching (List.mem_cons_of_mem _ (hc ▸ hv)) (List.forall_mem_nil _)

theorem yields_guardedBlock (arity : args.length = 1) :
    Yields (fun o => ∀ callee ∈ o, Among receiver args callee) (guardedBlock i receiver args) := by
  refine (yields_expectBool _).bind fun b _ => (yields_first arity).bind fun v hv => ?_
  refine (yields_expectBlock v).bind fun c hc => ?_
  cases b with
  | false => exact fun _ => nofun
  | true =>
    have of : Value.block c ∈ receiver :: args := List.mem_cons_of_mem _ (hc ▸ hv)
    refine (yields_matching of (List.forall_mem_nil _)).bind ?_
    rintro callee h _ ⟨⟩
    exact h

/-! ## Replies -/

theorem gives_answer {x : Checked Value} (h : Yields Value.Simple x) :
    Gives m receiver args (answer m x) := by
  cases x with
  | ok v => exact .simple h
  | error e => exact .fault h

theorem gives_answerString {x : Checked String} (h : Yields (fun _ => True) x) :
    Gives m receiver args (answerString m x) := by
  cases x with
  | ok text => exact .string text
  | error e => exact .fault h

theorem gives_answerArray {x : Checked (Array Value)}
    (h : Yields (fun values => ∀ v ∈ values, v.Simple) x) :
    Gives m receiver args (answerArray m x) := by
  cases x with
  | ok values => exact .array h
  | error e => exact .fault h

theorem gives_enter {x : Checked Callee} (h : Yields (Among receiver args) x) :
    Gives m receiver args (enter m x) := by
  cases x with
  | ok callee =>
    cases callee with
    | method code r given => exact h.elim
    | block c given => exact .enter h.1 h.2.1 h.2.2
  | error e => exact .fault h

theorem gives_element {x : Checked Value}
    (h : Yields (fun v => ∃ r, receiver = .array r ∧ v ∈ m.store.row r) x) :
    Gives m receiver args (answer m x) := by
  cases x with
  | ok v =>
    obtain ⟨r, of, hv⟩ := h
    exact .element of hv
  | error e => exact .fault h

theorem gives_answerInstance {x : Checked Class}
    (h : Yields (fun cls => receiver = .cls cls) x) :
    Gives m receiver args (answerInstance m x) := by
  cases x with
  | ok cls => exact .object h
  | error e => exact .fault h

theorem gives_putAnswer {x : Checked (Ref × Nat × Value)}
    (h : Yields (fun p => p.2.2 ∈ args) x) : Gives m receiver args (putAnswer m x) := by
  cases x with
  | ok p => exact .put p.1 p.2.1 h
  | error e => exact .fault h

theorem gives_showLine {x : Checked String} (h : Yields (fun _ => True) x) :
    Gives m receiver args (showLine m receiver x) := by
  cases x with
  | ok line =>
    dsimp only [showLine]
    split
    · exact .write _
    · exact .fault trivial
  | error e => exact .fault h

/-- **What a primitive does**, given as many arguments as it takes. -/
theorem apply_gives (p : Primitive) (i : Image) (m : Memory) (receiver : Value)
    (arity : args.length = p.arity) : Gives m receiver args (p.apply i m receiver args) := by
  cases p with
  | objectAsString | objectClassName => exact .string _
  | objectSame => exact gives_answer ((yields_first arity).map fun _ _ => trivial)
  | objectHash => exact .simple trivial
  | objectBasicNew => exact gives_answerInstance (yields_expectClass receiver)
  | objectError => exact gives_answer ((yields_argumentText arity).bind fun _ _ => trivial)
  | integerAdd | integerSub | integerMul | integerLt | integerLe | integerGt | integerGe =>
    exact gives_answer ((yields_intOperands arity).map fun _ _ => trivial)
  | integerDiv | integerMod =>
    exact gives_answer ((yields_divOperands arity).map fun _ _ => trivial)
  | integerEq => exact gives_answer (yields_sameInt arity)
  | integerAsFloat => exact gives_answer ((yields_expectInt _).map fun _ _ => trivial)
  | floatAdd | floatSub | floatMul | floatDiv | floatLt | floatLe | floatGt | floatGe =>
    exact gives_answer ((yields_floatOperands arity).map fun _ _ => trivial)
  | floatEq => exact gives_answer (yields_sameFloat arity)
  | floatAsInteger => exact gives_answer ((yields_expectFloat _).map fun _ _ => trivial)
  | stringNew => exact gives_answerString (yields_argumentText arity)
  | stringCat =>
    exact gives_answerString ((yields_expectString _).bind fun _ _ =>
      (yields_argumentText arity).bind fun _ _ => trivial)
  | stringEq =>
    exact gives_answer ((yields_expectString _).bind fun _ _ =>
      (yields_argumentText arity).bind fun _ _ => trivial)
  | stringAsArray =>
    refine gives_answerArray ((yields_expectString _).map fun s _ v hv => ?_)
    obtain ⟨c, -, rfl⟩ := List.mem_map.1 (List.mem_toArray.1 hv)
    trivial
  | arrayNew =>
    refine gives_answerArray ((yields_arraySizeArg arity).map fun n _ v hv => ?_)
    rw [Array.eq_of_mem_replicate hv]
    trivial
  | arraySize => exact gives_answer ((yields_expectArray _).map fun _ _ => trivial)
  | arrayAt => exact gives_element (yields_arrayAtValue arity m.store)
  | arrayAtPut => exact gives_putAnswer (yields_arrayPut arity m.store)
  | booleanIfTrueIfFalse => exact gives_enter (yields_chosenBlock arity)
  | booleanIfTrue =>
    have found : Yields (fun o => ∀ callee ∈ o, Among receiver args callee)
        (guardedBlock i receiver args) := yields_guardedBlock arity
    simp only [apply]
    cases hx : guardedBlock i receiver args with
    | ok o =>
      rw [hx] at found
      cases o with
      | none => exact .simple trivial
      | some callee =>
        have among : Yields (Among receiver args) (.ok callee) := found callee rfl
        exact gives_enter (m := m) among
    | error e =>
      rw [hx] at found
      exact .fault found
  | booleanNot => exact gives_answer ((yields_expectBool _).map fun _ _ => trivial)
  | characterAsInteger => exact gives_answer ((yields_expectChar _).map fun _ _ => trivial)
  | characterNew => exact gives_answer (yields_characterOf arity)
  | blockValue | blockValue1 | blockValue2 => exact gives_enter yields_blockToEnter
  | transcriptShow => exact gives_showLine (yields_argumentText arity)

end Primitive

/-- **What calling a method comes to at once:** the call of its code, if it has any, with as many
arguments as it takes; else what a primitive gives. -/
theorem invoke_gives (i : Image) (m : Memory) (receiver : Value) (code : Code)
    (args : List Value) :
    (code.block.primitive = none ∧ args.length = code.block.nargs
        ∧ invoke i m receiver code args = .enter (.method code receiver args) m)
      ∨ Primitive.Gives m receiver args (invoke i m receiver code args) := by
  by_cases arity : args.length = code.arity
  · rw [invoke, if_neg (not_not_intro arity)]
    unfold Code.arity at arity
    cases hp : code.block.primitive with
    | none =>
      rw [hp] at arity
      exact .inl ⟨rfl, arity, rfl⟩
    | some p =>
      rw [hp] at arity
      exact .inr (p.apply_gives i m receiver arity)
  · rw [invoke, if_pos arity]
    exact .inr (.fault (show (Cause.argumentCount _ _ _).Ordinary from trivial))

end Colloquy
