import Colloquy.Machine.Effect

/-!
# Faults of instructions

A call is refused by the machine when the call stack is full.  Nothing that an instruction computes
fails that way, whatever code it stands in and whatever operands it finds
(`Call.execute_roomy`).
-/

namespace Colloquy

/-- The computation does not fail for want of room for a call. -/
def Checked.Roomy {α : Type} (x : Checked α) : Prop := x ≠ .error .callStackOverflow

namespace Checked

variable {α β : Type} {x : Checked α}

theorem Roomy.ok (a : α) : Roomy (.ok a) := by simp [Roomy]

theorem Roomy.error {cause : Cause} (h : cause ≠ .callStackOverflow) :
    Roomy (.error cause : Checked α) := by
  simpa [Roomy] using h

theorem Roomy.ne {cause : Cause} (h : x.Roomy) (failed : x = .error cause) :
    cause ≠ .callStackOverflow :=
  fun he => h (failed.trans (congrArg _ he))

theorem Roomy.bind {f : α → Checked β} (hx : x.Roomy) (hf : ∀ a, (f a).Roomy) :
    Roomy (x >>= f) := by
  cases x with
  | ok a => exact hf a
  | error e => exact fun h => hx (by cases h; rfl)

theorem Roomy.map {f : α → β} (hx : x.Roomy) : Roomy (x.map f) := by
  cases x with
  | ok a => exact .ok _
  | error e => exact fun h => hx (by cases h; rfl)

end Checked

open Checked (Roomy)

/-- The fault of a reply, if it is one, is not that of a refused call. -/
def Reply.Roomy : Reply → Prop
  | .fault cause _ => cause ≠ .callStackOverflow
  | _ => True

/-- The fault of an effect, if it is one, is not that of a refused call. -/
def Effect.Roomy : Effect → Prop
  | .fault _ cause _ => cause ≠ .callStackOverflow
  | _ => True

namespace Primitive

variable {i : Image} {m : Memory} {receiver v : Value} {args : List Value}

theorem roomy_argument (k : Nat) : Roomy (argument args k) := by
  unfold argument
  split
  · exact .ok _
  · exact .error (by simp)

theorem roomy_wrongType {α : Type} (expected : String) (got : Value) :
    Roomy (wrongType i expected got : Checked α) := .error (by simp)

theorem roomy_expectInt (v : Value) : Roomy (expectInt i v) := by
  cases v <;> first | exact .ok _ | exact roomy_wrongType _ _

theorem roomy_expectFloat (v : Value) : Roomy (expectFloat i v) := by
  cases v <;> first | exact .ok _ | exact roomy_wrongType _ _

theorem roomy_expectBool (v : Value) : Roomy (expectBool i v) := by
  cases v <;> first | exact .ok _ | exact roomy_wrongType _ _

theorem roomy_expectChar (v : Value) : Roomy (expectChar i v) := by
  cases v <;> first | exact .ok _ | exact roomy_wrongType _ _

theorem roomy_expectString (v : Value) : Roomy (expectString i v) := by
  cases v <;> first | exact .ok _ | exact roomy_wrongType _ _

theorem roomy_expectArray (v : Value) : Roomy (expectArray i v) := by
  cases v <;> first | exact .ok _ | exact roomy_wrongType _ _

theorem roomy_expectBlock (v : Value) : Roomy (expectBlock i v) := by
  cases v <;> first | exact .ok _ | exact roomy_wrongType _ _

theorem roomy_expectClass (v : Value) : Roomy (expectClass i v) := by
  cases v <;> first | exact .ok _ | exact roomy_wrongType _ _

theorem roomy_offset (index : Int32) (size : Nat) : Roomy (offset index size) := by
  unfold offset
  dsimp only
  split
  · exact .ok _
  · exact .error (by simp)

theorem roomy_matching (c : Closure Value) (given : List Value) : Roomy (matching c given) := by
  unfold matching
  split
  · exact .ok _
  · exact .error (by simp)

theorem roomy_argumentText : Roomy (argumentText m args) := (roomy_argument 0).map

theorem roomy_intOperands : Roomy (intOperands i receiver args) :=
  (roomy_expectInt _).bind fun _ => (roomy_argument 0).bind fun v =>
    (roomy_expectInt v).bind fun _ => .ok _

theorem roomy_floatOperands : Roomy (floatOperands i receiver args) :=
  (roomy_expectFloat _).bind fun _ => (roomy_argument 0).bind fun v =>
    (roomy_expectFloat v).bind fun _ => .ok _

theorem roomy_divOperands : Roomy (divOperands i receiver args) := by
  refine roomy_intOperands.bind fun p => ?_
  dsimp only
  split
  · exact .error (by simp)
  · exact .ok _

theorem roomy_sameInt : Roomy (sameInt i receiver args) := by
  refine (roomy_expectInt _).bind fun _ => (roomy_argument 0).bind fun v => ?_
  cases v <;> exact .ok _

theorem roomy_sameFloat : Roomy (sameFloat i receiver args) := by
  refine (roomy_expectFloat _).bind fun _ => (roomy_argument 0).bind fun v => ?_
  cases v <;> exact .ok _

theorem roomy_arraySizeArg : Roomy (arraySizeArg i args) := by
  refine (roomy_argument 0).bind fun v => (roomy_expectInt v).bind fun n => ?_
  dsimp only
  split
  · exact .error (by simp)
  · change Roomy (if _ then _ else _)
    split
    · exact .error (by simp)
    · exact .ok _

theorem roomy_characterOf : Roomy (characterOf i args) := by
  refine (roomy_argument 0).bind fun v => (roomy_expectInt v).bind fun n => ?_
  dsimp only
  split
  · exact .ok _
  · exact .error (by simp)

theorem roomy_arrayAtValue (s : Store) : Roomy (arrayAtValue i s receiver args) :=
  (roomy_expectArray _).bind fun _ => (roomy_argument 0).bind fun v =>
    (roomy_expectInt v).bind fun n => (roomy_offset n _).bind fun _ => .ok _

theorem roomy_arrayPut (s : Store) : Roomy (arrayPut i s receiver args) :=
  (roomy_expectArray _).bind fun _ => (roomy_argument 0).bind fun v =>
    (roomy_expectInt v).bind fun n => (roomy_argument 1).bind fun _ =>
      (roomy_offset n _).bind fun _ => .ok _

theorem roomy_blockToEnter : Roomy (blockToEnter i receiver args) :=
  (roomy_expectBlock _).bind fun c => roomy_matching c args

theorem roomy_chosenBlock : Roomy (chosenBlock i receiver args) :=
  (roomy_expectBool _).bind fun _ => (roomy_argument _).bind fun v =>
    (roomy_expectBlock v).bind fun c => roomy_matching c []

theorem roomy_guardedBlock : Roomy (guardedBlock i receiver args) := by
  refine (roomy_expectBool _).bind fun b => (roomy_argument 0).bind fun v =>
    (roomy_expectBlock v).bind fun c => ?_
  cases b with
  | false => exact .ok _
  | true => exact (roomy_matching c []).bind fun _ => .ok _

/-! ### Replies -/

theorem roomy_answer {x : Checked Value} (h : Roomy x) : (answer m x).Roomy := by
  cases x with
  | ok v => trivial
  | error e => exact h.ne rfl

theorem roomy_answerString {x : Checked String} (h : Roomy x) : (answerString m x).Roomy := by
  cases x with
  | ok v => trivial
  | error e => exact h.ne rfl

theorem roomy_answerArray {x : Checked (Array Value)} (h : Roomy x) :
    (answerArray m x).Roomy := by
  cases x with
  | ok v => trivial
  | error e => exact h.ne rfl

theorem roomy_enter {x : Checked Callee} (h : Roomy x) : (enter m x).Roomy := by
  cases x with
  | ok v => trivial
  | error e => exact h.ne rfl

theorem roomy_answerInstance {x : Checked Class} (h : Roomy x) :
    (answerInstance m x).Roomy := by
  cases x with
  | ok cls => trivial
  | error e => exact h.ne rfl

theorem roomy_putAnswer {x : Checked (Ref × Nat × Value)} (h : Roomy x) :
    (putAnswer m x).Roomy := by
  cases x with
  | ok p => trivial
  | error e => exact h.ne rfl

theorem roomy_showLine {x : Checked String} (h : Roomy x) :
    (showLine m receiver x).Roomy := by
  cases x with
  | ok line =>
    dsimp only [showLine]
    split
    · trivial
    · exact Cause.noConfusion
  | error e => exact h.ne rfl

/-- **No primitive fails as a refused call does**, whatever it is given. -/
theorem apply_roomy (p : Primitive) (i : Image) (m : Memory) (receiver : Value)
    (args : List Value) : (p.apply i m receiver args).Roomy := by
  cases p with
  | objectAsString | objectClassName | objectHash => trivial
  | objectSame => exact roomy_answer (roomy_argument 0).map
  | objectBasicNew => exact roomy_answerInstance (roomy_expectClass receiver)
  | objectError => exact roomy_answer (roomy_argumentText.bind fun _ => .error (by simp))
  | integerDiv | integerMod => exact roomy_answer roomy_divOperands.map
  | integerEq => exact roomy_answer roomy_sameInt
  | integerAsFloat => exact roomy_answer (roomy_expectInt _).map
  | integerAdd | integerSub | integerMul | integerLt | integerLe | integerGt | integerGe =>
    exact roomy_answer roomy_intOperands.map
  | floatAdd | floatSub | floatMul | floatDiv | floatLt | floatLe | floatGt | floatGe =>
    exact roomy_answer roomy_floatOperands.map
  | floatEq => exact roomy_answer roomy_sameFloat
  | floatAsInteger => exact roomy_answer (roomy_expectFloat _).map
  | stringNew => exact roomy_answerString roomy_argumentText
  | stringCat =>
    exact roomy_answerString ((roomy_expectString _).bind fun _ =>
      roomy_argumentText.bind fun _ => .ok _)
  | stringEq =>
    exact roomy_answer ((roomy_expectString _).bind fun _ =>
      roomy_argumentText.bind fun _ => .ok _)
  | stringAsArray => exact roomy_answerArray (roomy_expectString _).map
  | arrayNew => exact roomy_answerArray roomy_arraySizeArg.map
  | arraySize => exact roomy_answer (roomy_expectArray _).map
  | arrayAt => exact roomy_answer (roomy_arrayAtValue _)
  | arrayAtPut => exact roomy_putAnswer (roomy_arrayPut _)
  | booleanIfTrueIfFalse => exact roomy_enter roomy_chosenBlock
  | booleanIfTrue =>
    have found : Roomy (guardedBlock i receiver args) := roomy_guardedBlock
    simp only [apply]
    cases hx : guardedBlock i receiver args with
    | ok o => cases o <;> trivial
    | error e => exact found.ne hx
  | booleanNot => exact roomy_answer (roomy_expectBool _).map
  | characterAsInteger => exact roomy_answer (roomy_expectChar _).map
  | characterNew => exact roomy_answer roomy_characterOf
  | blockValue | blockValue1 | blockValue2 => exact roomy_enter roomy_blockToEnter
  | transcriptShow => exact roomy_showLine roomy_argumentText

end Primitive

theorem invoke_roomy (i : Image) (m : Memory) (receiver : Value) (code : Code)
    (args : List Value) : (invoke i m receiver code args).Roomy := by
  unfold invoke
  split
  · exact Cause.noConfusion
  · split
    · exact Primitive.apply_roomy _ i m receiver args
    · trivial

/-! ### Instructions -/

namespace Image

variable (i : Image) (receiver : Value) (selector : String)

theorem roomy_methodFrom (start : Class) (whom : String) :
    Roomy (i.methodFrom start whom receiver selector) := by
  unfold methodFrom
  split
  · exact .error (by simp)
  · split
    · exact .error (by simp)
    · split
      · exact .error (by simp)
      · exact .ok _

theorem roomy_method : Roomy (i.method receiver selector) := i.roomy_methodFrom _ _ _ _

theorem roomy_superMethod (sender : Code) : Roomy (i.superMethod sender receiver selector) := by
  unfold superMethod
  split
  · exact .error (by simp)
  · split
    · exact .error (by simp)
    · exact i.roomy_methodFrom _ _ _ _

end Image

namespace Memory

variable (m : Memory) (f : FrameId)

theorem roomy_frame : Roomy (m.frame f) := by
  unfold frame
  split
  · exact .ok _
  · exact .error (by simp)

theorem roomy_outward (depth : UInt16) (hops : Nat) : Roomy (m.outward depth hops f) := by
  induction hops generalizing f with
  | zero => exact .ok _
  | succ hops ih =>
    refine (m.roomy_frame f).bind fun fr => ?_
    split
    · exact ih _
    · exact .error (by simp)

theorem roomy_loadLocal (depth slot : UInt16) : Roomy (m.loadLocal f depth slot) := by
  refine (m.roomy_outward f depth _).bind fun holder => (m.roomy_frame holder).bind fun fr => ?_
  split
  · exact .ok _
  · exact .error (by simp)

theorem roomy_localFrame (depth slot : UInt16) : Roomy (m.localFrame f depth slot) := by
  refine (m.roomy_outward f depth _).bind fun holder => (m.roomy_frame holder).bind fun fr => ?_
  split
  · exact .ok _
  · exact .error (by simp)

theorem roomy_fieldRow (i : Image) (index : Nat) : Roomy (m.fieldRow i f index) := by
  refine (m.roomy_frame f).bind fun fr => ?_
  split
  · dsimp only
    split
    · exact .ok _
    · exact .error (by simp)
  · exact .error (by simp)

theorem roomy_closure (index : Nat) : Roomy (m.closure f index) := by
  refine (m.roomy_frame f).bind fun fr => (m.roomy_frame fr.home).bind fun home => ?_
  dsimp only
  split
  · exact .ok _
  · exact .error (by simp)

end Memory

theorem Effect.roomy_push {x : Checked Value} (h : Checked.Roomy x) (stack : List Value)
    (m : Memory) : (Effect.push stack m x).Roomy := by
  cases x with
  | ok v => trivial
  | error e => exact h.ne rfl

namespace Call

variable (c : Call) (i : Image) (m : Memory)

theorem roomy_literal (index : UInt16) : Roomy (c.literal index) := by
  unfold literal
  split
  · exact .ok _
  · exact .error (by simp)

theorem roomy_character (code : UInt16) : Roomy (character code) := by
  unfold character
  split
  · exact .ok _
  · exact .error (by simp)

theorem roomy_global (index : UInt16) : Roomy (c.global i index) := by
  refine (c.roomy_literal index).bind fun name => ?_
  split
  · exact .ok _
  · exact .error (by simp)

theorem roomy_send (argc : Nat) (selector : String) {find : Value → Checked Code}
    (finds : ∀ v, Roomy (find v)) : (c.send i m argc selector find).Roomy := by
  unfold send
  split
  · exact Cause.noConfusion
  · rename_i receiver below _
    have found := finds receiver
    split
    · rename_i cause hx
      exact found.ne hx
    · rename_i code _
      dsimp only
      generalize m.trace _ = m
      have replied := invoke_roomy i m receiver code (c.stack.take argc).reverse
      cases hr : invoke i m receiver code (c.stack.take argc).reverse with
      | answer v m' => trivial
      | enter callee m' => trivial
      | fault cause m' =>
        rw [hr] at replied
        exact replied

/-- **No instruction fails as a refused call does.** -/
theorem execute_roomy (instruction : Instruction) : (c.execute i m instruction).Roomy := by
  cases instruction with
  | pushNil | pushTrue | pushFalse | pushInt _ | pushFloat _ | debug _ _ => trivial
  | pushSelf => exact Effect.roomy_push (m.roomy_frame _).map _ _
  | pushChar code => exact Effect.roomy_push (roomy_character code) _ _
  | pushArray count =>
    simp only [execute, buildArray]
    split
    · exact Cause.noConfusion
    · trivial
  | pushLiteral index => exact Effect.roomy_push (c.roomy_literal index).map _ _
  | pushGlobal index => exact Effect.roomy_push (c.roomy_global i index) _ _
  | pushField index =>
    exact Effect.roomy_push ((m.roomy_fieldRow _ i _).bind fun _ => .ok _) _ _
  | pushLocal depth slot => exact Effect.roomy_push (m.roomy_loadLocal _ depth slot) _ _
  | pop | ret | blockReturn =>
    simp only [execute]
    split
    · exact Cause.noConfusion
    · trivial
  | storeField index =>
    simp only [execute, storeField]
    split
    · exact Cause.noConfusion
    · have found := m.roomy_fieldRow c.frame i index.toNat
      split
      · trivial
      · rename_i cause hx
        exact found.ne hx
  | storeLocal depth slot =>
    simp only [execute, storeLocal]
    split
    · exact Cause.noConfusion
    · have found := m.roomy_localFrame c.frame depth slot
      split
      · trivial
      · rename_i cause hx
        exact found.ne hx
  | send argc index =>
    have named := c.roomy_literal index
    simp only [execute]
    split
    · exact c.roomy_send i m _ _ fun v => i.roomy_method v _
    · rename_i cause hx
      exact named.ne hx
  | sendSuper argc index =>
    have named := c.roomy_literal index
    simp only [execute]
    split
    · exact c.roomy_send i m _ _ fun v => i.roomy_superMethod v _ _
    · rename_i cause hx
      exact named.ne hx
  | block index =>
    have made := m.roomy_closure c.frame index.toNat
    simp only [execute, makeClosure]
    split
    · trivial
    · rename_i cause hx
      exact made.ne hx

end Call

end Colloquy
