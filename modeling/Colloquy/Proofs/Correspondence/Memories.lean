import Colloquy.Proofs.Arena.Keeping
import Colloquy.Proofs.Arena.Shape
import Colloquy.Proofs.Coherence.Steps
import Colloquy.Proofs.Correspondence.Images

/-!
# Memories that correspond

Two machines that carry out other code may still do the same.  A `Correspondence` says which code
may stand for which, in which values the runs may differ, and which faults count as the same.
Memories correspond if their frames stand in the same slots and hold values and code that
correspond, and their data are alike (`Memory.UpTo`).

Main statement: calling methods that correspond gives replies that correspond (`invoke_upTo`).
-/

namespace Colloquy

open Primitive (Agree)

/-! ## Correspondences -/

/-- How two runs may differ.  Of the code that is carried out, `codes` relates the methods. -/
structure Correspondence extends Likeness where
  code : Code → Code → Prop
  /-- What is ahead in two pieces of code, at an offset into each. -/
  ahead : Code → Nat → Code → Nat → Prop
  faults : Cause → Cause → Prop

/-- The values are the same but for what corresponds. -/
abbrev Value.UpTo (K : Correspondence) : Value → Value → Prop :=
  Value.Like K.toLikeness fun _ => True

/-- The callees run code that corresponds on values that do. -/
abbrev Callee.UpTo (K : Correspondence) : Callee → Callee → Prop :=
  Callee.Like K.toLikeness fun _ => True

/-- The closures were made at the same time by the same frame. -/
structure Closure.UpTo (K : Correspondence) (c c' : Closure Value) : Prop where
  code : K.code c.code c'.code
  enclosing : c'.enclosing = c.enclosing
  home : c'.home = c.home
  receiver : c.receiver.UpTo K c'.receiver

/-- What has to be known of code that corresponds.  Blocks may go by other names, which show in the
messages about a wrong number of arguments and about a return that comes too late. -/
structure Correspondence.Lawful (K : Correspondence) : Prop where
  linked : K.toLikeness.Linked
  method : ∀ {c c' : Code}, K.codes c c' → K.code c c'
  head : ∀ {c c' : Code}, K.codes c c' → c.block.SameHead c'.block
  owner : ∀ {c c' : Code}, K.code c c' → c'.owner = c.owner
  nargs : ∀ {c c' : Code}, K.code c c' → c'.block.nargs = c.block.nargs
  nlocals : ∀ {c c' : Code}, K.code c c' → c'.block.nlocals = c.block.nlocals
  fresh : ∀ {c c' : Code}, K.code c c' → K.ahead c 0 c' 0
  closure : ∀ {c c' : Closure Value}, K.closures (fun _ => True) c c' → c.UpTo K c'
  same : ∀ e, K.faults e e
  blockArgumentCount : ∀ {c c' : Code}, K.code c c' → ∀ expected given,
    K.faults (.blockArgumentCount c.block.qualified expected given)
      (.blockArgumentCount c'.block.qualified expected given)
  cannotReturn : ∀ {c c' : Code}, K.code c c' → ∀ cls method,
    K.faults (.cannotReturn cls c.block.name method) (.cannotReturn cls c'.block.name method)

variable {K : Correspondence} {i i' : Image} {m m' : Memory} {v v' receiver receiver' : Value}
  {args args' : List Value} {id : FrameId}

/-! ## Computations -/

/-- The computations end in faults related by `F` or in values related by `T`. -/
inductive Checked.Akin {α β : Type} (F : Cause → Cause → Prop) (T : α → β → Prop) :
    Checked α → Checked β → Prop where
  | ok {a : α} {b : β} (h : T a b) : Akin F T (.ok a) (.ok b)
  | error {e e' : Cause} (h : F e e') : Akin F T (.error e) (.error e')

namespace Checked.Akin

variable {α β γ δ : Type} {F : Cause → Cause → Prop} {T : α → β → Prop} {U : γ → δ → Prop}
  {x : Checked α} {y : Checked β}

theorem of_agree (same : ∀ e, F e e) (h : Agree T x y) : Akin F T x y := by
  rcases h.cases with ⟨a, b, rfl, rfl, related⟩ | ⟨e, rfl, rfl⟩
  · exact .ok related
  · exact .error (same e)

theorem bind {f : α → Checked γ} {g : β → Checked δ} (h : Akin F T x y)
    (hfg : ∀ a b, T a b → Akin F U (f a) (g b)) : Akin F U (x >>= f) (y >>= g) := by
  cases h with
  | ok related => exact hfg _ _ related
  | error akin => exact .error akin

end Checked.Akin

open Checked (Akin)

/-! ## Memories -/

/-- The frames are the same but for code and source positions. -/
structure Frame.UpTo (K : Correspondence) (f f' : Frame Value) : Prop where
  code : K.code f.code f'.code
  method : f.enclosing = none → K.codes f.code f'.code
  locals : List.Forall₂ (Value.UpTo K) f.locals.toList f'.locals.toList
  receiver : f.receiver.UpTo K f'.receiver
  invoking : f'.invoking = f.invoking
  enclosing : f'.enclosing = f.enclosing
  home : f'.home = f.home
  returned : f'.returned = f.returned

/-- The memories are the same but for code, source positions and logs. -/
structure Memory.UpTo (K : Correspondence) (m m' : Memory) : Prop where
  frames : m.frames.Alike (Frame.UpTo K) m'.frames
  data : m.Like K.toLikeness (fun _ => True) m'

theorem Frame.UpTo.pins {f f' : Frame Value} (h : f.UpTo K f') : f'.pins = f.pins := by
  rw [Frame.pins_eq, Frame.pins_eq, h.enclosing]

namespace Memory.UpTo

/-- The logs may be others. -/
theorem relog {m₁ m₁' : Memory} (h : m.UpTo K m') (logs : m.Logs m₁) (logs' : m'.Logs m₁') :
    m₁.UpTo K m₁' := by
  refine ⟨?_, ⟨?_, ?_, ?_⟩⟩
  · rw [logs.frames, logs'.frames]
    exact h.frames
  · rw [logs.data.store, logs'.data.store]
    exact h.data.store
  · rw [logs.data.serial, logs'.data.serial]
    exact h.data.serial
  · rw [logs.data.transcript, logs'.data.transcript]
    exact h.data.transcript

theorem trace (h : m.UpTo K m') (line line' : Memory → String) :
    (m.trace line).UpTo K (m'.trace line') :=
  h.relog (.trace m line) (.trace m' line')

/-- The same frame changes in both. -/
theorem modify (h : m.UpTo K m') (id : FrameId) {g g' : Frame Value → Frame Value}
    (hg : ∀ f f', f.UpTo K f' → (g f).UpTo K (g' f')) :
    Memory.UpTo K { m with frames := m.frames.modify id g }
      { m' with frames := m'.frames.modify id g' } :=
  ⟨h.frames.modify id hg, h.data.store, h.data.serial, h.data.transcript⟩

/-- Source positions do not matter. -/
theorem setPlace (h : m.UpTo K m') (id : FrameId) (place place' : Place) :
    (m.setPlace id place).UpTo K (m'.setPlace id place') :=
  h.modify id fun _ _ hf => ⟨hf.code, hf.method, hf.locals, hf.receiver, hf.invoking, hf.enclosing,
    hf.home, hf.returned⟩

/-- The store has changed in both. -/
theorem restore (h : m.UpTo K m') {store store' : Store}
    (hs : store.Like K.toLikeness (fun _ => True) store') :
    Memory.UpTo K { m with store } { m' with store := store' } :=
  ⟨h.frames, hs, h.data.serial, h.data.transcript⟩

theorem frame (h : m.UpTo K m') (id : FrameId) :
    Agree (Frame.UpTo K) (m.frame id) (m'.frame id) := by
  have here := h.frames.get? id
  unfold Memory.frame
  generalize m.frames.get? id = o at here
  generalize m'.frames.get? id = o' at here
  cases here with
  | none => rfl
  | some hf => exact hf

theorem context (h : m.UpTo K m') (id : FrameId) (depth : UInt16) :
    Agree Eq (m.context id depth) (m'.context id depth) := by
  unfold Memory.context
  generalize depth.toNat = hops
  induction hops generalizing id with
  | zero => rfl
  | succ hops ih =>
    refine (h.frame id).bind fun f f' hf => ?_
    rw [hf.enclosing]
    cases f.enclosing with
    | none => rfl
    | some outer => exact ih outer

theorem loadLocal (h : m.UpTo K m') (id : FrameId) (depth slot : UInt16) :
    Agree (Value.UpTo K) (m.loadLocal id depth slot) (m'.loadLocal id depth slot) := by
  refine (h.context id depth).bind ?_
  rintro holder _ rfl
  refine (h.frame holder).bind fun f f' hf => ?_
  have entry := forall₂_getElem? hf.locals slot.toNat
  rw [Array.getElem?_toList, Array.getElem?_toList] at entry
  generalize f.locals[slot.toNat]? = o at entry
  generalize f'.locals[slot.toNat]? = o' at entry
  cases entry with
  | none => rfl
  | some hv => exact hv

theorem localFrame (h : m.UpTo K m') (id : FrameId) (depth slot : UInt16) :
    Agree Eq (m.localFrame id depth slot) (m'.localFrame id depth slot) := by
  refine (h.context id depth).bind ?_
  rintro holder _ rfl
  refine (h.frame holder).bind fun f f' hf => ?_
  have size : f'.locals.size = f.locals.size := by simpa using hf.locals.length_eq.symm
  rw [size]
  split <;> rfl

theorem setLocal (h : m.UpTo K m') (id : FrameId) (slot : Nat) (hv : v.UpTo K v') :
    (m.setLocal id slot v).UpTo K (m'.setLocal id slot v') := by
  refine h.modify id fun f f' hf => ?_
  refine ⟨hf.code, hf.method, ?_, hf.receiver, hf.invoking, hf.enclosing, hf.home, hf.returned⟩
  dsimp only
  rw [Array.toList_setIfInBounds, Array.toList_setIfInBounds]
  exact forall₂_set hf.locals slot hv

section Fields

variable (fair : K.Fair i i')
include fair

theorem fieldRow (h : m.UpTo K m') (id : FrameId) (index : Nat) :
    Agree Eq (m.fieldRow i id index) (m'.fieldRow i' id index) := by
  refine (h.frame id).bind fun f f' hf => ?_
  have receiver := hf.receiver
  have name := hf.receiver.className_eq fair
  generalize f.receiver = v at receiver name
  generalize f'.receiver = v' at receiver name
  cases receiver with
  | object same row =>
    dsimp only
    rw [h.data.store.size_row row, fair.name same]
    split <;> rfl
  | _ => exact congrArg Cause.noFields name

theorem loadField (h : m.UpTo K m') (id : FrameId) (index : Nat) :
    Agree (Value.UpTo K) (m.loadField i id index) (m'.loadField i' id index) := by
  refine (h.fieldRow fair id index).bind ?_
  rintro row _ rfl
  exact h.data.store.getD trivial index

end Fields

end Memory.UpTo

/-! ## Replies -/

/-- The replies are of one kind. -/
inductive Reply.UpTo (K : Correspondence) : Reply → Reply → Prop where
  | answer {v v' : Value} {m m' : Memory} (hv : v.UpTo K v') (hm : m.UpTo K m') :
      UpTo K (.answer v m) (.answer v' m')
  | enter {callee callee' : Callee} {m m' : Memory} (hc : callee.UpTo K callee')
      (hm : m.UpTo K m') : UpTo K (.enter callee m) (.enter callee' m')
  | fault {e e' : Cause} {m m' : Memory} (akin : K.faults e e') (hm : m.UpTo K m') :
      UpTo K (.fault e m) (.fault e' m')

section Replies

variable (lawful : K.Lawful)
include lawful

theorem Memory.UpTo.reply {r r' : Reply} (hm : m.UpTo K m')
    (h : Reply.Like K.toLikeness (fun _ => True) m m' r r') : r.UpTo K r' := by
  cases h with
  | answer beside beside' data hv =>
    rw [Store.grown_true] at data hv
    refine .answer hv ⟨?_, data⟩
    rw [beside.frames, beside'.frames]
    exact hm.frames
  | enter hc => exact .enter hc hm
  | fault cause => exact .fault (lawful.same cause) hm

namespace Primitive

theorem akin_matching {c c' : Closure Value} (hc : K.closures (fun _ => True) c c')
    (ha : List.Forall₂ (Value.UpTo K) args args') :
    Akin K.faults (Callee.UpTo K) (matching c args) (matching c' args') := by
  have code := (lawful.closure hc).code
  simp only [matching, lawful.nargs code, ← ha.length_eq]
  split
  · exact .ok (.block hc ha ‹_›)
  · exact .error (lawful.blockArgumentCount code _ _)

omit lawful in
theorem reply_enter_upTo {x x' : Checked Callee} (hm : m.UpTo K m')
    (h : Akin K.faults (Callee.UpTo K) x x') : (enter m x).UpTo K (enter m' x') := by
  cases h with
  | ok hc => exact .enter hc hm
  | error akin => exact .fault akin hm

variable (fair : K.Fair i i') (hr : receiver.UpTo K receiver')
  (ha : List.Forall₂ (Value.UpTo K) args args')
include fair hr ha

theorem akin_blockToEnter :
    Akin K.faults (Callee.UpTo K) (blockToEnter i receiver args)
      (blockToEnter i' receiver' args') :=
  (Akin.of_agree lawful.same (agree_expectBlock fair hr)).bind fun _ _ hc =>
    akin_matching lawful hc ha

theorem akin_chosenBlock :
    Akin K.faults (Callee.UpTo K) (chosenBlock i receiver args)
      (chosenBlock i' receiver' args') := by
  refine (Akin.of_agree lawful.same (agree_expectBool fair hr)).bind ?_
  rintro b _ rfl
  refine (Akin.of_agree lawful.same (agree_argument ha _)).bind fun _ _ hv =>
    (Akin.of_agree lawful.same (agree_expectBlock fair hv)).bind fun _ _ hc => ?_
  exact akin_matching lawful hc .nil

theorem akin_guardedBlock :
    Akin K.faults (Option.Rel (Callee.UpTo K)) (guardedBlock i receiver args)
      (guardedBlock i' receiver' args') := by
  refine (Akin.of_agree lawful.same (agree_expectBool fair hr)).bind ?_
  rintro b _ rfl
  refine (Akin.of_agree lawful.same (agree_argument ha 0)).bind fun _ _ hv =>
    (Akin.of_agree lawful.same (agree_expectBlock fair hv)).bind fun _ _ hc => ?_
  cases b with
  | false => exact .ok .none
  | true => exact (akin_matching lawful hc .nil).bind fun _ _ hcallee => .ok (.some hcallee)

/-- **A primitive does the same on operands that correspond.** -/
theorem apply_upTo (p : Primitive) (hm : m.UpTo K m')
    (hash : p = objectHash → receiver'.identityHash = receiver.identityHash) :
    (p.apply i m receiver args).UpTo K (p.apply i' m' receiver' args') := by
  cases blocks : p.runsBlock with
  | false => exact hm.reply lawful (apply_like_of_plain p blocks fair hm.data hr ha hash)
  | true =>
    cases p with
    | booleanIfTrueIfFalse =>
      exact reply_enter_upTo hm (akin_chosenBlock lawful fair hr ha)
    | booleanIfTrue =>
      have chosen := akin_guardedBlock lawful fair hr ha
      simp only [apply]
      generalize guardedBlock i receiver args = x at chosen
      generalize guardedBlock i' receiver' args' = x' at chosen
      cases chosen with
      | ok ho =>
        cases ho with
        | none => exact .answer .nil hm
        | some hc => exact .enter hc hm
      | error akin => exact .fault akin hm
    | blockValue | blockValue1 | blockValue2 =>
      exact reply_enter_upTo hm (akin_blockToEnter lawful fair hr ha)
    | _ => cases blocks

end Primitive

/-- **Calling methods that correspond** gives replies that correspond. -/
theorem invoke_upTo {code code' : Code} (hi : i.UpTo K.toLikeness i') (same : K.codes code code')
    (hm : m.UpTo K m') (hr : receiver.UpTo K receiver')
    (ha : List.Forall₂ (Value.UpTo K) args args')
    (hash : code.block.primitive = some .objectHash → args = [] →
      receiver'.identityHash = receiver.identityHash) :
    (invoke i m receiver code args).UpTo K (invoke i' m' receiver' code' args') := by
  have head := lawful.head same
  have arity : code'.arity = code.arity := by
    simp only [Code.arity, head.primitive, head.nargs]
  simp only [invoke, arity, head.qualified, head.primitive, ← ha.length_eq]
  split
  · exact .fault (lawful.same _) hm
  · rename_i count
    cases hp : code.block.primitive with
    | none => exact .enter (.method same hr ha) hm
    | some p =>
      refine Primitive.apply_upTo lawful (hi.fair lawful.linked) hr ha p hm fun he => ?_
      subst he
      refine hash hp (List.length_eq_zero_iff.1 ?_)
      rw [Decidable.not_not.1 count, Code.arity, hp]
      rfl

end Replies

/-! ## Frames of callees -/

/-- Arguments that correspond, and as many other slots. -/
theorem slots_upTo {code code' : Code} (size : code'.block.frameSize = code.block.frameSize)
    (ha : List.Forall₂ (Value.UpTo K) args args') :
    List.Forall₂ (Value.UpTo K) (Frame.slots .nil code args).toList
      (Frame.slots .nil code' args').toList := by
  simp only [Frame.slots, size, ← ha.length_eq, Array.toList_append]
  exact List.rel_append ha (Value.Like.replicate _)

/-- The frames of callees that correspond. -/
theorem Callee.frame_upTo (lawful : K.Lawful) {callee callee' : Callee}
    (h : callee.UpTo K callee') (invoking : Option FrameId) (id : FrameId) :
    (callee.frame invoking id).UpTo K (callee'.frame invoking id)
      ∧ K.code callee.code callee'.code := by
  have size {code code' : Code} (same : K.code code code') :
      code'.block.frameSize = code.block.frameSize := by
    rw [Block.frameSize, Block.frameSize, lawful.nargs same, lawful.nlocals same]
  cases h with
  | method same hr ha =>
    have code := lawful.method same
    exact ⟨⟨code, fun _ => same, slots_upTo (size code) ha, hr, rfl, rfl, rfl, rfl⟩, code⟩
  | block same ha _ =>
    have closure := lawful.closure same
    refine ⟨⟨closure.code, fun outermost => ?_, slots_upTo (size closure.code) ha,
      closure.receiver, rfl, congrArg some closure.enclosing, closure.home, rfl⟩, closure.code⟩
    cases outermost

end Colloquy
