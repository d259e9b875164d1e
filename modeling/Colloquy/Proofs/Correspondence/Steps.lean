import Colloquy.Proofs.Correspondence.Memories
import Colloquy.Proofs.Dispatch
import Colloquy.Proofs.Quiet

/-!
# Steps that correspond

Two machines are in step if their memories correspond and so do their calls, one by one: each has
come to a place from which the same is ahead (`State.InStep`).  When a run is over, or a step has
failed, only the memories matter and the frames that are on the call stack (`State.UpTo`).

Main statements: instructions that correspond have effects that correspond, if no identity hash of
an object is taken (`Call.Level.execute`), and effects that correspond come to the same
(`Machine.UpTo.carryOut`).
-/

namespace Colloquy

open Primitive (Agree)

/-! ## Instructions -/

/-- The instruction names neither a literal nor a nested block. -/
def Instruction.Nameless : Instruction → Prop
  | pushLiteral _ | pushGlobal _ | send _ _ | sendSuper _ _ | block _ => False
  | _ => True

/-- The calls run code that corresponds on operands that do. -/
structure Call.Level (K : Correspondence) (c c' : Call) : Prop where
  frame : c'.frame = c.frame
  code : K.code c.code c'.code
  stack : List.Forall₂ (Value.UpTo K) c.stack c'.stack

/-- Two calls, in memories `m` and `m'`, come to the same by the instructions. -/
inductive Instruction.UpTo (K : Correspondence) (c : Call) (m : Memory) (c' : Call) (m' : Memory) :
    Instruction → Instruction → Prop where
  | same {j : Instruction} (h : j.Nameless) : UpTo K c m c' m' j j
  | pushLiteral {l l' : UInt16} {s : String} (named : c.literal l = .ok s)
      (named' : c'.literal l' = .ok s)
      (ids : K.ids (.literal c.code.id l.toNat) (.literal c'.code.id l'.toNat)) :
      UpTo K c m c' m' (.pushLiteral l) (.pushLiteral l')
  | pushGlobal {l l' : UInt16} {s : String} (named : c.literal l = .ok s)
      (named' : c'.literal l' = .ok s) : UpTo K c m c' m' (.pushGlobal l) (.pushGlobal l')
  | send (argc : UInt16) {l l' : UInt16} {s : String} (named : c.literal l = .ok s)
      (named' : c'.literal l' = .ok s) : UpTo K c m c' m' (.send argc l) (.send argc l')
  | sendSuper (argc : UInt16) {l l' : UInt16} {s : String} (named : c.literal l = .ok s)
      (named' : c'.literal l' = .ok s) : UpTo K c m c' m' (.sendSuper argc l) (.sendSuper argc l')
  | block {k k' : UInt16} (made : Agree (K.closures fun _ => True) (m.closure c.frame k.toNat)
      (m'.closure c'.frame k'.toNat)) : UpTo K c m c' m' (.block k) (.block k')

/-- The effects are of one kind. -/
inductive Effect.UpTo (K : Correspondence) : Effect → Effect → Prop where
  | next {stack stack' : List Value} {m m' : Memory}
      (hs : List.Forall₂ (Value.UpTo K) stack stack') (hm : m.UpTo K m') :
      UpTo K (.next stack m) (.next stack' m')
  | enter {stack stack' : List Value} {callee callee' : Callee} {m m' : Memory}
      (hs : List.Forall₂ (Value.UpTo K) stack stack') (hc : callee.UpTo K callee')
      (hm : m.UpTo K m') : UpTo K (.enter stack callee m) (.enter stack' callee' m')
  | finish {stack stack' : List Value} {v v' : Value} {m m' : Memory}
      (hs : List.Forall₂ (Value.UpTo K) stack stack') (hv : v.UpTo K v') (hm : m.UpTo K m') :
      UpTo K (.finish stack v m) (.finish stack' v' m')
  | escape {stack stack' : List Value} {v v' : Value} {m m' : Memory}
      (hs : List.Forall₂ (Value.UpTo K) stack stack') (hv : v.UpTo K v') (hm : m.UpTo K m') :
      UpTo K (.escape stack v m) (.escape stack' v' m')
  | fault {stack stack' : List Value} {e e' : Cause} {m m' : Memory}
      (hs : List.Forall₂ (Value.UpTo K) stack stack') (akin : K.faults e e') (hm : m.UpTo K m') :
      UpTo K (.fault stack e m) (.fault stack' e' m')

variable {K : Correspondence} {i i' : Image} {machine machine' : Machine} {m m' : Memory}
  {c c' : Call} {calls calls' : List Call} {s s' : State} {v v' : Value}

namespace Call.Level

/-- Both operand stacks are empty, or both have a value on top. -/
theorem stack_cases (hc : c.Level K c') :
    (c.stack = [] ∧ c'.stack = [])
      ∨ ∃ v below v' below', c.stack = v :: below ∧ c'.stack = v' :: below'
        ∧ v.UpTo K v' ∧ List.Forall₂ (Value.UpTo K) below below' := by
  have stack := hc.stack
  cases top : c.stack with
  | nil =>
    rw [top] at stack
    exact .inl ⟨rfl, List.forall₂_nil_left_iff.1 stack⟩
  | cons v below =>
    rw [top] at stack
    obtain ⟨v', below', hv, rest, top'⟩ := List.forall₂_cons_left_iff.1 stack
    exact .inr ⟨v, below, v', below', rfl, top', hv, rest⟩

section

variable (hc : c.Level K c') (lawful : K.Lawful) (hm : m.UpTo K m')
include hc lawful hm

theorem fault (cause : Cause) : Effect.UpTo K (.fault c.stack cause m) (.fault c'.stack cause m') :=
  .fault hc.stack (lawful.same cause) hm

/-- A value is pushed, or the instruction fails. -/
theorem push {x x' : Checked Value} (h : Agree (Value.UpTo K) x x') :
    Effect.UpTo K (.push c.stack m x) (.push c'.stack m' x') := by
  rcases h.cases with ⟨v, v', rfl, rfl, hv⟩ | ⟨e, rfl, rfl⟩
  · exact .next (.cons hv hc.stack) hm
  · exact hc.fault lawful hm e

theorem storeLocal (depth slot : UInt16) :
    Effect.UpTo K (c.storeLocal m depth slot) (c'.storeLocal m' depth slot) := by
  have fails := hc.fault lawful hm
  unfold Call.storeLocal
  rw [hc.frame]
  rcases hc.stack_cases with ⟨top, top'⟩ | ⟨v, below, v', below', top, top', hv, rest⟩
  · rw [top, top'] at fails ⊢
    exact fails _
  · rw [top, top'] at fails ⊢
    rcases (hm.localFrame c.frame depth slot).cases with
      ⟨holder, _, found, found', rfl⟩ | ⟨e, found, found'⟩
    · simp only [found, found']
      exact .next (.cons hv rest) (hm.setLocal holder slot.toNat hv)
    · simp only [found, found']
      exact fails e

theorem makeClosure {k k' : Nat}
    (made : Agree (K.closures fun _ => True) (m.closure c.frame k) (m'.closure c'.frame k')) :
    Effect.UpTo K (c.makeClosure m k) (c'.makeClosure m' k') := by
  unfold Call.makeClosure
  rcases made.cases with ⟨closure, closure', found, found', same⟩ | ⟨e, found, found'⟩
  · rw [found, found', hc.frame]
    exact .next (.cons (.block same) hc.stack)
      ⟨hm.frames.pin c.frame, hm.data.store, congrArg (· + 1) hm.data.serial, hm.data.transcript⟩
  · rw [found, found']
    exact hc.fault lawful hm e

variable (hi : i.UpTo K.toLikeness i')
include hi

theorem buildArray (count : Nat) :
    Effect.UpTo K (c.buildArray m count) (c'.buildArray m' count) := by
  unfold Call.buildArray
  rw [← hc.stack.length_eq]
  split
  · exact hc.fault lawful hm _
  · have values : List.Forall₂ (Value.UpTo K) (c.stack.take count).reverse.toArray.toList
        (c'.stack.take count).reverse.toArray.toList :=
      List.forall₂_reverse_iff.2 (List.forall₂_take count hc.stack)
    obtain ⟨data, hv⟩ := hm.data.newArray (hi.fair lawful.linked) values
    rw [Store.grown_true] at data hv
    exact .next (.cons hv (List.forall₂_drop count hc.stack)) ⟨hm.frames, data⟩

theorem storeField (index : Nat) :
    Effect.UpTo K (c.storeField i m index) (c'.storeField i' m' index) := by
  have fails := hc.fault lawful hm
  unfold Call.storeField
  rw [hc.frame]
  rcases hc.stack_cases with ⟨top, top'⟩ | ⟨v, below, v', below', top, top', hv, rest⟩
  · rw [top, top'] at fails ⊢
    exact fails _
  · rw [top, top'] at fails ⊢
    rcases (hm.fieldRow (hi.fair lawful.linked) c.frame index).cases with
      ⟨row, _, found, found', rfl⟩ | ⟨e, found, found'⟩
    · simp only [found, found']
      exact .next (.cons hv rest) (hm.restore (hm.data.store.set index hv))
    · simp only [found, found']
      exact fails e

/-- **A send that does not take the identity hash of an object.** -/
theorem send (argc : Nat) (selector : String) {find find' : Value → Checked Code}
    (finds : ∀ v v', v.UpTo K v' → Agree K.codes (find v) (find' v'))
    (quiet : ¬c.SendHashes argc find) :
    Effect.UpTo K (c.send i m argc selector find) (c'.send i' m' argc selector find') := by
  have operands := List.forall₂_drop argc hc.stack
  have args := List.forall₂_reverse_iff.2 (List.forall₂_take argc hc.stack)
  unfold Call.send
  cases dropped : c.stack.drop argc with
  | nil =>
    rw [dropped, List.forall₂_nil_left_iff] at operands
    rw [operands]
    exact hc.fault lawful hm _
  | cons receiver below =>
    rw [dropped] at operands
    obtain ⟨receiver', below', hr, hb, dropped'⟩ := List.forall₂_cons_left_iff.1 operands
    rw [dropped']
    dsimp only
    rcases (finds receiver receiver' hr).cases with
      ⟨code, code', found, found', same⟩ | ⟨e, found, found'⟩
    · rw [found, found']
      dsimp only
      have hash : code.block.primitive = some .objectHash → (c.stack.take argc).reverse = [] →
          receiver'.identityHash = receiver.identityHash := fun primitive none =>
        hr.identityHash_eq fun identity =>
          quiet ⟨receiver, below, code, dropped, found, primitive, none, identity⟩
      have traced := hm.trace (fun m => "send " ++ selector ++ " to " ++ receiver.inspect m.store
          ++ " -> " ++ code.block.qualified)
        (fun m => "send " ++ selector ++ " to " ++ receiver'.inspect m.store
          ++ " -> " ++ code'.block.qualified)
      have reply := invoke_upTo lawful hi same traced hr args hash
      generalize invoke i _ receiver code _ = r at reply
      generalize invoke i' _ receiver' code' _ = r' at reply
      cases reply with
      | answer hv hm => exact .next (.cons hv hb) hm
      | enter hcallee hm => exact .enter hb hcallee hm
      | fault akin hm => exact .fault hb akin hm
    · rw [found, found']
      exact hc.fault lawful hm e

/-- An instruction that names neither a literal nor a nested block. -/
theorem execute_nameless {j : Instruction} (nameless : j.Nameless) :
    Effect.UpTo K (c.execute i m j) (c'.execute i' m' j) := by
  have push {x x' : Checked Value} (h : Agree (Value.UpTo K) x x') :
      Effect.UpTo K (.push c.stack m x) (.push c'.stack m' x') := hc.push lawful hm h
  have fails := hc.fault lawful hm
  cases j with
  | pushNil => exact .next (.cons .nil hc.stack) hm
  | pushSelf =>
    refine push ?_
    rw [hc.frame]
    exact (hm.frame c.frame).map fun _ _ hf => hf.receiver
  | pushTrue => exact .next (.cons (.bool true) hc.stack) hm
  | pushFalse => exact .next (.cons (.bool false) hc.stack) hm
  | pushChar code =>
    refine push ?_
    unfold Call.character
    split
    · exact .char _
    · rfl
  | pushInt n => exact .next (.cons (.int n) hc.stack) hm
  | pushFloat x => exact .next (.cons (.float x) hc.stack) hm
  | pushArray count => exact hc.buildArray lawful hm hi count.toNat
  | pushField index =>
    refine push ?_
    rw [hc.frame]
    exact hm.loadField (hi.fair lawful.linked) c.frame index.toNat
  | pushLocal depth slot =>
    refine push ?_
    rw [hc.frame]
    exact hm.loadLocal c.frame depth slot
  | storeField index => exact hc.storeField lawful hm hi index.toNat
  | storeLocal depth slot => exact hc.storeLocal lawful hm depth slot
  | pop | ret | blockReturn =>
    unfold Call.execute
    rcases hc.stack_cases with ⟨top, top'⟩ | ⟨v, below, v', below', top, top', hv, rest⟩
    · rw [top, top'] at fails ⊢
      exact fails _
    · rw [top, top']
      first
        | exact .next rest hm
        | exact .escape rest hv hm
        | exact .finish rest hv hm
  | debug file position =>
    unfold Call.execute
    rw [hc.frame]
    exact .next hc.stack (hm.setPlace c.frame _ _)
  | pushLiteral | pushGlobal | send | sendSuper | block => exact nameless.elim

/-- **Instructions that correspond have effects that correspond**, if no identity hash of an object
is taken. -/
theorem execute {j j' : Instruction} (hj : Instruction.UpTo K c m c' m' j j')
    (quiet : ¬c.Hashes i j) : Effect.UpTo K (c.execute i m j) (c'.execute i' m' j') := by
  cases hj with
  | same nameless => exact hc.execute_nameless lawful hm hi nameless
  | @pushLiteral l l' s named named' ids =>
    refine hc.push lawful hm ?_
    rw [named, named']
    exact .string ids s
  | @pushGlobal l l' s named named' =>
    have names : Agree Eq (c.literal l) (c'.literal l') := by
      rw [named, named']
      rfl
    refine hc.push lawful hm (names.bind fun name _ same => ?_)
    cases same
    have found := hi.lookup lawful.linked name
    generalize i.lookup name = o at found
    generalize i'.lookup name = o' at found
    cases found with
    | none => rfl
    | some hv => exact hv
  | @send argc l l' s named named' =>
    simp only [Call.execute, named, named']
    exact hc.send lawful hm hi _ s (fun v v' hv => hi.method lawful.linked hv s)
      fun hashes => quiet ⟨s, named, hashes⟩
  | @sendSuper argc l l' s named named' =>
    simp only [Call.execute, named, named']
    exact hc.send lawful hm hi _ s
      (fun v v' hv => hi.superMethod lawful.linked (lawful.owner hc.code) hv s)
      fun hashes => quiet ⟨s, named, hashes⟩
  | block made => exact hc.makeClosure lawful hm made

end

end Call.Level

/-! ## States -/

/-- The machines are the same but for code, and for what they log. -/
structure Machine.UpTo (K : Correspondence) (machine machine' : Machine) : Prop where
  image : machine.image.UpTo K.toLikeness machine'.image
  maxDepth : machine'.maxDepth = machine.maxDepth

/-- The calls have come to places from which the same is ahead. -/
structure Call.UpTo (K : Correspondence) (c c' : Call) : Prop extends Call.Level K c c' where
  ahead : K.ahead c.code c.ip c'.code c'.ip

/-- The calls have the same frames. -/
abbrev SameFrames : List Call → List Call → Prop :=
  List.Forall₂ fun c c' => c'.frame = c.frame

/-- The states are the same, as far as it matters when nothing runs any more. -/
structure State.UpTo (K : Correspondence) (s s' : State) : Prop where
  memory : s.memory.UpTo K s'.memory
  frames : SameFrames s.calls.calls s'.calls.calls

/-- The states will come to the same. -/
structure State.InStep (K : Correspondence) (s s' : State) : Prop where
  memory : s.memory.UpTo K s'.memory
  calls : List.Forall₂ (Call.UpTo K) s.calls.calls s'.calls.calls

/-- The steps come to the same: both go on, end with values that correspond, or fail with faults
that do. -/
inductive Progress.UpTo (K : Correspondence) : Progress → Progress → Prop where
  | running {s s' : State} (h : s.InStep K s') : UpTo K (.running s) (.running s')
  | finished {v v' : Value} {s s' : State} (hv : v.UpTo K v') (h : s.UpTo K s') :
      UpTo K (.finished v s) (.finished v' s')
  | failed {f f' : Failure} {s s' : State} (akin : K.faults f.cause f'.cause) (h : s.UpTo K s') :
      UpTo K (.failed f s) (.failed f' s')

/-- The call goes on after the effect, now or later. -/
def Effect.GoesOn : Effect → Prop
  | .next _ _ | .enter _ _ _ => True
  | _ => False

theorem sameFrames_of_calls (h : List.Forall₂ (Call.UpTo K) calls calls') :
    SameFrames calls calls' :=
  h.imp fun _ _ hc => hc.frame

theorem State.InStep.upTo (h : s.InStep K s') : s.UpTo K s' :=
  ⟨h.memory, sameFrames_of_calls h.calls⟩

/-! ## The end of calls -/

namespace Memory.UpTo

/-- A frame is changed and given up. -/
theorem pop {m₁ m₁' : Memory} (h : m.UpTo K m') (id : FrameId) {g g' : Frame Value → Frame Value}
    (hg : ∀ f f', f.UpTo K f' → (g f).UpTo K (g' f'))
    (frames : m₁.frames = (m.frames.modify id g).release id) (data : m.SameData m₁)
    (frames' : m₁'.frames = (m'.frames.modify id g').release id) (data' : m'.SameData m₁') :
    m₁.UpTo K m₁' := by
  have released : Memory.UpTo K { m with frames := (m.frames.modify id g).release id }
      { m' with frames := (m'.frames.modify id g').release id } :=
    ⟨(h.frames.modify id hg).release Frame.UpTo.pins id, h.data.store, h.data.serial,
      h.data.transcript⟩
  exact released.relog ⟨frames, data.store, data.serial, data.transcript⟩
    ⟨frames', data'.store, data'.serial, data'.transcript⟩

theorem leave (h : m.UpTo K m') (same : c'.frame = c.frame) :
    (m.leave c).UpTo K (m'.leave c') := by
  refine h.pop c.frame (fun f f' hf => ?_) (frames_leave m c) (sameData_leave m c)
    (same ▸ frames_leave m' c') (sameData_leave m' c')
  exact ⟨hf.code, hf.method, hf.locals, hf.receiver, hf.invoking, hf.enclosing, hf.home,
    hf.returned⟩

theorem drop (h : m.UpTo K m') (same : c'.frame = c.frame) :
    (m.drop c).UpTo K (m'.drop c') := by
  have dropped (m : Memory) (c : Call) :
      (m.drop c).frames = (m.frames.modify c.frame (lastWords c)).release c.frame := rfl
  refine h.pop c.frame (fun f f' hf => ?_) (dropped m c) ⟨rfl, rfl, rfl⟩
    (same ▸ dropped m' c') ⟨rfl, rfl, rfl⟩
  exact ⟨hf.code, hf.method, hf.locals, hf.receiver, hf.invoking, hf.enclosing, hf.home,
    hf.returned⟩

theorem leaveReturning (h : m.UpTo K m') (same : SameFrames calls calls') :
    (m.leaveReturning calls).UpTo K (m'.leaveReturning calls') := by
  induction same generalizing m m' with
  | nil => exact h
  | @cons c c' _ _ first _ ih =>
    refine ih (h.pop c.frame (fun f f' hf => ?_) (frames_leave_markReturned m c)
      (sameData_leave_markReturned m c) (first ▸ frames_leave_markReturned m' c')
      (sameData_leave_markReturned m' c'))
    refine ⟨hf.code, hf.method, hf.locals, hf.receiver, hf.invoking, hf.enclosing, hf.home, ?_⟩
    exact congrArg Option.isNone hf.enclosing

theorem dropAll (h : m.UpTo K m') (same : SameFrames calls calls') :
    (calls.foldl Memory.drop m).UpTo K (calls'.foldl Memory.drop m') := by
  induction same generalizing m m' with
  | nil => exact h
  | cons first _ ih => exact ih (h.drop first)

end Memory.UpTo

namespace State.UpTo

/-- With nothing running, states are in step. -/
theorem abandon (h : s.UpTo K s') : s.abandon.InStep K s'.abandon :=
  ⟨h.memory.dropAll h.frames, .nil⟩

theorem fail (h : s.UpTo K s') {cause cause' : Cause} (akin : K.faults cause cause') :
    Progress.UpTo K (s.fail cause) (s'.fail cause') :=
  .failed akin h

end State.UpTo

/-- A value is handed to the innermost call, or to the host. -/
theorem State.resume_upTo (hm : m.UpTo K m') (hcs : List.Forall₂ (Call.UpTo K) calls calls')
    (hv : v.UpTo K v') :
    Progress.UpTo K (State.resume ⟨m, .of calls⟩ v) (State.resume ⟨m', .of calls'⟩ v') := by
  cases hcs with
  | nil => exact .finished hv ⟨hm, .nil⟩
  | cons first rest =>
    exact .running ⟨hm, .cons ⟨⟨first.frame, first.code, .cons hv first.stack⟩, first.ahead⟩ rest⟩

/-! ## Steps -/

namespace CallStack

theorem upTo?_congr (same : SameFrames calls calls') (home : FrameId) :
    (CallStack.of calls').upTo? home = (CallStack.of calls).upTo? home := by
  have frames : calls'.map (·.frame) = calls.map (·.frame) := by
    induction same with
    | nil => rfl
    | cons first _ ih => rw [List.map_cons, List.map_cons, first, ih]
  have found (cs : List Call) :
      cs.findIdx? (·.frame = home) = (cs.map (·.frame)).findIdx? (· = home) := by
    rw [List.findIdx?_map]
    rfl
  simp only [CallStack.upTo?, CallStack.of, found, frames]

theorem current?_congr {stack stack' : CallStack} (same : SameFrames stack.calls stack'.calls) :
    stack'.current? = stack.current? := by
  rw [CallStack.current?, CallStack.current?]
  generalize stack.calls = cs at same
  generalize stack'.calls = cs' at same
  cases same with
  | nil => rfl
  | cons first _ => exact congrArg some first

end CallStack

/-- The method that the code of the call belongs to has a frame. -/
def Call.Homed (m : Memory) (c : Call) : Prop :=
  ∃ fr home, m.frames.get? c.frame = some fr ∧ m.frames.get? fr.home = some home
    ∧ home.enclosing = none ∧ home.code.Encloses c.code

/-- **The end of the innermost call.** -/
theorem Machine.finish_upTo (hm : m.UpTo K m') (first : c'.frame = c.frame)
    (hcs : List.Forall₂ (Call.UpTo K) calls calls') (hv : v.UpTo K v') :
    Progress.UpTo K (Machine.finish ⟨m, .of (c :: calls)⟩ v)
      (Machine.finish ⟨m', .of (c' :: calls')⟩ v') :=
  State.resume_upTo (hm.leave first) hcs hv

namespace Machine.UpTo

section

variable (h : machine.UpTo K machine') (lawful : K.Lawful)
include h lawful

/-- **A new call.** -/
theorem enter (hs : s.InStep K s') {callee callee' : Callee} (hc : callee.UpTo K callee') :
    Progress.UpTo K (machine.enter s callee) (machine'.enter s' callee') := by
  have depth : s'.calls.depth = s.calls.depth := by
    rw [s.calls.depth_eq, s'.calls.depth_eq, hs.calls.length_eq]
  by_cases room : s.calls.depth < machine.maxDepth
  · have room' : s'.calls.depth < machine'.maxDepth := by rwa [depth, h.maxDepth]
    have frames := Callee.frame_upTo lawful hc s.calls.current?
    obtain ⟨alike, same⟩ :=
      hs.memory.frames.alloc Frame.UpTo.pins fun id => (frames id).1
    have code := (frames default).2
    have memory : Memory.UpTo K
        { s.memory with frames := (s.memory.frames.alloc (callee.frame s.calls.current?)).1 }
        { s'.memory with frames := (s'.memory.frames.alloc (callee'.frame s.calls.current?)).1 } :=
      ⟨alike, hs.memory.data.store, hs.memory.data.serial, hs.memory.data.transcript⟩
    rw [enter_eq room, enter_eq room', CallStack.current?_congr hs.upTo.frames]
    have traced := memory.trace (fun _ => "enter " ++ callee.code.block.qualified)
      (fun _ => "enter " ++ callee'.code.block.qualified)
    exact .running ⟨traced, .cons ⟨⟨same, code, .nil⟩, lawful.fresh code⟩ hs.calls⟩
  · have room' : ¬s'.calls.depth < machine'.maxDepth := by rwa [depth, h.maxDepth]
    unfold Machine.enter
    rw [if_neg room, if_neg room']
    exact hs.upTo.fail (lawful.same _)

omit h lawful in
theorem logCalls {p p' : Progress} (hp : p.UpTo K p') :
    Progress.UpTo K (machine.logCalls p) (machine'.logCalls p') := by
  cases hp with
  | @running s s' hs =>
    obtain ⟨m₁, logs, logged⟩ := machine.logCalls_running s.memory s.calls
    obtain ⟨m₁', logs', logged'⟩ := machine'.logCalls_running s'.memory s'.calls
    rw [logged, logged']
    exact .running ⟨hs.memory.relog logs logs', hs.calls⟩
  | finished hv hs => exact .finished hv hs
  | failed akin hs => exact .failed akin hs

/-- A return that comes too late fails in both, and the messages name the same method. -/
theorem cannotReturn (hm : m.UpTo K m') (code : K.code c.code c'.code) {home : FrameId}
    (outermost : ∀ fr, m.frames.get? home = some fr → fr.enclosing = none) :
    K.faults (machine.cannotReturn ⟨m, .of calls⟩ c home)
      (machine'.cannotReturn ⟨m', .of calls'⟩ c' home) := by
  have owner := h.image.owner? (lawful.owner code)
  have here := hm.frames.get? home
  have names : ((machine'.image.owner? c'.code).map (·.name)).getD ""
      = ((machine.image.owner? c.code).map (·.name)).getD "" := by
    generalize machine.image.owner? c.code = o at owner
    generalize machine'.image.owner? c'.code = o' at owner
    cases owner with
    | none => rfl
    | some cls => exact cls.info.name
  have methods : (m'.frames.get? home).map (·.code.block.qualified)
      = (m.frames.get? home).map (·.code.block.qualified) := by
    generalize m.frames.get? home = o at here outermost
    generalize m'.frames.get? home = o' at here
    cases here with
    | none => rfl
    | some hf => exact congrArg some (lawful.head (hf.method (outermost _ rfl))).qualified
  unfold Machine.cannotReturn
  dsimp only
  rw [names, methods]
  exact lawful.cannotReturn code _ _

/-- **A return** ends the same calls, or fails in both. -/
theorem escape (hm : m.UpTo K m') (homed : c.Homed m) (hc : c.Level K c')
    (hcs : List.Forall₂ (Call.UpTo K) calls calls') (hv : v.UpTo K v') :
    Progress.UpTo K (machine.escape ⟨m, .of (c :: calls)⟩ c v)
      (machine'.escape ⟨m', .of (c' :: calls')⟩ c' v') := by
  have same : SameFrames (c :: calls) (c' :: calls') := .cons hc.frame (sameFrames_of_calls hcs)
  have here : State.UpTo K ⟨m, .of (c :: calls)⟩ ⟨m', .of (c' :: calls')⟩ := ⟨hm, same⟩
  unfold Machine.escape
  dsimp only
  rw [hc.frame]
  rcases (hm.frame c.frame).cases with ⟨f, f', found, found', hf⟩ | ⟨e, found, found'⟩
  · rw [found, found']
    dsimp only
    rw [hf.home]
    have can : canReturn ⟨m', .of (c' :: calls')⟩ f.home
        = canReturn ⟨m, .of (c :: calls)⟩ f.home := by
      have here := hm.frames.get? f.home
      unfold canReturn
      dsimp only
      generalize m.frames.get? f.home = o at here
      generalize m'.frames.get? f.home = o' at here
      cases here with
      | none => rfl
      | some hg => exact congrArg (!·) hg.returned
    rw [can, CallStack.upTo?_congr same]
    split
    · obtain ⟨fr, home, here', there, outermost, -⟩ := homed
      cases here'.symm.trans (Memory.frame_eq_ok found)
      refine here.fail (h.cannotReturn lawful hm hc.code fun fr there' => ?_)
      cases there.symm.trans there'
      exact outermost
    · rename_i n reached
      have dropped (cs : List Call) : (CallStack.of cs).drop n = .of (cs.drop n) :=
        CallStack.eq_of _
      -- the call that returns is one of those that end
      obtain ⟨k, rfl⟩ : ∃ k, n = k + 1 := by
        split at reached
        · obtain ⟨k, -, rfl⟩ := Option.map_eq_some_iff.1 reached
          exact ⟨k, rfl⟩
        · cases reached
      rw [dropped, dropped]
      exact State.resume_upTo (hm.leaveReturning (List.forall₂_take _ same))
        (List.forall₂_drop k hcs) hv
  · rw [found, found']
    exact here.fail (lawful.same e)

/-- **What effects that correspond come to.**  Where the call goes on, the same has to be ahead of
it. -/
theorem carryOut (hc : c.Level K c') (hcs : List.Forall₂ (Call.UpTo K) calls calls')
    {e e' : Effect} (he : e.UpTo K e') (ahead : e.GoesOn → K.ahead c.code c.ip c'.code c'.ip)
    (homed : ∀ stack v m, e = .escape stack v m → c.Homed m) :
    Progress.UpTo K (machine.carryOut c calls e) (machine'.carryOut c' calls' e') := by
  have stacked {stack stack' : List Value} (hs : List.Forall₂ (Value.UpTo K) stack stack') :
      Call.Level K { c with stack } { c' with stack := stack' } := ⟨hc.frame, hc.code, hs⟩
  cases he with
  | next hs hm =>
    rw [Machine.carryOut, Machine.carryOut]
    refine logCalls (.running ?_)
    exact ⟨hm, .cons ⟨stacked hs, ahead trivial⟩ hcs⟩
  | enter hs hcallee hm =>
    exact logCalls (h.enter lawful ⟨hm, .cons ⟨stacked hs, ahead trivial⟩ hcs⟩ hcallee)
  | finish hs hv hm => exact finish_upTo hm hc.frame hcs hv
  | escape hs hv hm => exact h.escape lawful hm (homed _ _ _ rfl) (stacked hs) hcs hv
  | @fault stack stack' e e' m m' hs akin hm =>
    have states : State.UpTo K ⟨m, .of ({ c with stack } :: calls)⟩
        ⟨m', .of ({ c' with stack := stack' } :: calls')⟩ :=
      ⟨hm, .cons hc.frame (sameFrames_of_calls hcs)⟩
    exact states.fail akin

omit h in
/-- Code that ends without a return. -/
theorem stepPastEnd (hm : m.UpTo K m') (hc : c.Level K c')
    (hcs : List.Forall₂ (Call.UpTo K) calls calls')
    (ends : Instruction.decodeAt c.code.block.bytecode c.ip = .ok none)
    (ends' : Instruction.decodeAt c'.code.block.bytecode c'.ip = .ok none) :
    Progress.UpTo K (machine.step ⟨m, .of (c :: calls)⟩)
      (machine'.step ⟨m', .of (c' :: calls')⟩) := by
  obtain ⟨m₀, logs, stepped⟩ := machine.step_pastEnd m calls ends
  obtain ⟨m₀', logs', stepped'⟩ := machine'.step_pastEnd m' calls' ends'
  have noted := hm.relog logs logs'
  have last : Agree (Value.UpTo K) (lastValue m₀ c) (lastValue m₀' c') := by
    have stack := hc.stack
    unfold lastValue
    rw [hc.frame]
    generalize c.stack = vs at stack
    generalize c'.stack = vs' at stack
    cases stack with
    | nil => exact (noted.frame c.frame).map fun _ _ hf => hf.receiver
    | cons hv _ => exact hv
  rcases last.cases with ⟨v, v', found, found', hv⟩ | ⟨e, found, found'⟩
  · rw [stepped, stepped', pastEnd, pastEnd, found, found']
    exact finish_upTo noted hc.frame hcs hv
  · rw [stepped, stepped', pastEnd, pastEnd, found, found']
    have states : State.UpTo K ⟨m₀, .of (c :: calls)⟩ ⟨m₀', .of (c' :: calls')⟩ :=
      ⟨noted, .cons hc.frame (sameFrames_of_calls hcs)⟩
    exact states.fail (lawful.same e)

end

end Machine.UpTo

end Colloquy
