import Colloquy.Proofs.Closures
import Colloquy.Proofs.Coherence.Progress
import Colloquy.Proofs.Effects

/-!
# The call stack

The calls in progress are kept in a list, and each frame names the frame of its caller.  These two
records agree: following the callers from the innermost frame, one comes by the frames of the calls
in progress, in their order, and to an end (`Arena.Invoked`).

A move of a session takes calls off the stack, none at least, or puts one call on top
(`State.Restacks`).  A call is put on top only if it was given as many arguments as its code takes
and there was room for it; what fails leaves frames and calls as they were.

Main statement: `Session.calls_stay_linked`.
-/

namespace Colloquy

/-! ## Frames that were there before -/

namespace Arena

variable {a b d : Arena Value} {f : FrameId}

/-- The frame that a handle names in `b` was there in `a`, as that of the same activation. -/
def Recalls (a b : Arena Value) (f : FrameId) : Prop :=
  ∀ fr', b.get? f = some fr' → ∃ fr, a.get? f = some fr ∧ fr.SameLinks fr'

theorem recalls_of_eq (h : b = a) : a.Recalls b f := fun fr hf => ⟨fr, h ▸ hf, .refl fr⟩

theorem recalls_modify {id : FrameId} {g : Frame Value → Frame Value}
    (links : ∀ fr : Frame Value, fr.SameLinks (g fr)) : a.Recalls (a.modify id g) f := by
  intro fr' hf
  rw [get?_modify] at hf
  split at hf
  · subst f
    obtain ⟨fr, old, rfl⟩ := Option.map_eq_some_iff.1 hf
    exact ⟨fr, old, links fr⟩
  · exact ⟨fr', hf, .refl fr'⟩

theorem recalls_pin {id : FrameId} : a.Recalls (a.pin id) f := fun fr hf =>
  ⟨fr, get?_pin ▸ hf, .refl fr⟩

/-- At most one frame has changed, as one of the same activation, or has one more pin. -/
inductive Touches (a : Arena Value) : Arena Value → Prop where
  | same : Touches a a
  | modify (id : FrameId) {g : Frame Value → Frame Value}
      (links : ∀ fr : Frame Value, fr.SameLinks (g fr)) : Touches a (a.modify id g)
  | pin (id : FrameId) : Touches a (a.pin id)

theorem touches_of_eq (h : b = a) : a.Touches b := h ▸ .same

theorem Touches.recalls (h : a.Touches b) (f : FrameId) : a.Recalls b f := by
  cases h with
  | same => exact recalls_of_eq rfl
  | modify id links => exact recalls_modify links
  | pin id => exact recalls_pin

end Arena

theorem Memory.Recedes.recalls {m m' : Memory} (h : m.Recedes m') (f : FrameId) :
    m.frames.Recalls m'.frames f := by
  intro fr' hf
  obtain ⟨fr, hf, same, -⟩ := h.frames f fr' hf
  exact ⟨fr, hf, same⟩

/-! ## Replies and effects -/

namespace Callee

/-- What the code is called with, the receiver apart. -/
def args : Callee → List Value
  | method _ _ args | block _ args => args

/-- There are as many arguments as the code takes. -/
def Fits (callee : Callee) : Prop := callee.args.length = callee.code.block.nargs

end Callee

/-- A reply leaves frames alone, changes nothing if it is a fault, and asks only for calls with the
right number of arguments. -/
def Reply.Spares (m : Memory) : Reply → Prop
  | .answer _ m' => m'.frames = m.frames
  | .enter callee m' => m' = m ∧ callee.Fits
  | .fault _ m' => m' = m

namespace Primitive

variable (m : Memory) {i : Image} {receiver : Value} {args : List Value}

theorem spares_answer (x : Checked Value) : (answer m x).Spares m := by
  cases x <;> rfl

theorem spares_answerString (x : Checked String) : (answerString m x).Spares m := by
  cases x <;> rfl

theorem spares_answerArray (x : Checked (Array Value)) : (answerArray m x).Spares m := by
  cases x <;> rfl

theorem spares_putAnswer (x : Checked (Ref × Nat × Value)) : (putAnswer m x).Spares m := by
  cases x <;> rfl

theorem spares_answerInstance (x : Checked Class) : (answerInstance m x).Spares m := by
  cases x <;> rfl

theorem spares_showLine (x : Checked String) : (showLine m receiver x).Spares m := by
  cases x with
  | error e => rfl
  | ok line =>
    unfold showLine
    dsimp only
    split <;> rfl

theorem spares_enter {x : Checked Callee} (h : ∀ callee, x = .ok callee → callee.Fits) :
    (enter m x).Spares m := by
  cases x with
  | error e => rfl
  | ok callee => exact ⟨rfl, h callee rfl⟩

/-- A closure is entered only with as many arguments as it takes. -/
theorem fits_of_matching {c : Closure Value} {callee : Callee} (h : matching c args = .ok callee) :
    callee.Fits := by
  unfold matching at h
  split at h
  · rename_i arity
    cases h
    exact arity
  · cases h

theorem fits_of_chosenBlock {callee : Callee} (h : chosenBlock i receiver args = .ok callee) :
    callee.Fits := by
  obtain ⟨_, -, h⟩ := Checked.bind_eq_ok.1 h
  obtain ⟨_, -, h⟩ := Checked.bind_eq_ok.1 h
  obtain ⟨_, -, h⟩ := Checked.bind_eq_ok.1 h
  exact fits_of_matching h

theorem fits_of_blockToEnter {callee : Callee} (h : blockToEnter i receiver args = .ok callee) :
    callee.Fits := by
  obtain ⟨_, -, h⟩ := Checked.bind_eq_ok.1 h
  exact fits_of_matching h

theorem fits_of_guardedBlock {callee : Callee}
    (h : guardedBlock i receiver args = .ok (some callee)) : callee.Fits := by
  obtain ⟨condition, -, h⟩ := Checked.bind_eq_ok.1 h
  obtain ⟨_, -, h⟩ := Checked.bind_eq_ok.1 h
  obtain ⟨_, -, h⟩ := Checked.bind_eq_ok.1 h
  cases condition with
  | false => cases h
  | true =>
    obtain ⟨_, found, h⟩ := Checked.bind_eq_ok.1 h
    cases h
    exact fits_of_matching found

/-- **Primitives leave frames alone.** -/
theorem apply_spares (p : Primitive) (i : Image) (m : Memory) (receiver : Value)
    (args : List Value) : (p.apply i m receiver args).Spares m := by
  cases p with
  | objectBasicNew => exact spares_answerInstance m _
  | objectAsString => rfl
  | objectClassName => rfl
  | objectHash => rfl
  | booleanIfTrueIfFalse => exact spares_enter m fun _ => fits_of_chosenBlock
  | booleanIfTrue =>
    simp only [apply]
    cases h : guardedBlock i receiver args with
    | error e => rfl
    | ok found =>
      cases found with
      | none => rfl
      | some callee => exact ⟨rfl, fits_of_guardedBlock h⟩
  | blockValue => exact spares_enter m fun _ => fits_of_blockToEnter
  | blockValue1 => exact spares_enter m fun _ => fits_of_blockToEnter
  | blockValue2 => exact spares_enter m fun _ => fits_of_blockToEnter
  | transcriptShow => exact spares_showLine m _
  | arrayAtPut => exact spares_putAnswer m _
  | _ =>
    first
      | exact spares_answer m _
      | exact spares_answerString m _
      | exact spares_answerArray m _

end Primitive

/-- A call with another number of arguments than the code takes fails at once. -/
theorem invoke_eq_fault {code : Code} {args : List Value} (h : args.length ≠ code.arity)
    (i : Image) (m : Memory) (receiver : Value) : invoke i m receiver code args
      = .fault (.argumentCount code.block.qualified code.arity args.length) m := by
  rw [invoke, if_pos h]

theorem invoke_spares (i : Image) (m : Memory) (receiver : Value) (code : Code)
    (args : List Value) : (invoke i m receiver code args).Spares m := by
  by_cases arity : args.length = code.arity
  · rw [invoke, if_neg (not_not_intro arity)]
    unfold Code.arity at arity
    cases hp : code.block.primitive with
    | none =>
      rw [hp] at arity
      exact ⟨rfl, arity⟩
    | some p => exact p.apply_spares i m receiver args
  · rw [invoke_eq_fault arity]
    rfl

theorem Session.Asks.spares {image : Image} {m : Memory} {host : List Value} {reply : Reply}
    (asks : Session.Asks image m host reply) : reply.Spares m := by
  cases asks with
  | method code _ _ => exact invoke_spares image m _ code _
  | primitive p _ _ => exact p.apply_spares image m _ _

/-- An instruction makes no frame and takes none away; only one that goes on changes any. -/
def Effect.Spares (m : Memory) : Effect → Prop
  | .next _ m' => m.frames.Touches m'.frames
  | .enter _ callee m' => m'.frames = m.frames ∧ callee.Fits
  | .finish _ _ m' | .escape _ _ m' | .fault _ _ m' => m'.frames = m.frames

theorem Reply.Spares.effect {m m₁ : Memory} {reply : Reply} (h : reply.Spares m₁)
    (frames : m₁.frames = m.frames) (below : List Value) : (reply.effect below).Spares m := by
  cases reply with
  | answer v m' => exact Arena.touches_of_eq (h.trans frames)
  | enter callee m' => exact ⟨h.1 ▸ frames, h.2⟩
  | fault cause m' => exact h ▸ frames

namespace Call

theorem Does.spares {c : Call} {i : Image} {m : Memory} {instruction : Instruction}
    {effect : Effect} (h : c.Does i m instruction effect) : effect.Spares m := by
  cases h with
  | push | array | pop | storeField => exact .same
  | storeLocal | debug => exact .modify _ fun _ => ⟨rfl, rfl, rfl, rfl, rfl⟩
  | block => exact .pin _
  | finish | escape | fault => rfl
  | @send _ receiver args below code m₁ _ _ _ logged replies =>
    rw [← replies]
    exact (invoke_spares i m₁ receiver code args).effect logged.frames below

/-- **Instructions neither make frames nor take any away.** -/
theorem execute_spares (c : Call) (i : Image) (m : Memory) (instruction : Instruction) :
    (c.execute i m instruction).Spares m :=
  (c.execute_does i m instruction).spares

end Call

/-! ## Steps -/

namespace CallStack

/-- The frames of the calls in progress, innermost first. -/
def frames (s : CallStack) : List FrameId := s.calls.map (·.frame)

theorem current?_eq (s : CallStack) : s.current? = s.frames.head? := by
  simp only [current?, frames, List.head?_map]

theorem length_frames (s : CallStack) : s.frames.length = s.depth := by
  simp only [frames, List.length_map, s.depth_eq]

end CallStack

/-- What can happen to the call stack at once: calls are over, or none is, or there is a new call on
top, for which there was room, which was given the right number of arguments, and whose frame has a
handle that named nothing.  `limit` is the largest number of calls. -/
inductive State.Restacks (limit : Nat) (s s' : State) : Prop where
  | drop (n : Nat) (frames : s'.calls.frames = s.calls.frames.drop n)
      (recalls : ∀ f, s.memory.frames.Recalls s'.memory.frames f)
  | push (callee : Callee) (id : FrameId) (room : s.calls.depth < limit) (fits : callee.Fits)
      (frames : s'.calls.frames = id :: s.calls.frames) (fresh : s.memory.frames.get? id = none)
      (created : s'.memory.frames.get? id = some (callee.frame s.calls.current? id))
      (recalls : ∀ f, f ≠ id → s.memory.frames.Recalls s'.memory.frames f)

namespace State

variable {limit : Nat} {s s' t : State}

/-- What a step does to the call stack: the last step leaves no call, and one that fails leaves
frames and calls as they were. -/
def RestacksBy (limit : Nat) (s : State) : Progress → Prop
  | .running s' => s.Restacks limit s'
  | .finished _ s' =>
    s'.calls.frames = [] ∧ ∀ f, s.memory.frames.Recalls s'.memory.frames f
  | .failed _ s' => s'.memory.frames = s.memory.frames ∧ s'.calls.frames = s.calls.frames

/-- Only contents of frames have changed. -/
theorem restacks_of_calls (calls : s'.calls.frames = s.calls.frames)
    (recalls : ∀ f, s.memory.frames.Recalls s'.memory.frames f) : s.Restacks limit s' :=
  .drop 0 calls recalls

/-- No call is left. -/
theorem restacks_of_empty (empty : s'.calls.frames = [])
    (recalls : ∀ f, s.memory.frames.Recalls s'.memory.frames f) : s.Restacks limit s' := by
  refine .drop s.calls.depth ?_ recalls
  rw [empty, ← CallStack.length_frames, List.drop_length]

/-- What was logged, and which operands there were, does not matter. -/
theorem RestacksBy.after {p : Progress} (h : t.RestacksBy limit p)
    (calls : t.calls.frames = s.calls.frames) (memory : t.memory.frames = s.memory.frames) :
    s.RestacksBy limit p := by
  have current : t.calls.current? = s.calls.current? := by
    rw [CallStack.current?_eq, CallStack.current?_eq, calls]
  have depth : t.calls.depth = s.calls.depth := by
    rw [← CallStack.length_frames, ← CallStack.length_frames, calls]
  have from_ {s' : State} (h : t.Restacks limit s') : s.Restacks limit s' := by
    cases h with
    | drop n frames recalls => exact .drop n (calls ▸ frames) (memory ▸ recalls)
    | push callee id room fits frames fresh created recalls =>
      exact .push callee id (depth ▸ room) fits (calls ▸ frames) (memory ▸ fresh)
        (current ▸ created) (memory ▸ recalls)
  cases p with
  | running s' => exact from_ h
  | finished v s' => exact ⟨h.1, memory ▸ h.2⟩
  | failed f s' => exact ⟨h.1.trans memory, h.2.trans calls⟩

theorem Restacks.congr (h : s.Restacks limit s') (memory : t.memory.frames = s'.memory.frames)
    (calls : t.calls.frames = s'.calls.frames) : s.Restacks limit t := by
  cases h with
  | drop n frames recalls => exact .drop n (calls.trans frames) (memory ▸ recalls)
  | push callee id room fits frames fresh created recalls =>
    exact .push callee id room fits (calls.trans frames) fresh (memory ▸ created)
      (memory ▸ recalls)

theorem Restacks.resume (h : s.Restacks limit t) (v : Value) : RestacksBy limit s (t.resume v) := by
  obtain ⟨memory, ⟨calls, depth, hd⟩⟩ := t
  cases calls with
  | nil =>
    cases h with
    | drop n frames recalls => exact ⟨rfl, recalls⟩
    | push callee id room fits frames fresh created recalls => cases frames
  | cons c rest => exact h.congr rfl rfl

end State

/-- The handle of a new frame has named nothing before: whatever is there is the frame of a call, or
kept. -/
theorem Arena.Coherent.get?_of_created {Q : Closure Value → Prop} {R : Ref → Prop}
    {a b : Arena Value} {calls : List Call} {id : FrameId} {fr : Frame Value}
    (h : a.Coherent Q R calls) (made : a.Created b id fr) : a.get? id = none := by
  cases here : a.get? id with
  | none => rfl
  | some old =>
    rcases h.matters id old here with running | kept
    · obtain ⟨c, hc, rfl⟩ := List.mem_map.1 running
      exact absurd (h.running c hc).active made.fresh.2
    · exact absurd kept made.fresh.1

namespace Machine

variable {Q : Closure Value → Prop} {R : Ref → Prop} {machine : Machine} {s t : State}
  {host : List Value} {calls rest : List Call} {c : Call} {callee : Callee}

theorem enter_restacks (h : s.memory.Coherent machine.image Q R s.calls.calls host)
    (sound : ∀ v ∈ callee.values, s.memory.frames.Sound Q R v) (fits : callee.Fits) :
    s.RestacksBy machine.maxDepth (machine.enter s callee) := by
  by_cases room : s.calls.depth < machine.maxDepth
  · obtain ⟨id, m', entered, -, made⟩ := enter_created h sound room
    rw [entered]
    refine .push callee id room fits rfl (h.arena.get?_of_created made) made.get?
      fun f hf fr here => ?_
    exact ⟨fr, (made.before here).resolve_left hf, .refl fr⟩
  · rw [enter_eq_fail room]
    exact ⟨rfl, rfl⟩

theorem logCalls_restacks {p : Progress} (h : s.RestacksBy machine.maxDepth p) :
    s.RestacksBy machine.maxDepth (machine.logCalls p) :=
  logCalls_keeps (P := s.RestacksBy machine.maxDepth) h fun _ _ _ logs before =>
    State.Restacks.congr before logs.frames rfl

/-- The innermost call is over. -/
theorem finish_restacks {m : Memory} (h : m.Coherent machine.image Q R (c :: rest) host)
    (v : Value) :
    State.RestacksBy machine.maxDepth ⟨m, .of (c :: rest)⟩ (finish ⟨m, .of (c :: rest)⟩ v) := by
  have ended : State.Restacks machine.maxDepth ⟨m, .of (c :: rest)⟩
      ⟨m.leave c, CallStack.drop (.of (c :: rest)) 1⟩ := .drop 1 rfl h.recedes_leave.recalls
  exact ended.resume v

/-- A return ends calls, or fails. -/
theorem escape_restacks {m : Memory} (h : m.Coherent machine.image Q R calls host) (c : Call)
    (v : Value) :
    State.RestacksBy machine.maxDepth ⟨m, .of calls⟩ (machine.escape ⟨m, .of calls⟩ c v) := by
  rcases machine.escape_cases ⟨m, .of calls⟩ c v with ⟨_, failed⟩ | ⟨n, returned⟩
  · rw [failed]
    exact ⟨rfl, rfl⟩
  · rw [returned]
    have split : m.Coherent machine.image Q R
        (calls.take (n + 1) ++ calls.drop (n + 1)) host := by
      rwa [List.take_append_drop]
    refine State.Restacks.resume (.drop (n + 1) ?_ split.recedes_leaveReturning.recalls) v
    simp only [CallStack.frames, CallStack.calls_drop, List.map_drop]

/-- What an effect does to the call stack, in a state that only contents of frames set apart from
the one before. -/
theorem carryOut_restacks {m : Memory} {effect : Effect}
    (coherent : effect.Coherent machine.image Q R m c rest host)
    (spared : effect.Spares m) :
    State.RestacksBy machine.maxDepth ⟨m, .of (c :: rest)⟩ (machine.carryOut c rest effect) := by
  cases effect with
  | next stack m₁ =>
    have changed : State.RestacksBy machine.maxDepth ⟨m, .of (c :: rest)⟩
        (.running ⟨m₁, .of ({ c with stack } :: rest)⟩) :=
      State.restacks_of_calls rfl spared.recalls
    exact logCalls_restacks changed
  | fault stack cause m₁ => exact ⟨spared, rfl⟩
  | enter stack callee m₁ =>
    obtain ⟨frames, fits⟩ := spared
    have sound : ∀ v ∈ callee.values,
        m₁.frames.Sound Q (m.store.Grown m₁.store R) v := fun v hv =>
      coherent.coherent.host v (List.mem_append_left host hv)
    have entered : State.RestacksBy machine.maxDepth ⟨m₁, .of ({ c with stack } :: rest)⟩
        (machine.enter ⟨m₁, .of ({ c with stack } :: rest)⟩ callee) :=
      enter_restacks coherent.coherent sound fits
    exact logCalls_restacks (entered.after rfl frames)
  | finish stack v m₁ =>
    have ended : State.RestacksBy machine.maxDepth ⟨m₁, .of ({ c with stack } :: rest)⟩
        (finish ⟨m₁, .of ({ c with stack } :: rest)⟩ v) := finish_restacks coherent.coherent v
    exact ended.after rfl spared
  | escape stack v m₁ =>
    have ended : State.RestacksBy machine.maxDepth ⟨m₁, .of ({ c with stack } :: rest)⟩
        (machine.escape ⟨m₁, .of ({ c with stack } :: rest)⟩ { c with stack } v) :=
      escape_restacks coherent.coherent _ v
    exact ended.after rfl spared

/-- **What a step does to the call stack.** -/
theorem step_restacks (h : s.memory.Coherent machine.image Q R s.calls.calls host) :
    s.RestacksBy machine.maxDepth (machine.step s) := by
  have coherent : s.memory.Coherent machine.image (fun _ => True) R s.calls.calls host :=
    h.mono fun _ _ => trivial
  have steps := machine.step_stepsTo s
  generalize machine.step s = p at steps ⊢
  cases steps with
  | idle => exact ⟨rfl, rfl⟩
  | unread _ noted | valueless _ noted _ => exact ⟨noted.frames, rfl⟩
  | @ends _ m₀ c rest v _ noted _ =>
    have ended : State.RestacksBy machine.maxDepth ⟨m₀, .of (c :: rest)⟩
        (finish ⟨m₀, .of (c :: rest)⟩ v) := finish_restacks (coherent.relog noted) v
    exact ended.after rfl noted.frames
  | @executes _ m₀ c rest i next effect _ noted executed =>
    have same := coherent.relog noted
    have moved : m₀.Coherent machine.image (fun _ => True) R (c.moved next :: rest) host :=
      same.restack rfl rfl same.stack_sound same.host
    have carried : State.RestacksBy machine.maxDepth ⟨m₀, .of (c.moved next :: rest)⟩
        (machine.carryOut (c.moved next) rest effect) := by
      rw [← executed]
      exact carryOut_restacks (Call.execute_coherent moved i fun _ _ _ _ => trivial)
        ((c.moved next).execute_spares machine.image m₀ i)
    exact carried.after rfl noted.frames

end Machine

/-! ## Frames that name their callers -/

namespace Arena

variable {a b : Arena Value} {f? : Option FrameId} {fs : List FrameId}

/-- Following the callers from a frame, one comes by the frames of the list and to an end. -/
inductive Invoked (a : Arena Value) : Option FrameId → List FrameId → Prop where
  | nil : Invoked a none []
  | cons {f : FrameId} {fs : List FrameId} {fr : Frame Value} (here : a.get? f = some fr)
      (callers : Invoked a fr.invoking fs) : Invoked a (some f) (f :: fs)

theorem Invoked.drop (h : a.Invoked f? fs) (n : Nat) :
    a.Invoked (fs.drop n).head? (fs.drop n) := by
  induction h generalizing n with
  | nil =>
    rw [List.drop_nil]
    exact .nil
  | cons here callers ih =>
    cases n with
    | zero => exact .cons here callers
    | succ n => exact ih n

/-- The frames are still there, and name the same callers. -/
theorem Invoked.recall (h : a.Invoked f? fs) (recalls : ∀ f ∈ fs, a.Recalls b f)
    (there : ∀ f ∈ fs, ∃ fr, b.get? f = some fr) : b.Invoked f? fs := by
  induction h with
  | nil => exact .nil
  | @cons f fs fr here callers ih =>
    obtain ⟨fr', here'⟩ := there f List.mem_cons_self
    obtain ⟨old, here₀, same⟩ := recalls f List.mem_cons_self fr' here'
    cases here.symm.trans here₀
    refine .cons here' (same.invoking ▸ ih ?_ ?_)
    · exact fun g hg => recalls g (List.mem_cons_of_mem _ hg)
    · exact fun g hg => there g (List.mem_cons_of_mem _ hg)

end Arena

theorem Callee.invoking_frame (callee : Callee) (invoking : Option FrameId) (id : FrameId) :
    (callee.frame invoking id).invoking = invoking := by
  cases callee <;> rfl

namespace State

variable {Q : Closure Value → Prop} {R : Ref → Prop} {image : Image} {host : List Value}
  {limit : Nat} {s s' : State}

/-- The frames of the calls in progress are linked by their callers, and there are not too many. -/
structure Linked (limit : Nat) (s : State) : Prop where
  invoked : s.memory.frames.Invoked s.calls.current? s.calls.frames
  within : s.calls.depth ≤ limit

/-- **Whatever happens to the call stack, it stays linked.** -/
theorem Linked.restack (h : s.Linked limit) (happens : s.Restacks limit s')
    (coherent : s'.memory.Coherent image Q R s'.calls.calls host) : s'.Linked limit := by
  have there : ∀ f ∈ s'.calls.frames, ∃ fr, s'.memory.frames.get? f = some fr := by
    intro f hf
    obtain ⟨c, hc, rfl⟩ := List.mem_map.1 hf
    exact (coherent.arena.running c hc).active.exists_frame
  cases happens with
  | drop n frames recalls =>
    constructor
    · rw [CallStack.current?_eq]
      rw [frames] at there ⊢
      exact (h.invoked.drop n).recall (fun f _ => recalls f) there
    · rw [← CallStack.length_frames, frames, List.length_drop, CallStack.length_frames]
      exact Nat.le_trans (Nat.sub_le _ n) h.within
  | push callee id room fits frames _ created recalls =>
    constructor
    · rw [CallStack.current?_eq, frames]
      refine .cons created ?_
      rw [callee.invoking_frame]
      have distinct : id ∉ s.calls.frames := by
        have nodup : s'.calls.frames.Nodup := coherent.arena.distinct
        rw [frames] at nodup
        exact (List.nodup_cons.1 nodup).1
      refine h.invoked.recall (fun f hf => recalls f fun he => distinct (he ▸ hf)) fun f hf => ?_
      exact there f (frames ▸ List.mem_cons_of_mem id hf)
    · rw [← CallStack.length_frames, frames, List.length_cons, CallStack.length_frames]
      exact room

end State

/-! ## All sessions -/

namespace Session

variable {machine : Machine} {x x' : Session}

/-- **What a move does to the call stack.** -/
theorem Move.restacks (hm : Move machine x x') (hx : x.Coherent machine) :
    x.state.Restacks machine.maxDepth x'.state := by
  obtain ⟨R, hx⟩ := hx
  have unchanged {s s' : State} (calls : s'.calls = s.calls)
      (frames : s'.memory.frames = s.memory.frames) : s.Restacks machine.maxDepth s' :=
    State.restacks_of_calls (congrArg CallStack.frames calls) fun _ => Arena.recalls_of_eq frames
  cases hm with
  | step hs =>
    have stepped := Machine.step_restacks hx
    rw [hs] at stepped
    exact stepped
  | @finish s s' v host h hs =>
    have stepped := Machine.step_restacks hx
    rw [hs] at stepped
    exact State.restacks_of_empty stepped.1 stepped.2
  | fail hs =>
    have stepped := Machine.step_restacks hx
    rw [hs] at stepped
    exact State.restacks_of_calls stepped.2 fun _ => Arena.recalls_of_eq stepped.1
  | @abandon s host h =>
    exact State.restacks_of_empty rfl hx.recedes_dropAll.recalls
  | answer asks => exact unchanged rfl asks.spares
  | @enter m m' calls callee s' host h asks hs =>
    obtain ⟨rfl, fits⟩ := asks.spares
    obtain ⟨-, sound⟩ := Coherent.asks hx asks
    have entered : State.RestacksBy machine.maxDepth ⟨m', calls⟩
        (machine.enter ⟨m', calls⟩ callee) := Machine.enter_restacks hx sound fits
    rw [hs] at entered
    exact entered
  | plain => exact unchanged rfl rfl
  | string => exact unchanged rfl rfl
  | array => exact unchanged rfl rfl
  | object => exact unchanged rfl rfl
  | read => exact unchanged rfl rfl
  | write => exact unchanged rfl rfl
  | forget => exact unchanged rfl rfl
  | @census s host h =>
    refine State.restacks_of_calls rfl fun f fr hf => ?_
    have culled := Machine.census_culled hx (Machine.census_closed hx fun v hv => hv)
    exact ⟨fr, (culled.before hf).1, .refl fr⟩

theorem linked_of_reached {classes : List LoadClass} {log : Log} {store : Store}
    {transcript : Transcript} (loaded : Image.load classes = (log, .ok (machine.image, store)))
    (reached : Relation.ReflTransGen (Move machine) (start store transcript) x) :
    x.Coherent machine ∧ x.state.Linked machine.maxDepth := by
  induction reached with
  | refl => exact ⟨coherent_start loaded transcript, .nil, Nat.zero_le _⟩
  | tail _ hm ih =>
    obtain ⟨coherent, linked⟩ := ih
    obtain ⟨R, after⟩ := coherent.move hm
    exact ⟨⟨R, after⟩, linked.restack (hm.restacks coherent) after⟩

/-- A host that holds nothing but `nil` can have code called that takes no arguments. -/
theorem reaches_call {image : Image} {store : Store} {log : Log}
    (loaded : Image.load bareClasses = (log, .ok (image, store))) {code : Code}
    (coded : code.block.primitive = none) (arity : code.block.nargs = 0) :
    ∃ (x : Session) (id : FrameId), Relation.ReflTransGen (Move { image }) (start store {}) x
      ∧ x.state.calls.calls = [{ frame := id, code }]
      ∧ x.state.memory.frames.get? id = some (Frame.ofMethod .nil code .nil [] none id) := by
  have first : Move { image } (start store {}) ⟨Machine.start store {}, [.nil], {}⟩ :=
    .plain (.inl trivial)
  obtain ⟨R, hx⟩ := (coherent_start loaded {}).move first
  have plain : ∀ v ∈ (Callee.method code .nil []).values,
      (Machine.start store {}).memory.frames.Sound (Made {} 0) R v := by
    rintro v (_ | ⟨_, ⟨⟩⟩)
    trivial
  have room : (Machine.start store {}).calls.depth < ({ image } : Machine).maxDepth :=
    show 0 < 10000 by decide
  obtain ⟨id, m, entered, -, made⟩ := Machine.enter_created hx plain room
  have asked : invoke image (Machine.start store {}).memory .nil code []
      = .enter (.method code .nil []) (Machine.start store {}).memory := by
    simp only [invoke, Code.arity, coded, arity, List.length_nil, ne_eq, not_true, if_false]
  have asks : Asks image (Machine.start store {}).memory [.nil]
      (.enter (.method code .nil []) (Machine.start store {}).memory) :=
    asked ▸ .method code List.mem_cons_self (List.forall_mem_nil _)
  exact ⟨_, id, (Relation.ReflTransGen.single first).tail (.enter asks entered), rfl, made.get?⟩

/-- The chain of callers of the innermost call: it ends, comes by no frame twice, and only by frames
that are there and neither popped nor returned from; it is as long as the depth says, and not longer
than the limit. -/
structure Chain (limit : Nat) (s : State) (chain : List FrameId) : Prop where
  invoked : s.memory.frames.Invoked s.calls.current? chain
  distinct : chain.Nodup
  live : ∀ f ∈ chain, ∃ slot fr, s.memory.frames.slotOf? f = some slot ∧ slot.popped = false
    ∧ slot.frame = some fr ∧ fr.returned = false
  length : chain.length = s.calls.depth
  empty : s.calls.depth = 0 ↔ s.calls.current? = none
  within : chain.length ≤ limit

/-- **The call stack stays well formed.**  Whatever has been loaded and run, the frames of the calls
in progress form a chain of callers.  A step makes the chain longer only by one call that was given
as many arguments as it takes and for which there was room.  What fails, fails before a frame is
made or a call is counted: a step that fails leaves frames and calls as they were, and so do a call
for which there is no room, a method and a block with another number of arguments than they take. -/
theorem calls_stay_linked {classes : List LoadClass} {log : Log} {store : Store}
    {transcript : Transcript} (loaded : Image.load classes = (log, .ok (machine.image, store)))
    (reached : Relation.ReflTransGen (Move machine) (start store transcript) x) :
    (∃ chain, Chain machine.maxDepth x.state chain)
    ∧ (∀ s, machine.step x.state = .running s → x.state.calls.depth < s.calls.depth →
      x.state.calls.depth < machine.maxDepth ∧ s.calls.depth = x.state.calls.depth + 1
        ∧ ∃ (callee : Callee) (id : FrameId), callee.args.length = callee.code.block.nargs
          ∧ s.calls.current? = some id
          ∧ s.memory.frames.get? id = some (callee.frame x.state.calls.current? id))
    ∧ (∀ f s, machine.step x.state = .failed f s → s.memory.frames = x.state.memory.frames
      ∧ s.calls.frames = x.state.calls.frames ∧ s.calls.depth = x.state.calls.depth)
    ∧ (∀ callee, machine.maxDepth ≤ x.state.calls.depth →
      machine.enter x.state callee = x.state.fail .callStackOverflow)
    ∧ (∀ receiver code (args : List Value), args.length ≠ code.arity →
      invoke machine.image x.state.memory receiver code args
          = .fault (.argumentCount code.block.qualified code.arity args.length) x.state.memory
        ∧ machine.perform x.state receiver code args = .failure (x.state.abandon.failure
          (.argumentCount code.block.qualified code.arity args.length)) x.state.abandon)
    ∧ ∀ (p : Primitive) (c : Closure Value) (args : List Value),
      p = .blockValue ∨ p = .blockValue1 ∨ p = .blockValue2 →
      args.length ≠ c.code.block.nargs →
      p.apply machine.image x.state.memory (.block c) args = .fault
        (.blockArgumentCount c.code.block.qualified c.code.block.nargs args.length)
        x.state.memory := by
  obtain ⟨⟨R, hx⟩, linked⟩ := linked_of_reached loaded reached
  have stepped := Machine.step_restacks hx
  refine ⟨⟨x.state.calls.frames, ?_⟩, fun s hs deeper => ?_, fun f s hs => ?_,
    fun callee full => ?_, fun receiver code args arity => ?_, fun p c args value arity => ?_⟩
  · refine ⟨linked.invoked, hx.arena.distinct, fun f hf => ?_, x.state.calls.length_frames, ?_, ?_⟩
    · obtain ⟨c, hc, rfl⟩ := List.mem_map.1 hf
      obtain ⟨⟨slot, hs, popped⟩, -, returned⟩ := hx.arena.running c hc
      obtain ⟨fr, hfr, here⟩ := Arena.exists_frame_of_slotOf? hs
      exact ⟨slot, fr, hs, popped, hfr, returned fr here⟩
    · rw [CallStack.current?_eq, List.head?_eq_none_iff, ← List.length_eq_zero_iff,
        CallStack.length_frames]
    · exact x.state.calls.length_frames.symm ▸ linked.within
  · rw [hs] at stepped
    cases stepped with
    | drop n frames _ =>
      have shorter : s.calls.depth ≤ x.state.calls.depth := by
        rw [← CallStack.length_frames, frames, List.length_drop, CallStack.length_frames]
        exact Nat.sub_le _ n
      exact absurd deeper (Nat.not_lt.2 shorter)
    | push callee id room fits frames _ created _ =>
      have depth : s.calls.depth = x.state.calls.depth + 1 := by
        rw [← CallStack.length_frames, frames, List.length_cons, CallStack.length_frames]
      have current : s.calls.current? = some id := by
        rw [CallStack.current?_eq, frames]
        rfl
      exact ⟨room, depth, callee, id, fits, current, created⟩
  · rw [hs] at stepped
    obtain ⟨frames, calls⟩ := stepped
    exact ⟨frames, calls, by rw [← CallStack.length_frames, calls, CallStack.length_frames]⟩
  · exact Machine.enter_eq_fail (Nat.not_lt.2 full)
  · refine ⟨invoke_eq_fault arity _ _ _, ?_⟩
    simp only [Machine.perform, invoke_eq_fault arity]
  · have mismatch : Primitive.blockToEnter machine.image (.block c) args = .error
        (.blockArgumentCount c.code.block.qualified c.code.block.nargs args.length) := by
      simp only [Primitive.blockToEnter, Primitive.expectBlock, bind, Except.bind]
      exact if_neg arity
    rcases value with rfl | rfl | rfl <;> simp only [Primitive.apply, mismatch] <;> rfl

/-- A machine that has entered one call. -/
theorem calls_stay_linked_once :
    ∃ (machine : Machine) (store : Store) (x : Session) (chain : List FrameId),
      Relation.ReflTransGen (Move machine) (start store {}) x ∧ x.state.calls.depth = 1
      ∧ Chain machine.maxDepth x.state chain := by
  obtain ⟨log, image, store, loaded⟩ := bareClasses_load
  have coded : closureMaker.block.primitive = none := rfl
  obtain ⟨x, id, reached, calls, -⟩ := reaches_call loaded coded rfl
  have depth : x.state.calls.depth = 1 := by
    rw [x.state.calls.depth_eq, calls]
    rfl
  obtain ⟨chain, linked⟩ := (@calls_stay_linked { image } x _ _ _ _ loaded reached).1
  exact ⟨{ image }, store, x, chain, reached, depth, linked⟩

end Session

end Colloquy
