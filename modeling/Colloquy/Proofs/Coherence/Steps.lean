import Colloquy.Proofs.Coherence.Execution
import Colloquy.Proofs.Stepping

/-!
# Steps keep memory coherent

A step is an instruction, followed by a new call, by the end of the innermost call or by a return
through several calls.  All of these keep memory coherent (`Machine.step_coherent`), and so does
dropping the calls in progress (`State.abandon_coherent`).
-/

namespace Colloquy

variable {Q : Closure Value → Prop} {R : Ref → Prop} {image : Image} {m m' : Memory}
  {calls rest : List Call} {c : Call} {host : List Value} {v : Value}

/-- Closures are made from frames and the next identity. -/
theorem Memory.closure_congr (frames : m'.frames = m.frames) (serial : m'.serial = m.serial)
    (f : FrameId) (index : Nat) : m'.closure f index = m.closure f index := by
  simp only [closure, frame, frames, serial]

/-! ## Calls that are over -/

namespace Memory

/-- What leaving a call does to its frame before the frame is released. -/
def lastWords (c : Call) (fr : Frame Value) : Frame Value := { fr with left := c.stack }

/-- What a return does to the frame of a call before the frame is released. -/
def lastWordsReturning (c : Call) (fr : Frame Value) : Frame Value :=
  { fr with returned := fr.isMethod, left := c.stack }

theorem frames_leave (m : Memory) (c : Call) :
    (m.leave c).frames = (m.frames.modify c.frame (lastWords c)).release c.frame := by
  simp only [leave, frames_trace]
  rfl

theorem sameData_leave (m : Memory) (c : Call) : m.SameData (m.leave c) :=
  ⟨m.store_leave c, m.serial_leave c, m.transcript_leave c⟩

theorem frames_leave_markReturned (m : Memory) (c : Call) :
    ((m.markReturned c).leave c).frames
      = (m.frames.modify c.frame (lastWordsReturning c)).release c.frame := by
  rw [frames_leave, markReturned, Arena.modify_modify]
  rfl

theorem sameData_leave_markReturned (m : Memory) (c : Call) :
    m.SameData ((m.markReturned c).leave c) :=
  have marked : m.SameData (m.markReturned c) := ⟨rfl, rfl, rfl⟩
  marked.trans (sameData_leave _ c)

theorem sameLinks_lastWords (c : Call) (fr : Frame Value) : fr.SameLinks (lastWords c fr) :=
  ⟨rfl, rfl, rfl, rfl, rfl⟩

theorem sameLinks_lastWordsReturning (c : Call) (fr : Frame Value) :
    fr.SameLinks (lastWordsReturning c fr) :=
  ⟨rfl, rfl, rfl, rfl, rfl⟩

/-- The frame of the innermost call is given up, whether or not it is marked as returned from. -/
theorem Coherent.pop (h : m.Coherent image Q R (c :: rest) host) {g : Frame Value → Frame Value}
    (hg : g = lastWords c ∨ g = lastWordsReturning c)
    (frames : m'.frames = (m.frames.modify c.frame g).release c.frame)
    (store : m'.store = m.store) : m'.Coherent image Q R rest host := by
  have links (fr : Frame Value) : fr.SameLinks (g fr) := by
    rcases hg with rfl | rfl
    · exact sameLinks_lastWords c fr
    · exact sameLinks_lastWordsReturning c fr
  have sound (fr : Frame Value) (hs : m.frames.SoundFrame Q R fr) :
      m.frames.SoundFrame Q R (g fr) := by
    rcases hg with rfl | rfl <;> exact ⟨hs.locals, hs.receiver, h.stack_sound⟩
  obtain ⟨arena, persists⟩ := h.arena.pop links fun fr _ => sound fr
  exact h.reframe (frames ▸ arena) (frames ▸ persists) store

theorem Coherent.leave (h : m.Coherent image Q R (c :: rest) host) :
    (m.leave c).Coherent image Q R rest host :=
  h.pop (.inl rfl) (frames_leave m c) (m.store_leave c)

theorem Coherent.leaveReturning {past : List Call} (h : m.Coherent image Q R (past ++ rest) host) :
    (m.leaveReturning past).Coherent image Q R rest host := by
  induction past generalizing m with
  | nil => exact h
  | cons c past ih =>
    exact ih (h.pop (.inr rfl) (frames_leave_markReturned m c)
      (sameData_leave_markReturned m c).store)

theorem sameData_leaveReturning (m : Memory) (past : List Call) :
    m.SameData (m.leaveReturning past) := by
  induction past generalizing m with
  | nil => exact .refl m
  | cons c past ih => exact (sameData_leave_markReturned m c).trans (ih _)

theorem sameData_dropAll (m : Memory) (past : List Call) :
    m.SameData (past.foldl Memory.drop m) := by
  induction past generalizing m with
  | nil => exact .refl m
  | cons c past ih =>
    have dropped : m.SameData (m.drop c) := ⟨rfl, rfl, rfl⟩
    exact dropped.trans (ih _)

theorem Coherent.dropAll (h : m.Coherent image Q R calls host) :
    (calls.foldl Memory.drop m).Coherent image Q R [] host := by
  induction calls generalizing m with
  | nil => exact h
  | cons c rest ih => exact ih (h.pop (.inl rfl) rfl rfl)

end Memory

/-- Dropping the calls in progress keeps memory coherent. -/
theorem State.abandon_coherent {s : State}
    (h : s.memory.Coherent image Q R s.calls.calls host) :
    s.abandon.memory.Coherent image Q R s.abandon.calls.calls host := h.dropAll

/-- The closure that the next step makes, if it carries out a block instruction. -/
def State.closure? (s : State) : Option (Closure Value) :=
  match s.calls.calls with
  | [] => none
  | c :: _ =>
    match Instruction.decodeAt c.code.block.bytecode c.ip with
    | .ok (some (.block index, _)) => (s.memory.closure c.frame index.toNat).toOption
    | _ => none

/-! ## New calls -/

/-- The frame that a callee runs in. -/
def Callee.frame (invoking : Option FrameId) (id : FrameId) : Callee → Frame Value
  | method code receiver args => Frame.ofMethod .nil code receiver args invoking id
  | block closure args => Frame.ofClosure .nil closure args invoking

theorem Callee.code_frame (callee : Callee) (invoking : Option FrameId) (id : FrameId) :
    (callee.frame invoking id).code = callee.code := by
  cases callee <;> rfl

namespace Machine

variable {machine : Machine} {s s' : State} {callee : Callee}

/-- A new call, where there is room for it. -/
theorem enter_eq (room : s.calls.depth < machine.maxDepth) (callee : Callee) :
    machine.enter s callee =
      let made := s.memory.frames.alloc (callee.frame s.calls.current?)
      let memory : Memory := { s.memory with frames := made.1 }
      .running ⟨memory.trace fun _ => "enter " ++ callee.code.block.qualified,
        s.calls.push { frame := made.2, code := callee.code }⟩ := by
  obtain ⟨⟨frames, store, serial, transcript, logging, log⟩, calls⟩ := s
  simp only [enter, if_pos room]
  cases callee <;> rfl

/-- Without room, a new call fails and changes nothing. -/
theorem enter_eq_fail (full : ¬ s.calls.depth < machine.maxDepth) :
    machine.enter s callee = s.fail .callStackOverflow := by
  unfold enter
  rw [if_neg full]

/-- A call that has begun is on top, in the frame that has been made for it. -/
theorem enter_eq_running (h : machine.enter s callee = .running s') :
    let made := s.memory.frames.alloc (callee.frame s.calls.current?)
    let memory : Memory := { s.memory with frames := made.1 }
    s' = ⟨memory.trace fun _ => "enter " ++ callee.code.block.qualified,
      s.calls.push { frame := made.2, code := callee.code }⟩ := by
  by_cases room : s.calls.depth < machine.maxDepth
  · rw [enter_eq room] at h
    cases h
    rfl
  · rw [enter_eq_fail room] at h
    cases h

/-- **A new call has a frame of its own**, if there is room for it. -/
theorem enter_created (h : s.memory.Coherent image Q R s.calls.calls host)
    (sound : ∀ v ∈ callee.values, s.memory.frames.Sound Q R v)
    (room : s.calls.depth < machine.maxDepth) :
    ∃ id m',
      machine.enter s callee = .running ⟨m', s.calls.push { frame := id, code := callee.code }⟩
      ∧ s.memory.SameData m'
      ∧ s.memory.frames.Created m'.frames id (callee.frame s.calls.current? id) := by
  obtain ⟨⟨frames, store, serial, transcript, logging, log⟩, calls⟩ := s
  simp only [enter, if_pos room]
  cases callee with
  | method code receiver args =>
    refine ⟨_, _, rfl, ⟨by simp, by simp, by simp⟩, ?_⟩
    rw [Memory.frames_trace]
    exact Arena.created_alloc h.arena.tidy h.arena.balanced (by simp [Frame.ofMethod])
  | block closure args =>
    refine ⟨_, _, rfl, ⟨by simp, by simp, by simp⟩, ?_⟩
    rw [Memory.frames_trace]
    have kept := (Value.each_block.1 (sound _ List.mem_cons_self)).1.keeps
    have enclosing : ∀ _ e : FrameId,
        (Frame.ofClosure Value.nil closure args calls.current?).enclosing = some e →
          frames.Keeps e := fun _ e he => by
      cases he
      exact kept
    exact Arena.created_alloc h.arena.tidy h.arena.balanced enclosing

/-- The values of a new frame are those of the callee. -/
theorem soundFrame_callee (sound : ∀ v ∈ callee.values, m.frames.Sound Q R v)
    (invoking : Option FrameId) (id : FrameId) :
    m.frames.SoundFrame Q R (callee.frame invoking id) := by
  have slots (code : Code) (args : List Value) (ha : ∀ v ∈ args, m.frames.Sound Q R v) :
      ∀ v ∈ Frame.slots .nil code args, m.frames.Sound Q R v := by
    intro v hv
    rcases Array.mem_append.1 hv with hv | hv
    · exact ha v (List.mem_toArray.1 hv)
    · rw [Array.eq_of_mem_replicate hv]
      trivial
  cases callee with
  | method code receiver args =>
    obtain ⟨hr, ha⟩ := List.forall_mem_cons.1 sound
    exact ⟨slots code args ha, hr, by simp [Callee.frame, Frame.ofMethod]⟩
  | block closure args =>
    obtain ⟨hc, ha⟩ := List.forall_mem_cons.1 sound
    exact ⟨slots closure.code args ha, (Value.each_block.1 hc).2,
      by simp [Callee.frame, Frame.ofClosure]⟩

theorem coherent_of_created {id : FrameId} (h : m.Coherent image Q R calls host)
    (sound : ∀ v ∈ callee.values, m.frames.Sound Q R v) {invoking : Option FrameId}
    (made : m.frames.Created m'.frames id (callee.frame invoking id)) (store : m'.store = m.store) :
    m'.Coherent image Q R ({ frame := id, code := callee.code } :: calls) host := by
  rw [← callee.code_frame invoking id]
  refine h.reframe (h.arena.push made ?_ (soundFrame_callee sound invoking id) ?_) made.persists
    store
  · cases callee <;> rfl
  · cases callee with
    | method code receiver args => exact .inl ⟨rfl, rfl⟩
    | block closure args =>
      have secure := (Value.each_block.1 (sound _ List.mem_cons_self)).1
      exact .inr ⟨_, rfl, secure.keeps, secure.anchored, secure.nested⟩

/-! ## Steps -/

/-- What the state is like after something was done in memory `m` with `depth` calls.  The frame of
a new call is not kept by any closure yet. -/
def AfterProgress (image : Image) (Q : Closure Value → Prop) (R : Ref → Prop) (m : Memory)
    (depth : Nat) (host : List Value) : Progress → Prop
  | .running s => s.memory.Follows m image Q R s.calls.calls host
      ∧ (depth < s.calls.depth → ∀ f ∈ s.calls.current?, ¬ s.memory.frames.Keeps f)
  | .finished v s => s.memory.Follows m image Q R s.calls.calls (v :: host)
  | .failed _ s => s.memory.Follows m image Q R s.calls.calls host

theorem fail_coherent (cause : Cause) {depth : Nat}
    (h : s.memory.Follows m image Q R s.calls.calls host) :
    AfterProgress image Q R m depth host (s.fail cause) := h

/-- A value for the innermost call goes onto its stack. -/
theorem resume_coherent {depth : Nat} (hd : s.calls.depth ≤ depth)
    (h : s.memory.Follows m image Q R s.calls.calls (v :: host)) :
    AfterProgress image Q R m depth host (s.resume v) := by
  obtain ⟨memory, ⟨calls, d, hcalls⟩⟩ := s
  obtain ⟨serial, h⟩ := h
  cases calls with
  | nil => exact ⟨serial, h⟩
  | cons c rest =>
    exact ⟨⟨serial, h.receive (List.Subset.refl _)⟩, fun hlt => absurd hlt (Nat.not_lt.2 hd)⟩

theorem enter_coherent {depth : Nat}
    (h : s.memory.Follows m image Q R s.calls.calls (callee.values ++ host)) :
    AfterProgress image Q R m depth host (machine.enter s callee) := by
  obtain ⟨serial, h⟩ := h
  have sound : ∀ v ∈ callee.values, s.memory.frames.Sound Q (m.store.Grown s.memory.store R) v :=
    fun v hv => h.host v (List.mem_append_left host hv)
  have rest : s.memory.Coherent image Q (m.store.Grown s.memory.store R) s.calls.calls host :=
    h.hold fun v hv => h.host v (List.mem_append_right callee.values hv)
  by_cases room : s.calls.depth < machine.maxDepth
  · obtain ⟨id, m', he, same, made⟩ := enter_created h sound room
    rw [he]
    refine ⟨⟨Nat.le_trans serial (Nat.le_of_eq same.serial.symm), ?_⟩, fun _ f hf => ?_⟩
    · simp only [same.store]
      exact coherent_of_created rest sound made same.store
    · cases hf
      exact fun hk => made.fresh.1 (made.keeps_of_keeps hk)
  · unfold enter
    rw [if_neg room]
    exact fail_coherent _ ⟨serial, rest⟩

theorem logCalls_coherent {depth : Nat} {p : Progress}
    (h : AfterProgress image Q R m depth host p) :
    AfterProgress image Q R m depth host (machine.logCalls p) :=
  logCalls_keeps (P := AfterProgress image Q R m depth host) h fun _ _ _ logs before =>
    ⟨before.1.before logs, logs.frames.symm ▸ before.2⟩

theorem finish_coherent {depth : Nat} (hd : s.calls.depth ≤ depth) (hs : s.calls.calls = c :: rest)
    (h : s.memory.Follows m image Q R (c :: rest) (v :: host)) :
    AfterProgress image Q R m depth host (finish s v) := by
  obtain ⟨memory, ⟨calls, d, hcalls⟩⟩ := s
  subst hs
  refine resume_coherent (Nat.le_trans (Nat.sub_le d 1) hd) ⟨by simpa using h.serial, ?_⟩
  simp only [Memory.store_leave]
  exact h.coherent.leave

theorem escape_coherent {depth : Nat} (hd : s.calls.depth ≤ depth)
    (h : s.memory.Follows m image Q R s.calls.calls (v :: host)) :
    AfterProgress image Q R m depth host (machine.escape s c v) := by
  obtain ⟨serial, h⟩ := h
  have failed (cause : Cause) : AfterProgress image Q R m depth host (s.fail cause) :=
    fail_coherent cause ⟨serial, h.hold fun w hw => h.host w (List.mem_cons_of_mem v hw)⟩
  rcases machine.escape_cases s c v with ⟨cause, failure⟩ | ⟨n, returned⟩
  · rw [failure]
    exact failed cause
  · rw [returned]
    have same := Memory.sameData_leaveReturning s.memory (s.calls.calls.take (n + 1))
    refine resume_coherent (Nat.le_trans (Nat.sub_le _ (n + 1)) hd)
      ⟨Nat.le_trans serial (Nat.le_of_eq same.serial.symm), ?_⟩
    simp only [same.store]
    refine Memory.Coherent.leaveReturning ?_
    rw [CallStack.calls_drop, List.take_append_drop]
    exact h

/-- What the innermost call does keeps memory coherent, and so does what follows from it. -/
theorem carryOut_coherent {effect : Effect} (h : effect.Coherent machine.image Q R m c rest host) :
    AfterProgress machine.image Q R m (rest.length + 1) host (machine.carryOut c rest effect) := by
  unfold carryOut
  cases effect with
  | next stack m₁ => exact logCalls_coherent ⟨h, fun deeper => absurd deeper (Nat.lt_irrefl _)⟩
  | enter stack callee m₁ => exact logCalls_coherent (enter_coherent h)
  | finish stack v m₁ => exact finish_coherent (Nat.le_refl _) rfl h
  | escape stack v m₁ => exact escape_coherent (Nat.le_refl _) h
  | fault stack cause m₁ => exact fail_coherent cause h

/-- **Every step keeps memory coherent**, if what is known of closures holds of the one that the
step makes. -/
theorem step_coherent (h : s.memory.Coherent machine.image Q R s.calls.calls host)
    (also : ∀ closure, s.closure? = some closure → Q closure) :
    AfterProgress machine.image Q R s.memory s.calls.depth host (machine.step s) := by
  have steps := machine.step_stepsTo s
  generalize machine.step s = p at steps ⊢
  cases steps with
  | idle => exact fail_coherent _ h.follows
  | unread _ noted | valueless _ noted _ => exact fail_coherent _ (h.follows.before noted)
  | @ends _ m₀ c _ v _ noted last =>
    have same := h.relog noted
    have sound : m₀.frames.Sound Q R v := by
      obtain operand | ⟨fr, here, rfl⟩ := lastValue_eq_ok last
      · exact same.stack_sound v operand
      · exact same.receiver_sound here
    exact finish_coherent (Nat.le_refl _) rfl ((same.cons sound).follows.after noted)
  | @executes m m₀ c rest i next effect decoded noted executed =>
    have same := h.relog noted
    have moved : m₀.Coherent machine.image Q R (c.moved next :: rest) host :=
      same.restack rfl rfl same.stack_sound same.host
    have done := Call.execute_coherent moved i fun index closure block made => by
      subst block
      refine also closure ?_
      rw [Memory.closure_congr noted.frames noted.data.serial] at made
      have made : m.closure c.frame index.toNat = .ok closure := made
      simp only [State.closure?, CallStack.of, decoded, made, Except.toOption]
    rw [executed] at done
    exact carryOut_coherent (.after noted done)

end Machine

end Colloquy
