import Colloquy.Proofs.CallSites
import Colloquy.Proofs.Returns

/-!
# Calls and their callers

A step moves the innermost call on, or makes it wait for a new one, or ends calls and hands a value
to the caller (`Call.Takes`).  A call that waits is not touched before those above it are over.

Main statement: a send leaves one value in the place of its operands, whenever and however the call
that it made has ended (`Session.sends_return_once`).
-/

namespace Colloquy

/-! ## What a step does -/

/-- The calls after the innermost one of them was given a value. -/
def Call.handed (v : Value) : List Call → List Call
  | [] => []
  | c :: rest => { c with stack := v :: c.stack } :: rest

/-- The call is about to end with value `v`: its code is over, or it is about to return.  `left` are
the operands that it leaves. -/
inductive Call.Ends (c : Call) (m : Memory) (v : Value) (left : List Value) : Prop where
  | ranOut (decoded : Instruction.decodeAt c.code.block.bytecode c.ip = .ok none)
      (last : Machine.lastValue m c = .ok v) (operands : c.stack = left)
  | ret {next : Nat}
      (decoded : Instruction.decodeAt c.code.block.bytecode c.ip = .ok (some (.ret, next)))
      (operands : c.stack = v :: left)
  | blockReturn {next : Nat}
      (decoded : Instruction.decodeAt c.code.block.bytecode c.ip = .ok (some (.blockReturn, next)))
      (operands : c.stack = v :: left)

/-- The next instruction of the call is a return. -/
def Call.Returns (c : Call) : Prop :=
  ∃ next, Instruction.decodeAt c.code.block.bytecode c.ip = .ok (some (.ret, next))

/-- **What a step can do** in memory `m` with the calls `c :: rest`, if it does not fail. -/
inductive Call.Takes (machine : Machine) (m : Memory) (c : Call) (rest : List Call) :
    State → Prop where
  /-- The innermost call moves on. -/
  | next {i : Instruction} {next : Nat} {stack : List Value} {m₀ m₁ m' : Memory}
      (decoded : Instruction.decodeAt c.code.block.bytecode c.ip = .ok (some (i, next)))
      (before : m.Logs m₀)
      (effect : (c.moved next).execute machine.image m₀ i = .next stack m₁) (after : m₁.Logs m') :
      Takes machine m c rest ⟨m', .of ({ c.moved next with stack } :: rest)⟩
  /-- The innermost call waits for a new one. -/
  | enter {i : Instruction} {next : Nat} {stack : List Value} {callee : Callee} {frame : FrameId}
      {m₀ m₁ m' : Memory}
      (decoded : Instruction.decodeAt c.code.block.bytecode c.ip = .ok (some (i, next)))
      (before : m.Logs m₀)
      (effect : (c.moved next).execute machine.image m₀ i = .enter stack callee m₁)
      (made : m₁.frames.alloc (callee.frame (some c.frame)) = (m'.frames, frame))
      (data : m₁.SameData m') :
      Takes machine m c rest
        ⟨m', .of ({ frame, code := callee.code } :: { c.moved next with stack } :: rest)⟩
  /-- Calls are over, the innermost one at least, and their caller gets a value.  Only a return ends
  more than one. -/
  | leave {v : Value} {last : Call} {past outer : List Call} {m₀ m' : Memory} (before : m.Logs m₀)
      (ends : c.Ends m₀ v last.stack) (same : last.frame = c.frame) (split : rest = past ++ outer)
      (left : past = [] ∧ m' = m₀.leave last
        ∨ c.Returns ∧ m' = m₀.leaveReturning (last :: past)) :
      Takes machine m c rest ⟨m', .of (Call.handed v outer)⟩

/-- What a step that does not fail has done. -/
def Progress.Takes (machine : Machine) (m : Memory) (c : Call) (rest : List Call) : Progress → Prop
  | .running s => c.Takes machine m rest s
  | .finished v s => c.Takes machine m rest s ∧ ∃ m₀ left, m.Logs m₀ ∧ c.Ends m₀ v left
  | .failed _ _ => True

/-- What a step that fails can leave. -/
inductive State.Stalls (s : State) : State → Prop where
  | here {m' : Memory} (logs : s.memory.Logs m') : Stalls s ⟨m', s.calls⟩
  | within {c : Call} {rest : List Call} {next : Nat} {stack : List Value} {m' : Memory}
      (innermost : s.calls.calls = c :: rest) (taken : stack <:+ c.stack)
      (logs : s.memory.Logs m') : Stalls s ⟨m', .of ({ c.moved next with stack } :: rest)⟩

def Progress.Stalls (s : State) : Progress → Prop
  | .running _ | .finished _ _ => True
  | .failed _ s' => s.Stalls s'

namespace Machine

variable {machine : Machine} {s : State} {m m₀ : Memory} {c : Call} {rest : List Call}

/-- Calls are over, and their caller goes on, or nothing is left to do. -/
theorem resume_takes {v : Value} (last : Call) {past outer : List Call} {m' : Memory}
    (before : m.Logs m₀) (ends : c.Ends m₀ v last.stack) (same : last.frame = c.frame)
    (split : rest = past ++ outer)
    (left : past = [] ∧ m' = m₀.leave last ∨ c.Returns ∧ m' = m₀.leaveReturning (last :: past)) :
    (State.resume ⟨m', .of outer⟩ v).Takes machine m c rest := by
  have takes : c.Takes machine m rest ⟨m', .of (Call.handed v outer)⟩ :=
    .leave before ends same split left
  cases outer with
  | nil => exact ⟨takes, m₀, last.stack, before, ends⟩
  | cons d outer => exact takes

theorem logCalls_takes (h : ∀ m', s.memory.Logs m' → c.Takes machine m rest ⟨m', s.calls⟩) :
    (machine.logCalls (.running s)).Takes machine m c rest := by
  obtain ⟨m', logs, logged⟩ := machine.logCalls_running s.memory s.calls
  rw [logged]
  exact h m' logs

/-- A return ends calls, the innermost one at least. -/
theorem escape_takes {v : Value} (last : Call) (before : m.Logs m₀)
    (ends : c.Ends m₀ v last.stack) (same : last.frame = c.frame) (returns : c.Returns) :
    (machine.escape ⟨m₀, .of (last :: rest)⟩ last v).Takes machine m c rest := by
  rcases machine.escape_cases ⟨m₀, .of (last :: rest)⟩ last v with ⟨_, failed⟩ | ⟨k, returned⟩
  · rw [failed]
    trivial
  · have dropped : CallStack.drop (.of (last :: rest)) (k + 1) = .of (rest.drop k) :=
      CallStack.eq_of _
    rw [returned, dropped]
    exact resume_takes last before ends same (List.take_append_drop k rest).symm
      (.inr ⟨returns, rfl⟩)

/-- A new call begins, if there is room for it. -/
theorem enter_takes {i : Instruction} {next : Nat} {stack : List Value} {callee : Callee}
    {m₁ : Memory}
    (decoded : Instruction.decodeAt c.code.block.bytecode c.ip = .ok (some (i, next)))
    (before : m.Logs m₀)
    (effect : (c.moved next).execute machine.image m₀ i = .enter stack callee m₁) :
    (machine.logCalls (machine.enter ⟨m₁, .of ({ c.moved next with stack } :: rest)⟩ callee)).Takes
      machine m c rest := by
  by_cases room : rest.length + 1 < machine.maxDepth
  · rw [enter_eq room]
    refine logCalls_takes fun m' after => ?_
    have pushed (frame : FrameId) : CallStack.push (.of ({ c.moved next with stack } :: rest))
        { frame, code := callee.code }
        = .of ({ frame, code := callee.code } :: { c.moved next with stack } :: rest) :=
      CallStack.eq_of _
    dsimp only
    rw [pushed]
    refine .enter decoded before effect ?_ ?_
    · rw [after.frames, Memory.frames_trace]
      rfl
    · exact ⟨after.data.store.trans (Memory.store_trace _ _),
        after.data.serial.trans (Memory.serial_trace _ _),
        after.data.transcript.trans (Memory.transcript_trace _ _)⟩
  · rw [enter_eq_fail room]
    trivial

/-- **What a step can do.** -/
theorem step_takes (machine : Machine) (m : Memory) (c : Call) (rest : List Call) :
    (machine.step ⟨m, .of (c :: rest)⟩).Takes machine m c rest := by
  have steps := machine.step_stepsTo ⟨m, .of (c :: rest)⟩
  generalize machine.step ⟨m, .of (c :: rest)⟩ = p at steps ⊢
  cases steps with
  | unread | valueless => trivial
  | ends decoded noted last =>
    exact resume_takes _ noted (.ranOut decoded last rfl) rfl rfl (.inl ⟨rfl, rfl⟩)
  | @executes _ m₀ _ _ i next effect decoded noted executed =>
    have does := (c.moved next).execute_does machine.image m₀ i
    rw [executed] at does
    cases effect with
    | next stack m₁ =>
      exact logCalls_takes (s := ⟨m₁, _⟩) fun m' after => .next decoded noted executed after
    | enter stack callee m₁ => exact enter_takes decoded noted executed
    | finish stack v m₁ =>
      obtain ⟨rfl, rfl, operands⟩ := does.of_finish
      exact resume_takes { c.moved next with stack } noted (.blockReturn decoded operands) rfl rfl
        (.inl ⟨rfl, rfl⟩)
    | escape stack v m₁ =>
      obtain ⟨rfl, rfl, operands⟩ := does.of_escape
      exact escape_takes { c.moved next with stack } noted (.ret decoded operands) rfl
        ⟨next, decoded⟩
    | fault stack cause m₁ => trivial

/-- A value is handed on without a fault. -/
theorem resume_stalls (s t : State) (v : Value) : (t.resume v).Stalls s := by
  obtain ⟨memory, ⟨calls, depth, hd⟩⟩ := t
  cases calls <;> trivial

theorem logCalls_stalls {p : Progress} (h : p.Stalls s) : (machine.logCalls p).Stalls s :=
  logCalls_keeps (P := (·.Stalls s)) h fun _ _ _ _ _ => trivial

theorem escape_stalls {t : State} (h : s.Stalls t) (v : Value) :
    (machine.escape t c v).Stalls s := by
  rcases machine.escape_cases t c v with ⟨_, failed⟩ | ⟨n, returned⟩
  · rw [failed]
    exact h
  · rw [returned]
    exact resume_stalls s _ v

/-- **A step that fails changes nothing** but the log, and how far the innermost call has come. -/
theorem step_stalls (machine : Machine) (s : State) : (machine.step s).Stalls s := by
  have steps := machine.step_stepsTo s
  generalize machine.step s = p at steps ⊢
  cases steps with
  | idle => exact .here (.refl _)
  | unread _ noted | valueless _ noted _ => exact .here noted
  | ends => exact resume_stalls _ _ _
  | @executes m m₀ c rest i next effect _ noted executed =>
    have does := (c.moved next).execute_does machine.image m₀ i
    rw [executed] at does
    cases effect with
    | next stack m₁ =>
      have running : (Progress.running ⟨m₁, .of ({ c.moved next with stack } :: rest)⟩).Stalls
          ⟨m, .of (c :: rest)⟩ := trivial
      exact logCalls_stalls running
    | enter stack callee m₁ =>
      obtain ⟨receiver, args, code, m₂, -, operands, logged, reply⟩ := does.of_enter
      refine logCalls_stalls ?_
      by_cases room : rest.length + 1 < machine.maxDepth
      · rw [enter_eq room]
        trivial
      · rw [enter_eq_fail room]
        have spared := invoke_spares machine.image m₂ receiver code args
        rw [reply] at spared
        obtain ⟨rfl, -⟩ := spared
        refine .within rfl ?_ (noted.trans logged)
        have operands : c.stack = args.reverse ++ receiver :: stack := operands
        rw [operands]
        exact (List.suffix_cons _ _).trans (List.suffix_append _ _)
    | finish stack v m₁ => exact resume_stalls _ _ v
    | escape stack v m₁ =>
      obtain ⟨-, rfl, operands⟩ := does.of_escape
      have operands : c.stack = v :: stack := operands
      refine escape_stalls (.within rfl ?_ noted) v
      rw [operands]
      exact List.suffix_cons _ _
    | fault stack cause m₁ =>
      obtain ⟨logged, taken⟩ := does.of_fault
      exact .within rfl taken (noted.trans logged)

/-- A step that does not fail is one of an innermost call. -/
theorem exists_takes (unfailing : ∀ f s', machine.step s ≠ .failed f s') :
    ∃ c rest, s.calls.calls = c :: rest ∧ (machine.step s).Takes machine s.memory c rest := by
  obtain ⟨m, calls⟩ := s
  rw [calls.eq_of] at unfailing ⊢
  cases hcalls : calls.calls with
  | nil =>
    rw [hcalls] at unfailing
    exact absurd rfl (unfailing _ _)
  | cons c rest => exact ⟨c, rest, rfl, machine.step_takes m c rest⟩

theorem takes_of_step {s' : State} (hs : machine.step s = .running s')
    (innermost : s.calls.calls = c :: rest) : c.Takes machine s.memory rest s' := by
  obtain ⟨m, calls⟩ := s
  obtain rfl : calls = .of (c :: rest) := by rw [calls.eq_of, innermost]
  have takes := machine.step_takes m c rest
  rw [hs] at takes
  exact takes

end Machine

/-- A call that is to wait leaves the frames alone. -/
theorem Call.frames_of_enter {c : Call} {i : Image} {m m' : Memory} {instruction : Instruction}
    {stack : List Value} {callee : Callee}
    (h : c.execute i m instruction = .enter stack callee m') : m'.frames = m.frames := by
  have spared := c.execute_spares i m instruction
  rw [h] at spared
  exact spared.1

theorem Call.frames_handed (v : Value) (calls : List Call) :
    (handed v calls).map (·.frame) = calls.map (·.frame) := by
  cases calls <;> rfl

/-! ## Sends -/

/-- The call is about to send a message.  `next` is where it goes on, and `below` are the operands
below the receiver and the arguments. -/
structure Call.Sending (c : Call) (next : Nat) (receiver : Value) (args below : List Value) :
    Prop where
  instruction : ∃ argc selector, args.length = argc.toNat
    ∧ (Instruction.decodeAt c.code.block.bytecode c.ip = .ok (some (.send argc selector, next))
      ∨ Instruction.decodeAt c.code.block.bytecode c.ip
        = .ok (some (.sendSuper argc selector, next)))
  operands : c.stack = args.reverse ++ receiver :: below

/-- What a send leaves of the operands: a value in their place, or the value is still to come. -/
def Effect.Answers (below : List Value) : Effect → Prop
  | .next stack _ => ∃ v, stack = v :: below
  | .enter stack _ _ => stack = below
  | .finish _ _ _ | .escape _ _ _ => False
  | .fault _ _ _ => True

theorem Call.send_answers (c : Call) (i : Image) (m : Memory) {argc : Nat} (selector : String)
    (find : Value → Checked Code) {receiver : Value} {below : List Value}
    (operands : c.stack.drop argc = receiver :: below) :
    (c.send i m argc selector find).Answers below := by
  unfold send
  rw [operands]
  dsimp only
  split
  · trivial
  · split
    · exact ⟨_, rfl⟩
    · rfl
    · trivial

theorem Call.Sending.answers {c : Call} {next next' : Nat} {receiver : Value}
    {args below : List Value} (h : c.Sending next receiver args below) (i : Image) (m : Memory)
    {instruction : Instruction} (decoded : Instruction.decodeAt c.code.block.bytecode c.ip
      = .ok (some (instruction, next'))) :
    next' = next ∧ instruction.isSend = true
      ∧ ((c.moved next').execute i m instruction).Answers below := by
  obtain ⟨⟨argc, selector, count, found⟩, operands⟩ := h
  have dropped : (c.moved next').stack.drop argc.toNat = receiver :: below := by
    show c.stack.drop argc.toNat = receiver :: below
    rw [operands, ← count, ← List.length_reverse, List.drop_left]
  rcases found with found | found
  all_goals
    cases found.symm.trans decoded
    refine ⟨rfl, rfl, ?_⟩
    simp only [execute]
    split
    · exact (c.moved next).send_answers i m _ _ dropped
    · trivial

namespace Session

variable {machine : Machine} {x x' : Session} {c w : Call} {rest : List Call} {n : Nat}
  {fr : Frame Value}

/-- One step of a run that goes on. -/
inductive Stepped (machine : Machine) : Session → Session → Prop where
  | intro {s s' : State} {host : List Value} {h : History} (hs : machine.step s = .running s') :
      Stepped machine ⟨s, host, h⟩ ⟨s', host, (h.making s).calling s s'⟩

theorem Stepped.move (h : Stepped machine x x') : Move machine x x' := by
  cases h with
  | intro hs => exact .step hs

theorem Stepped.exists {s s' : State} (state : x.state = s) (hs : machine.step s = .running s') :
    ∃ x', Stepped machine x x' ∧ x'.state = s' := by
  subst state
  exact ⟨_, .intro hs, rfl⟩

/-- `x'` is the first session with a property that a run comes to after `x`. -/
inductive First (machine : Machine) (P : Session → Prop) : Session → Session → Prop where
  | next {x x' : Session} (stepped : Stepped machine x x') (here : P x') : First machine P x x'
  | later {x y x' : Session} (stepped : Stepped machine x y) (not : ¬ P y)
      (first : First machine P y x') : First machine P x x'

/-- The innermost call is that of the frame that was made as number `n`. -/
def Runs (x : Session) (f : FrameId) (n : Nat) : Prop :=
  x.state.calls.current? = some f ∧ x.history.number f = n

/-- The frame is still there, under its number and as that of the same activation. -/
structure Retains (x : Session) (f : FrameId) (n : Nat) (fr : Frame Value) : Prop where
  number : x.history.number f = n
  frame : ∃ fr', x.state.memory.frames.get? f = some fr' ∧ fr.SameLinks fr'

/-- A frame that stays on the call stack stays that of the same activation. -/
theorem Retains.move {f : FrameId} (h : x.Retains f n fr) (hm : Move machine x x')
    (hx : x.Coherent machine) (on : f ∈ x.state.calls.frames) (on' : f ∈ x'.state.calls.frames) :
    x'.Retains f n fr := by
  obtain ⟨number, fr₀, here, links⟩ := h
  obtain ⟨R, after⟩ := hx.move hm
  obtain ⟨d, hd, rfl⟩ := List.mem_map.1 on'
  obtain ⟨fr', here'⟩ := (after.arena.running d hd).active.exists_frame
  have recalls : x.state.memory.frames.Recalls x'.state.memory.frames d.frame := by
    cases hm.restacks hx with
    | drop k frames recalls => exact recalls d.frame
    | push callee id room fits frames _ created recalls =>
      refine recalls d.frame fun same => ?_
      have distinct : x'.state.calls.frames.Nodup := after.arena.distinct
      rw [frames] at distinct
      exact (List.nodup_cons.1 distinct).1 (same ▸ on)
  obtain ⟨fr₁, here₁, same⟩ := recalls fr' here'
  cases here.symm.trans here₁
  exact ⟨((hm.renumbers hx).number_eq on).trans number, fr', here', links.trans same⟩

/-- The call `w`, in the frame that was made as number `n`, waits for calls above it, or is over. -/
inductive Awaits (x : Session) (w : Call) (rest : List Call) (n : Nat) (fr : Frame Value) :
    Prop where
  | waits (a : Call) (above : List Call) (calls : x.state.calls.calls = a :: above ++ w :: rest)
      (retains : x.Retains w.frame n fr)
  | left (left : x.Left n)

/-- The call `w` has got a value. -/
structure Resumed (x : Session) (w : Call) (rest : List Call) (n : Nat) (fr : Frame Value) :
    Prop where
  calls : ∃ v, x.state.calls.calls = { w with stack := v :: w.stack } :: rest
  retains : x.Retains w.frame n fr

theorem Awaits.not_runs (h : x.Awaits w rest n fr) (hx : x.Coherent machine) :
    ¬ x.Runs w.frame n := by
  rintro ⟨current, number⟩
  cases h with
  | left left =>
    rw [CallStack.current?_eq] at current
    exact left.2 w.frame (List.mem_of_head? current) number
  | waits a above calls =>
    obtain ⟨R, coherent⟩ := hx
    have distinct : x.state.calls.frames.Nodup := coherent.arena.distinct
    rw [CallStack.frames, calls, List.cons_append, List.map_cons] at distinct
    have same : a.frame = w.frame := by
      rw [CallStack.current?, calls] at current
      exact Option.some.inj current
    rw [same] at distinct
    refine (List.nodup_cons.1 distinct).1 ?_
    exact List.mem_map.2 ⟨w, List.mem_append_right _ List.mem_cons_self, rfl⟩

theorem Resumed.runs (h : x.Resumed w rest n fr) : x.Runs w.frame n := by
  obtain ⟨⟨v, calls⟩, retains⟩ := h
  refine ⟨?_, retains.number⟩
  rw [CallStack.current?, calls]
  rfl

/-- **A waiting call is not touched before it gets its value.** -/
theorem Awaits.step (h : x.Awaits w rest n fr) (hx : x.Coherent machine) (numbered : x.Numbered)
    (stepped : Stepped machine x x') : x'.Awaits w rest n fr ∨ x'.Resumed w rest n fr := by
  have renumbers := stepped.move.renumbers hx
  cases h with
  | left left => exact .inl (.left (left.renumber renumbers))
  | waits a above calls retains =>
    have on : w.frame ∈ x.state.calls.frames := by
      simp only [CallStack.frames, calls, List.map_append, List.map_cons]
      exact List.mem_append_right _ List.mem_cons_self
    have waits (b : Call) (between : List Call)
        (calls' : x'.state.calls.calls = b :: between ++ w :: rest) : x'.Awaits w rest n fr :=
      .waits b between calls' (retains.move stepped.move hx on (by simp [CallStack.frames, calls']))
    have resumed {v : Value} (calls' : x'.state.calls.calls = Call.handed v (w :: rest)) :
        x'.Resumed w rest n fr :=
      ⟨⟨v, calls'⟩,
        retains.move stepped.move hx on (by simp [CallStack.frames, calls', Call.handed])⟩
    have left (off : w.frame ∉ x'.state.calls.frames) : x'.Left n :=
      retains.number ▸ numbered.left renumbers on off
    obtain ⟨R, coherent⟩ := hx
    have distinct : x.state.calls.frames.Nodup := coherent.arena.distinct
    rw [CallStack.frames, calls] at distinct
    obtain ⟨hs⟩ := stepped
    cases Machine.takes_of_step hs calls with
    | next => exact .inl (waits _ above rfl)
    | @enter _ next stack callee frame =>
      exact .inl (waits _ ({ a.moved next with stack } :: above) rfl)
    | @leave v last past outer _ _ _ _ _ split =>
      rcases List.append_eq_append_iff.1 split with ⟨ended, rfl, others⟩ | ⟨still, rfl, rfl⟩
      -- calls are over above `w`, and perhaps `w` itself
      · cases ended with
        | nil => exact .inr (resumed (v := v) (congrArg (Call.handed v) others.symm))
        | cons d ended =>
          obtain ⟨rfl, rfl⟩ := List.cons.inj others
          refine .inl (.left (left ?_))
          show w.frame ∉ (Call.handed v outer).map (·.frame)
          rw [Call.frames_handed]
          intro on'
          have gone : w.frame ∈ (ended ++ outer).map (·.frame) := by
            rw [List.map_append]
            exact List.mem_append_right _ on'
          simp only [List.map_append, List.map_cons] at distinct
          exact (List.nodup_cons.1 distinct.of_append_right).1 gone
      · cases still with
        | nil => exact .inr (resumed (v := v) rfl)
        | cons b still => exact .inl (waits { b with stack := v :: b.stack } still rfl)

/-- A call that waits after the next step has got a value when it is the innermost one again. -/
theorem First.resumed (back : First machine (·.Runs w.frame n) x x') (hx : x.Coherent machine)
    (numbered : x.Numbered)
    (waits : ∀ y, Stepped machine x y → y.Awaits w rest n fr ∨ y.Resumed w rest n fr) :
    x'.Resumed w rest n fr := by
  induction back with
  | @next x y stepped here =>
    rcases waits y stepped with waits | resumed
    · exact absurd here (waits.not_runs (hx.move stepped.move))
    · exact resumed
  | @later x y z stepped not first ih =>
    rcases waits y stepped with waits | resumed
    · have hy := hx.move stepped.move
      have numbered := numbered.renumber (stepped.move.renumbers hx)
      exact ih hy numbered fun z next => waits.step hy numbered next
    · exact absurd resumed.runs not

/-- **A send makes its call wait**, or replaces the operands by a value at once. -/
theorem waits_of_sending (hx : x.Coherent machine) (innermost : x.state.calls.calls = c :: rest)
    {next : Nat} {receiver : Value} {args below : List Value}
    (sending : c.Sending next receiver args below)
    (here : x.state.memory.frames.get? c.frame = some fr) (stepped : Stepped machine x x') :
    x'.Awaits { c.moved next with stack := below } rest (x.history.number c.frame) fr
      ∨ x'.Resumed { c.moved next with stack := below } rest (x.history.number c.frame) fr := by
  have on : c.frame ∈ x.state.calls.frames := by simp [CallStack.frames, innermost]
  have retains : x.Retains c.frame (x.history.number c.frame) fr := ⟨rfl, fr, here, .refl fr⟩
  have stays := retains.move stepped.move hx on
  obtain ⟨hs⟩ := stepped
  cases Machine.takes_of_step hs innermost with
  | next decoded before effect after =>
    obtain ⟨rfl, -, answers⟩ := sending.answers machine.image _ decoded
    rw [effect] at answers
    obtain ⟨v, rfl⟩ := answers
    exact .inr ⟨⟨v, rfl⟩, stays List.mem_cons_self⟩
  | enter decoded before effect made data =>
    obtain ⟨rfl, -, answers⟩ := sending.answers machine.image _ decoded
    rw [effect] at answers
    obtain rfl := answers
    exact .inl (.waits _ [] rfl (stays (List.mem_cons_of_mem _ List.mem_cons_self)))
  | leave before ends =>
    obtain ⟨⟨argc, selector, -, found⟩, -⟩ := sending
    cases ends with
    | ranOut decoded | ret decoded | blockReturn decoded =>
      rcases found with found | found <;> cases found.symm.trans decoded

/-- **Calls return to their caller with one value.**  Whatever has been loaded and run, a call is
about to send a message.  When its frame is that of the innermost call again for the first time, and
has not been given up in between, the receiver and the arguments have been replaced by one value,
the call goes on behind the send, and its frame has the receiver, the code and the links that it
had; the calls that it was made by have not changed either. -/
theorem sends_return_once {classes : List LoadClass} {log : Log} {store : Store}
    {transcript : Transcript} (loaded : Image.load classes = (log, .ok (machine.image, store)))
    (reached : Relation.ReflTransGen (Move machine) (start store transcript) x)
    (innermost : x.state.calls.calls = c :: rest) {next : Nat} {receiver : Value}
    {args below : List Value} (sending : c.Sending next receiver args below)
    (back : First machine (·.Runs c.frame (x.history.number c.frame)) x x') :
    ∃ v fr fr', x'.state.calls.calls
        = { c with ip := next, current := some c.ip, stack := v :: below } :: rest
      ∧ x.state.memory.frames.get? c.frame = some fr
      ∧ x'.state.memory.frames.get? c.frame = some fr' ∧ fr.SameLinks fr' := by
  obtain ⟨hx, numbered, -⟩ := numbered_of_reached loaded reached
  obtain ⟨fr, here⟩ : ∃ fr, x.state.memory.frames.get? c.frame = some fr := by
    obtain ⟨R, coherent⟩ := hx
    exact (coherent.arena.running c (by simp [innermost])).active.exists_frame
  obtain ⟨⟨v, calls⟩, -, fr', here', links⟩ :=
    First.resumed (w := { c.moved next with stack := below }) back hx numbered
      fun y => waits_of_sending hx innermost sending here
  exact ⟨v, fr, fr', calls, here, here', links⟩

end Session

/-! ## A return through two calls -/

/-- A method that calls a block of its own, which returns from it. -/
def answerBlock : Block :=
  { name := "answer", qualified := "answer", literals := #["value"]
    bytecode := Instruction.encodeAll #[.block 0, .send 0 0]
    blocks := #[{ name := "answer-block0", qualified := "answer-block0"
                  bytecode := Instruction.encodeAll #[.pushNil, .ret] }] }

def valueBlock : Block := { name := "value", qualified := "value", primitive := some .blockValue }

def relayClasses : List LoadClass :=
  { name := "UndefinedObject", methods := [(0, answerBlock)] }
    :: { name := "BlockDescriptor", methods := [(1, valueBlock)] }
    :: ["Boolean", "Integer", "Float", "Character", "String", "Array", "TranscriptStream"].map
      fun name => { name }

namespace Relay

/-- A method that asks `nil` for its answer. -/
def asker : Code :=
  { block := { name := "relay", qualified := "relay", literals := #["answer"]
               bytecode := Instruction.encodeAll #[.pushNil, .send 0 0] }
    id := { method := 2 } }

def answer : Code := ⟨answerBlock, { method := 0 }, some 0⟩

def nested : Code := ⟨answerBlock.blocks.getD 0 default, ⟨0, [0]⟩, some 0⟩

/-- The block that the answering method makes. -/
def closure : Closure Value := ⟨0, nested, ⟨1, 1⟩, ⟨1, 1⟩, .nil⟩

theorem classes_load :
    ∃ log image store, Image.load relayClasses = (log, .ok (image, store))
      ∧ image.method .nil "answer" = .ok answer
      ∧ ∀ c, image.method (.block c) "value" = .ok ⟨valueBlock, { method := 1 }, some 1⟩ := by
  simp [relayClasses, Image.load, Image.installAll, Image.install, Image.inherited, Image.linkAll,
    Image.finish, Image.knownClasses, Image.required, bind, Except.bind, pure, Except.pure,
    Image.link, answer, answerBlock, valueBlock, Image.method, Image.methodFrom, Image.classOf,
    Class.lookup, Class.chain, Image.instantiate, Value.isClass, Std.HashMap.getElem_insert]

/-- The memory with the frames of the first calls: of the method that asks, of the one that answers,
and of its block. -/
def memory (store : Store) (count pinned serial : Nat) : Memory :=
  let frames : List (Slot Value) := [
    { generation := 1, frame := some (Frame.ofMethod .nil asker .nil [] none ⟨0, 1⟩) },
    { generation := 1, pinned
      frame := some (Frame.ofMethod .nil answer .nil [] (some ⟨0, 1⟩) ⟨1, 1⟩) },
    { generation := 1, frame := some (Frame.ofClosure .nil closure [] (some ⟨1, 1⟩)) }]
  { frames := { slots := (frames.take count).toArray, live := count, birth := 1 }, store, serial }

def call (i : Nat) (code : Code) (ip : Nat) (current : Option Nat) (stack : List Value) : Call :=
  ⟨⟨i, 1⟩, code, ip, current, stack⟩

def asked : Call := call 0 asker 6 (some 1) []

def called : Call := call 1 answer 8 (some 3) []

variable {image : Image} (store : Store)

open Machine

/-- The host calls the method that asks. -/
theorem enter_asker : enter { image } (Machine.start store {}) (.method asker .nil [])
    = .running ⟨memory store 1 0 0, .of [call 0 asker 0 none []]⟩ := by
  rw [enter_eq (show 0 < 10000 by decide)]
  simp only [Machine.start, Arena.alloc_empty]
  rfl

theorem step_push : step { image } ⟨memory store 1 0 0, .of [call 0 asker 0 none []]⟩
    = .running ⟨memory store 1 0 0, .of [call 0 asker 1 (some 0) [.nil]]⟩ :=
  have decoded : Instruction.decodeAt asker.block.bytecode 0 = .ok (some (.pushNil, 1)) := by decide
  step_next (c := call 0 asker 0 none []) rfl decoded rfl

theorem step_ask (answers : image.method .nil "answer" = .ok answer) :
    step { image } ⟨memory store 1 0 0, .of [call 0 asker 1 (some 0) [.nil]]⟩
      = .running ⟨memory store 2 0 0, .of [call 1 answer 0 none [], asked]⟩ := by
  have decoded : Instruction.decodeAt asker.block.bytecode 1
      = .ok (some (.send 0 0, 6)) := by decide
  have sent : Call.execute (call 0 asker 6 (some 1) [.nil]) image (memory store 1 0 0) (.send 0 0)
      = .enter [] (.method answer .nil []) (memory store 1 0 0) := by
    have selector : Call.literal (call 0 asker 6 (some 1) [.nil]) 0 = .ok "answer" := rfl
    have operands : (call 0 asker 6 (some 1) [.nil]).stack = [.nil] := rfl
    simp only [Call.execute, selector, Call.send, operands, show (0 : UInt16).toNat = 0 from rfl,
      List.drop_zero, answers]
    rfl
  have stepped : step { image } ⟨memory store 1 0 0, .of [call 0 asker 1 (some 0) [.nil]]⟩
      = enter { image } ⟨memory store 1 0 0, .of [asked]⟩ (.method answer .nil []) :=
    step_enter rfl decoded sent
  rw [stepped, enter_eq (show 1 < 10000 by decide)]
  unfold Arena.alloc
  rw [Arena.collect_nil rfl]
  rfl

theorem step_make : step { image } ⟨memory store 2 0 0, .of [call 1 answer 0 none [], asked]⟩
    = .running ⟨memory store 2 1 1, .of [call 1 answer 3 (some 0) [.block closure], asked]⟩ :=
  have decoded : Instruction.decodeAt answer.block.bytecode 0
      = .ok (some (.block 0, 3)) := by decide
  step_next (c := call 1 answer 0 none []) rfl decoded rfl

theorem step_call
    (evaluates : ∀ c, image.method (.block c) "value" = .ok ⟨valueBlock, { method := 1 }, some 1⟩) :
    step { image } ⟨memory store 2 1 1, .of [call 1 answer 3 (some 0) [.block closure], asked]⟩
      = .running ⟨memory store 3 2 1, .of [call 2 nested 0 none [], called, asked]⟩ := by
  have decoded : Instruction.decodeAt answer.block.bytecode 3
      = .ok (some (.send 0 0, 8)) := by decide
  have sent : Call.execute (call 1 answer 8 (some 3) [.block closure]) image (memory store 2 1 1)
      (.send 0 0) = .enter [] (.block closure []) (memory store 2 1 1) := by
    have selector : Call.literal (call 1 answer 8 (some 3) [.block closure]) 0 = .ok "value" := rfl
    have operands : (call 1 answer 8 (some 3) [.block closure]).stack = [.block closure] := rfl
    simp only [Call.execute, selector, Call.send, operands, show (0 : UInt16).toNat = 0 from rfl,
      List.drop_zero, evaluates]
    rfl
  have stepped : step { image } ⟨memory store 2 1 1,
      .of [call 1 answer 3 (some 0) [.block closure], asked]⟩
      = enter { image } ⟨memory store 2 1 1, .of [called, asked]⟩ (.block closure []) :=
    step_enter rfl decoded sent
  rw [stepped, enter_eq (show 2 < 10000 by decide)]
  unfold Arena.alloc
  rw [Arena.collect_nil rfl]
  rfl

theorem step_block :
    step { image } ⟨memory store 3 2 1, .of [call 2 nested 0 none [], called, asked]⟩
    = .running ⟨memory store 3 2 1, .of [call 2 nested 1 (some 0) [.nil], called, asked]⟩ :=
  have decoded : Instruction.decodeAt nested.block.bytecode 0
      = .ok (some (.pushNil, 1)) := by decide
  step_next (c := call 2 nested 0 none []) rfl decoded rfl

theorem step_return :
    step { image } ⟨memory store 3 2 1, .of [call 2 nested 1 (some 0) [.nil], called, asked]⟩
      = .running ⟨(memory store 3 2 1).leaveReturning [call 2 nested 2 (some 1) [], called],
        .of [call 0 asker 6 (some 1) [.nil]]⟩ := by
  have decoded : Instruction.decodeAt nested.block.bytecode 1 = .ok (some (.ret, 2)) := by decide
  simp only [step, call, CallStack.of, decoded]
  rfl

end Relay

namespace Session

open Relay in
/-- The outermost call asks for an answer; the method that it calls makes a block and calls it, and
the block returns from the method. -/
theorem relay_runs :
    ∃ (log : Log) (image : Image) (store : Store) (x y x' : Session) (c d : Call)
      (fr : Frame Value),
      Image.load relayClasses = (log, .ok (image, store))
      ∧ Relation.ReflTransGen (Move { image }) (start store {}) x
      ∧ x.state.calls.calls = [c] ∧ c.Sending 6 .nil [] []
      ∧ First { image } (·.Runs c.frame (x.history.number c.frame)) x x'
      ∧ Relation.ReflTransGen (Move { image }) (start store {}) y
      ∧ y.state.Returning d fr .nil ∧ ∃ g, y.state.calls.frames = [d.frame, fr.home, g] := by
  obtain ⟨log, image, store, loaded, answers, evaluates⟩ := classes_load
  have asks : Asks image (Machine.start store {}).memory [.nil]
      (.enter (.method asker .nil []) (Machine.start store {}).memory) :=
    .method asker List.mem_cons_self (List.forall_mem_nil _)
  obtain ⟨x, reached, sending⟩ : ∃ x, Relation.ReflTransGen (Move { image }) (start store {}) x
      ∧ x.state = ⟨memory store 1 0 0, .of [call 0 asker 1 (some 0) [.nil]]⟩ :=
    ⟨_, ((Relation.ReflTransGen.single (.plain (v := .nil) (.inl trivial))).tail
      (.enter asks (enter_asker store))).tail (.step (step_push store)), rfl⟩
  obtain ⟨y₁, s₁, at₁⟩ := Stepped.exists sending (step_ask store answers)
  obtain ⟨y₂, s₂, at₂⟩ := Stepped.exists at₁ (step_make store)
  obtain ⟨y₃, s₃, at₃⟩ := Stepped.exists at₂ (step_call store evaluates)
  obtain ⟨y₄, s₄, at₄⟩ := Stepped.exists at₃ (step_block store)
  obtain ⟨x', s₅, at₅⟩ := Stepped.exists at₄ (step_return store)
  -- the frame of the outermost call keeps its number, and is not that of the innermost one
  have keeps {y z : Session} {s : State} (stepped : Stepped { image } y z)
      (h : y.Coherent { image } ∧ y.history.number ⟨0, 1⟩ = x.history.number ⟨0, 1⟩)
      (state : y.state = s) (on : ⟨0, 1⟩ ∈ s.calls.frames) :
      z.Coherent { image } ∧ z.history.number ⟨0, 1⟩ = x.history.number ⟨0, 1⟩ := by
    subst state
    exact ⟨h.1.move stepped.move, ((stepped.move.renumbers h.1).number_eq on).trans h.2⟩
  have h₁ := keeps s₁ ⟨(linked_of_reached loaded reached).1, rfl⟩ sending (.head _)
  have h₂ := keeps s₂ h₁ at₁ (.tail _ (.head _))
  have h₃ := keeps s₃ h₂ at₂ (.tail _ (.head _))
  have h₄ := keeps s₄ h₃ at₃ (.tail _ (.tail _ (.head _)))
  have h₅ := keeps s₅ h₄ at₄ (.tail _ (.tail _ (.head _)))
  have away {y : Session} {s : State} {i : Nat} (state : y.state = s)
      (current : s.calls.current? = some ⟨i + 1, 1⟩) :
      ¬ y.Runs ⟨0, 1⟩ (x.history.number ⟨0, 1⟩) := by
    rintro ⟨here, -⟩
    rw [state, current] at here
    cases here
  have runs : x'.Runs ⟨0, 1⟩ (x.history.number ⟨0, 1⟩) := by
    refine ⟨?_, h₅.2⟩
    rw [at₅]
    rfl
  have back : First { image } (·.Runs ⟨0, 1⟩ (x.history.number ⟨0, 1⟩)) x x' :=
    .later s₁ (away at₁ rfl) <| .later s₂ (away at₂ rfl) <| .later s₃ (away at₃ rfl) <|
      .later s₄ (away at₄ rfl) <| .next s₅ runs
  refine ⟨log, image, store, x, y₄, x', call 0 asker 1 (some 0) [.nil],
    call 2 nested 1 (some 0) [.nil], Frame.ofClosure .nil closure [] (some ⟨1, 1⟩), loaded, reached,
    ?_, ⟨⟨0, 0, rfl, .inl (by decide)⟩, rfl⟩, back,
    (((reached.tail s₁.move).tail s₂.move).tail s₃.move).tail s₄.move, ?_⟩
  · rw [sending]
    rfl
  · rw [at₄]
    exact ⟨⟨rfl, ⟨2, by decide⟩, rfl, rfl⟩, ⟨0, 1⟩, rfl⟩

/-- The return of a block through two calls hands one value to the sender. -/
theorem sends_return_once_relay :
    ∃ (machine : Machine) (store : Store) (x x' : Session) (c : Call) (v : Value),
      Relation.ReflTransGen (Move machine) (start store {}) x ∧ c.stack = [.nil]
      ∧ First machine (·.Runs c.frame (x.history.number c.frame)) x x'
      ∧ x'.state.calls.calls = [{ c with ip := 6, current := some c.ip, stack := [v] }] := by
  obtain ⟨log, image, store, x, y, x', c, d, fr, loaded, reached, calls, sending, back, -⟩ :=
    relay_runs
  obtain ⟨v, _, _, calls', -⟩ :=
    @sends_return_once { image } x x' c [] _ _ _ _ loaded reached calls 6 .nil [] [] sending back
  exact ⟨{ image }, store, x, x', c, v, reached, sending.operands, back, calls'⟩

end Session

end Colloquy
