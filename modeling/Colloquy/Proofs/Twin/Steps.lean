import Colloquy.Proofs.Twin.Execution

/-!
# Runs with and without source positions

A machine whose code has source positions is beside a machine whose code has none.  An instruction
that records a source position is carried out by the first machine alone; every other instruction is
carried out by both.  So the machines stay beside each other until both are done.

Main statement: runs from states that are twins end in the same fault or with values that are twins,
if no identity hash of an object is taken (`Machine.Twin.run`).
-/

namespace Colloquy

open Primitive (Agree)
open Instruction (Reads plain)

/-! ## Twins -/

/-- The machines are the same but for code, and for what they log. -/
structure Machine.Twin (ms ms' : List Block) (machine machine' : Machine) : Prop where
  image : machine.image.Twin ms ms' machine'.image
  maxDepth : machine'.maxDepth = machine.maxDepth

structure State.Twin (ms ms' : List Block) (s s' : State) : Prop where
  memory : s.memory.Twin ms ms' s'.memory
  calls : List.Forall₂ (Call.Twin ms ms') s.calls.calls s'.calls.calls

/-- The steps come to the same: both go on, end with values that are twins, or fail for the same
cause. -/
inductive Progress.Twin (ms ms' : List Block) : Progress → Progress → Prop where
  | running {s s' : State} (h : s.Twin ms ms' s') : Twin ms ms' (.running s) (.running s')
  | finished {v v' : Value} {s s' : State} (hv : v.Twin ms ms' v') (h : s.Twin ms ms' s') :
      Twin ms ms' (.finished v s) (.finished v' s')
  | failed {f f' : Failure} {s s' : State} (cause : f'.cause = f.cause) (h : s.Twin ms ms' s') :
      Twin ms ms' (.failed f s) (.failed f' s')

/-- The runs end with values that are twins, or fail for the same cause. -/
inductive Machine.Outcome.Twin (ms ms' : List Block) : Outcome → Outcome → Prop where
  | value {v v' : Value} {s s' : State} (hv : v.Twin ms ms' v') (h : s.Twin ms ms' s') :
      Twin ms ms' (.value v s) (.value v' s')
  | failure {f f' : Failure} {s s' : State} (cause : f'.cause = f.cause) (h : s.Twin ms ms' s') :
      Twin ms ms' (.failure f s) (.failure f' s')

variable {ms ms' : List Block} {machine machine' : Machine} {m m' : Memory} {c c' : Call}
  {calls calls' : List Call} {s s' : State} {v v' : Value}

/-! ## The end of calls -/

namespace Memory.Twin

/-- A frame is changed and given up. -/
theorem pop {m₁ m₁' : Memory} (h : m.Twin ms ms' m') (id : FrameId)
    {g g' : Frame Value → Frame Value}
    (hg : ∀ f f', f.Twin ms ms' f' → (g f).Twin ms ms' (g' f'))
    (frames : m₁.frames = (m.frames.modify id g).release id) (data : m.SameData m₁)
    (frames' : m₁'.frames = (m'.frames.modify id g').release id) (data' : m'.SameData m₁') :
    m₁.Twin ms ms' m₁' := by
  have released : Memory.Twin ms ms' { m with frames := (m.frames.modify id g).release id }
      { m' with frames := (m'.frames.modify id g').release id } :=
    ⟨(h.frames.modify id hg).release Frame.Twin.pins id, h.data.store, h.data.serial,
      h.data.transcript⟩
  exact released.relog ⟨frames, data.store, data.serial, data.transcript⟩
    ⟨frames', data'.store, data'.serial, data'.transcript⟩

theorem leave (h : m.Twin ms ms' m') (hc : c.Twin ms ms' c') :
    (m.leave c).Twin ms ms' (m'.leave c') := by
  refine h.pop c.frame (fun f f' hf => ?_) (frames_leave m c) (sameData_leave m c)
    (hc.frame ▸ frames_leave m' c') (sameData_leave m' c')
  exact ⟨hf.code, hf.locals, hf.receiver, hf.invoking, hf.enclosing, hf.home, hf.returned⟩

theorem drop (h : m.Twin ms ms' m') (hc : c.Twin ms ms' c') :
    (m.drop c).Twin ms ms' (m'.drop c') := by
  have dropped (m : Memory) (c : Call) :
      (m.drop c).frames = (m.frames.modify c.frame (lastWords c)).release c.frame := rfl
  refine h.pop c.frame (fun f f' hf => ?_) (dropped m c) ⟨rfl, rfl, rfl⟩
    (hc.frame ▸ dropped m' c') ⟨rfl, rfl, rfl⟩
  exact ⟨hf.code, hf.locals, hf.receiver, hf.invoking, hf.enclosing, hf.home, hf.returned⟩

theorem leaveReturning (h : m.Twin ms ms' m') (hc : List.Forall₂ (Call.Twin ms ms') calls calls') :
    (m.leaveReturning calls).Twin ms ms' (m'.leaveReturning calls') := by
  induction hc generalizing m m' with
  | nil => exact h
  | @cons c c' _ _ first _ ih =>
    refine ih (h.pop c.frame (fun f f' hf => ?_) (frames_leave_markReturned m c)
      (sameData_leave_markReturned m c) (first.frame ▸ frames_leave_markReturned m' c')
      (sameData_leave_markReturned m' c'))
    refine ⟨hf.code, hf.locals, hf.receiver, hf.invoking, hf.enclosing, hf.home, ?_⟩
    exact congrArg Option.isNone hf.enclosing

theorem dropAll (h : m.Twin ms ms' m') (hc : List.Forall₂ (Call.Twin ms ms') calls calls') :
    (calls.foldl Memory.drop m).Twin ms ms' (calls'.foldl Memory.drop m') := by
  induction hc generalizing m m' with
  | nil => exact h
  | cons first _ ih => exact ih (h.drop first)

end Memory.Twin

/-! ## Steps -/

namespace State.Twin

theorem abandon (h : s.Twin ms ms' s') : s.abandon.Twin ms ms' s'.abandon :=
  ⟨h.memory.dropAll h.calls, .nil⟩

theorem fail (h : s.Twin ms ms' s') (cause : Cause) :
    Progress.Twin ms ms' (s.fail cause) (s'.fail cause) :=
  .failed rfl h

/-- A value is handed to the innermost call, or to the host. -/
theorem resume (hm : m.Twin ms ms' m') (hc : List.Forall₂ (Call.Twin ms ms') calls calls')
    (hv : v.Twin ms ms' v') :
    Progress.Twin ms ms' (State.resume ⟨m, .of calls⟩ v) (State.resume ⟨m', .of calls'⟩ v') := by
  cases hc with
  | nil => exact .finished hv ⟨hm, .nil⟩
  | cons first rest =>
    exact .running ⟨hm, .cons ⟨first.frame, first.code, .cons hv first.stack, first.ahead⟩ rest⟩

end State.Twin

/-- Arguments that are twins, and as many other slots. -/
theorem slots_twin {code code' : Code} {args args' : List Value}
    (size : code'.block.frameSize = code.block.frameSize)
    (ha : List.Forall₂ (Value.Twin ms ms') args args') :
    List.Forall₂ (Value.Twin ms ms') (Frame.slots .nil code args).toList
      (Frame.slots .nil code' args').toList := by
  simp only [Frame.slots, size, ← ha.length_eq, Array.toList_append]
  exact List.rel_append ha (Value.Like.replicate _)

/-- The frames of callees that are twins. -/
theorem Callee.Twin.frame (methods : List.Forall₂ Block.OuterTwin ms ms') {callee callee' : Callee}
    (h : callee.Twin ms ms' callee') (invoking : Option FrameId) (id : FrameId) :
    (callee.frame invoking id).Twin ms ms' (callee'.frame invoking id)
      ∧ callee.code.Twin ms ms' callee'.code := by
  have size {code code' : Code} (same : code.Twin ms ms' code') :
      code'.block.frameSize = code.block.frameSize := by
    have head := (same.block methods).head
    rw [Block.frameSize, Block.frameSize, head.nargs, head.nlocals]
  cases h with
  | @method code code' _ _ _ _ same hr ha =>
    have same : code.Twin ms ms' code' := same
    exact ⟨⟨same, slots_twin (size same) ha, hr, rfl, rfl, rfl, rfl⟩, same⟩
  | @block c c' _ _ same ha _ =>
    cases same with
    | mk serial code enclosing home receiver =>
      exact ⟨⟨code, slots_twin (size code) ha, receiver, rfl, congrArg some enclosing, home, rfl⟩,
        code⟩

namespace Machine.Twin

/-- **A new call.** -/
theorem enter (h : machine.Twin ms ms' machine') (hs : s.Twin ms ms' s') {callee callee' : Callee}
    (hc : callee.Twin ms ms' callee') :
    Progress.Twin ms ms' (machine.enter s callee) (machine'.enter s' callee') := by
  have depth : s'.calls.depth = s.calls.depth := by
    rw [s.calls.depth_eq, s'.calls.depth_eq, hs.calls.length_eq]
  by_cases room : s.calls.depth < machine.maxDepth
  · have room' : s'.calls.depth < machine'.maxDepth := by rwa [depth, h.maxDepth]
    have current : s'.calls.current? = s.calls.current? := by
      have calls := hs.calls
      rw [CallStack.current?, CallStack.current?]
      generalize s.calls.calls = cs at calls
      generalize s'.calls.calls = cs' at calls
      cases calls with
      | nil => rfl
      | cons first _ => exact congrArg some first.frame
    have frames := hc.frame h.image.methods s.calls.current?
    obtain ⟨alike, same⟩ :=
      hs.memory.frames.alloc Frame.Twin.pins fun id => (frames id).1
    have code := (frames default).2
    have memory : Memory.Twin ms ms'
        { s.memory with frames := (s.memory.frames.alloc (callee.frame s.calls.current?)).1 }
        { s'.memory with frames := (s'.memory.frames.alloc (callee'.frame s.calls.current?)).1 } :=
      ⟨alike, hs.memory.data.store, hs.memory.data.serial, hs.memory.data.transcript⟩
    rw [enter_eq room, enter_eq room', current]
    have traced := memory.trace (fun _ => "enter " ++ callee.code.block.qualified)
      (fun _ => "enter " ++ callee'.code.block.qualified)
    exact .running ⟨traced, .cons ⟨same, code, .nil, (code.block h.image.methods).code⟩ hs.calls⟩
  · have room' : ¬s'.calls.depth < machine'.maxDepth := by rwa [depth, h.maxDepth]
    unfold Machine.enter
    rw [if_neg room, if_neg room']
    exact hs.fail _

theorem logCalls {p p' : Progress} (hp : p.Twin ms ms' p') :
    Progress.Twin ms ms' (machine.logCalls p) (machine'.logCalls p') := by
  cases hp with
  | @running s s' hs =>
    obtain ⟨m₁, logs, logged⟩ := machine.logCalls_running s.memory s.calls
    obtain ⟨m₁', logs', logged'⟩ := machine'.logCalls_running s'.memory s'.calls
    rw [logged, logged']
    exact .running ⟨hs.memory.relog logs logs', hs.calls⟩
  | finished hv hs => exact .finished hv hs
  | failed cause hs => exact .failed cause hs

theorem upTo?_twin (hcs : List.Forall₂ (Call.Twin ms ms') calls calls') (home : FrameId) :
    (CallStack.of calls').upTo? home = (CallStack.of calls).upTo? home := by
  have frames : calls'.map (·.frame) = calls.map (·.frame) := by
    induction hcs with
    | nil => rfl
    | cons first _ ih => rw [List.map_cons, List.map_cons, first.frame, ih]
  have found (cs : List Call) :
      cs.findIdx? (·.frame = home) = (cs.map (·.frame)).findIdx? (· = home) := by
    rw [List.findIdx?_map]
    rfl
  simp only [CallStack.upTo?, CallStack.of, found, frames]

theorem cannotReturn (h : machine.Twin ms ms' machine') (hm : m.Twin ms ms' m')
    (hc : c.Twin ms ms' c') (home : FrameId) :
    machine'.cannotReturn ⟨m', .of calls'⟩ c' home
      = machine.cannotReturn ⟨m, .of calls⟩ c home := by
  have owner := h.image.owner? hc.code
  have here := hm.frames.get? home
  have head := (hc.code.block h.image.methods).head
  unfold Machine.cannotReturn
  dsimp only
  rw [head.name]
  congr 1
  · generalize machine.image.owner? c.code = o at owner
    generalize machine'.image.owner? c'.code = o' at owner
    cases owner with
    | none => rfl
    | some cls => exact cls.info.name
  · generalize m.frames.get? home = o at here
    generalize m'.frames.get? home = o' at here
    cases here with
    | none => rfl
    | some hf => exact congrArg some (hf.code.block h.image.methods).head.qualified

/-- **The end of the innermost call.** -/
theorem finish (hm : m.Twin ms ms' m') (hc : List.Forall₂ (Call.Twin ms ms') calls calls')
    (hv : v.Twin ms ms' v') :
    Progress.Twin ms ms' (Machine.finish ⟨m, .of calls⟩ v)
      (Machine.finish ⟨m', .of calls'⟩ v') := by
  cases hc with
  | nil => exact State.Twin.resume hm .nil hv
  | cons first rest => exact State.Twin.resume (hm.leave first) rest hv

/-- **A return** ends the same calls, or fails for the same cause. -/
theorem escape (h : machine.Twin ms ms' machine') (hm : m.Twin ms ms' m')
    (hcs : List.Forall₂ (Call.Twin ms ms') calls calls') (hc : c.Twin ms ms' c')
    (hv : v.Twin ms ms' v') :
    Progress.Twin ms ms' (machine.escape ⟨m, .of calls⟩ c v)
      (machine'.escape ⟨m', .of calls'⟩ c' v') := by
  have failed (cause : Cause) : Progress.Twin ms ms' (State.fail ⟨m, .of calls⟩ cause)
      (State.fail ⟨m', .of calls'⟩ cause) := State.Twin.fail ⟨hm, hcs⟩ cause
  unfold Machine.escape
  dsimp only
  rw [hc.frame]
  rcases (hm.frame c.frame).cases with ⟨f, f', found, found', hf⟩ | ⟨e, found, found'⟩
  · rw [found, found']
    dsimp only
    rw [hf.home]
    have can : canReturn ⟨m', .of calls'⟩ f.home = canReturn ⟨m, .of calls⟩ f.home := by
      have here := hm.frames.get? f.home
      unfold canReturn
      dsimp only
      generalize m.frames.get? f.home = o at here
      generalize m'.frames.get? f.home = o' at here
      cases here with
      | none => rfl
      | some hg => exact congrArg (!·) hg.returned
    rw [can, upTo?_twin hcs]
    split
    · rw [h.cannotReturn hm hc]
      exact failed _
    · rename_i n _
      have dropped (cs : List Call) : (CallStack.of cs).drop n = .of (cs.drop n) :=
        CallStack.eq_of _
      rw [dropped, dropped]
      exact State.Twin.resume (hm.leaveReturning (List.forall₂_take n hcs))
        (List.forall₂_drop n hcs) hv
  · rw [found, found']
    exact failed e

/-- **What effects that are twins come to.** -/
theorem carryOut (h : machine.Twin ms ms' machine') (hc : c.Twin ms ms' c')
    (hcs : List.Forall₂ (Call.Twin ms ms') calls calls') {e e' : Effect} (he : e.Twin ms ms' e') :
    Progress.Twin ms ms' (machine.carryOut c calls e) (machine'.carryOut c' calls' e') := by
  have stacked {stack stack' : List Value} (hs : List.Forall₂ (Value.Twin ms ms') stack stack') :
      Call.Twin ms ms' { c with stack } { c' with stack := stack' } :=
    ⟨hc.frame, hc.code, hs, hc.ahead⟩
  cases he with
  | next hs hm =>
    rw [Machine.carryOut, Machine.carryOut]
    refine logCalls (.running ?_)
    exact ⟨hm, .cons (stacked hs) hcs⟩
  | enter hs hcallee hm => exact logCalls (h.enter ⟨hm, .cons (stacked hs) hcs⟩ hcallee)
  | finish hs hv hm => exact finish hm (.cons (stacked hs) hcs) hv
  | escape hs hv hm => exact h.escape hm (.cons (stacked hs) hcs) (stacked hs) hv
  | fault hs cause hm => exact State.Twin.fail ⟨hm, .cons (stacked hs) hcs⟩ cause

/-- Code that ends without a return. -/
theorem stepPastEnd (hm : m.Twin ms ms' m') (hc : c.Twin ms ms' c')
    (hcs : List.Forall₂ (Call.Twin ms ms') calls calls')
    (ends : Instruction.decodeAt c.code.block.bytecode c.ip = .ok none)
    (ends' : Instruction.decodeAt c'.code.block.bytecode c'.ip = .ok none) :
    Progress.Twin ms ms' (machine.step ⟨m, .of (c :: calls)⟩)
      (machine'.step ⟨m', .of (c' :: calls')⟩) := by
  obtain ⟨m₀, logs, stepped⟩ := machine.step_pastEnd m calls ends
  obtain ⟨m₀', logs', stepped'⟩ := machine'.step_pastEnd m' calls' ends'
  have noted := hm.relog logs logs'
  have last : Agree (Value.Twin ms ms') (lastValue m₀ c) (lastValue m₀' c') := by
    have stack := hc.stack
    unfold lastValue
    rw [hc.frame]
    generalize c.stack = vs at stack
    generalize c'.stack = vs' at stack
    cases stack with
    | nil => exact (noted.frame c.frame).map fun _ _ hf => hf.receiver
    | cons hv _ => exact hv
  rcases last.cases with ⟨v, v', found, found', hv⟩ | ⟨e, found, found'⟩
  · rw [stepped, stepped', pastEnd, pastEnd, found, found']
    exact finish noted (.cons hc hcs) hv
  · rw [stepped, stepped', pastEnd, pastEnd, found, found']
    exact State.Twin.fail ⟨noted, .cons hc hcs⟩ e

/-- **One step.**  A source position is recorded by the first machine alone; otherwise both take a
step. -/
theorem step (h : machine.Twin ms ms' machine') (hs : s.Twin ms ms' s')
    (quiet : ¬s.Hashes machine) :
    (∃ t, machine.step s = .running t ∧ t.Twin ms ms' s')
      ∨ Progress.Twin ms ms' (machine.step s) (machine'.step s') := by
  obtain ⟨m, calls⟩ := s
  obtain ⟨m', calls'⟩ := s'
  obtain ⟨hm, hcs⟩ := hs
  rw [calls.eq_of] at quiet ⊢
  rw [calls'.eq_of]
  dsimp only at hm hcs
  generalize calls.calls = cs at hcs quiet
  generalize calls'.calls = cs' at hcs
  cases hcs with
  | nil => exact .inr (State.Twin.fail ⟨hm, .nil⟩ _)
  | @cons c c' cs cs' hc hcs =>
    obtain ⟨is, is', reads, reads', twins⟩ := hc.ahead
    cases is with
    | nil =>
      cases List.forall₂_nil_left_iff.1 twins
      exact .inr (stepPastEnd hm hc hcs reads.ended reads'.ended)
    | cons j is =>
      obtain ⟨next, decoded, later⟩ := reads.uncons
      obtain ⟨m₀, logs, stepped⟩ := step_eq machine m cs decoded
      cases hj : j.isDebug with
      | true =>
        -- only the first machine moves
        have dropped : plain (j :: is) = plain is := by simp [plain, hj]
        rw [dropped] at twins
        cases j with
        | debug file position =>
          let place : Place := { file := c.code.block.literal? file, position }
          obtain ⟨m₁, after, logged⟩ := machine.logCalls_running
            (m₀.setPlace c.frame place) (.of (c.moved next :: cs))
          have noted := hm.relog logs (.refl m')
          refine .inl ⟨_, stepped.trans logged, ?_, ?_⟩
          · exact (noted.setPlace c.frame place).relog after (.refl m')
          · exact .cons ⟨hc.frame, hc.code, hc.stack, is, is', later, reads', twins⟩ hcs
        | _ => cases hj
      | false =>
        have kept : plain (j :: is) = j :: plain is := by simp [plain, hj]
        rw [kept] at twins
        obtain ⟨j', rest', twin, behind, rfl⟩ := List.forall₂_cons_left_iff.1 twins
        obtain ⟨next', decoded', later'⟩ := reads'.uncons
        obtain ⟨m₀', logs', stepped'⟩ := step_eq machine' m' cs' decoded'
        have moved : (c.moved next).Twin ms ms' (c'.moved next') :=
          ⟨hc.frame, hc.code, hc.stack, is, rest', later, later', behind⟩
        have noted := hm.relog logs logs'
        refine .inr ?_
        rw [stepped, stepped']
        refine h.carryOut moved hcs (moved.execute h.image noted twin fun hashes => ?_)
        exact quiet ⟨c, cs, j, next, rfl, decoded, hashes⟩

/-- **Runs from states that are twins** end with values that are twins, or fail for the same cause,
if no identity hash of an object is taken. -/
theorem run (h : machine.Twin ms ms' machine') (hs : s.Twin ms ms' s') (quiet : machine.Quiet s) :
    Outcome.Twin ms ms' (machine.run s) (machine'.run s') := by
  fun_induction Machine.run machine s generalizing s' with
  | case1 s after step ih =>
    rcases h.step hs quiet.here with ⟨t, alone, twin⟩ | both
    · cases step.symm.trans alone
      exact ih twin (quiet.next step)
    · rw [step] at both
      rw [run_eq machine' s']
      generalize machine'.step s' = p at both
      cases both with
      | running twin => exact ih twin (quiet.next step)
  | case2 s v after step =>
    rcases h.step hs quiet.here with ⟨t, alone, -⟩ | both
    · cases step.symm.trans alone
    · rw [step] at both
      rw [run_eq machine' s']
      generalize machine'.step s' = p at both
      cases both with
      | finished hv twin => exact .value hv twin
  | case3 s f after step =>
    rcases h.step hs quiet.here with ⟨t, alone, -⟩ | both
    · cases step.symm.trans alone
    · rw [step] at both
      rw [run_eq machine' s']
      generalize machine'.step s' = p at both
      cases both with
      | failed cause twin => exact .failure cause twin

end Machine.Twin

end Colloquy
