import Colloquy.Proofs.Effects
import Colloquy.Proofs.LoadedCode
import Colloquy.Proofs.Compile.SendSites
import Colloquy.Proofs.Compile.Layout
import Colloquy.Proofs.Lifetimes

/-!
# Where calls wait

A frame remembers the last mark that its code has passed, and in compiled code with marks every send
comes right after its own one.  So while a call waits for another, its frame says where in the
source the send stands that it waits for, however long the other takes.

* `Call.Marked`, `Call.Ready`, `Call.Waiting`, `State.Placed` — what the frames of the calls in
  progress say;
* `Machine.step_placed` — a step keeps it that way, and a step that fails at a send leaves the
  innermost call waiting too;
* `Call.AtSend` — the call waits for a given send of the source;
* `Machine.calls_wait_at_sends` — all along every run of a compiled program, every call but the
  innermost one waits for a send of the source, and its frame has that send's position.
-/

namespace Colloquy

open Instruction (Reads)

/-! ## Reading so far -/

namespace Instruction.Reads

variable {bytes : Bytes} {p q next : Nat} {is all : List Instruction} {i : Instruction}

theorem snoc (h : Reads bytes p is q) (decoded : decodeAt bytes q = .ok (some (i, next))) :
    Reads bytes p (is ++ [i]) next := by
  induction h with
  | nil p => exact .cons decoded (.nil next)
  | cons first _ ih => exact .cons first (ih decoded)

/-- What has been read so far, and what is read next, begin what is there to be read. -/
theorem through (whole : Reads bytes p all bytes.size) (h : Reads bytes p is q)
    (decoded : decodeAt bytes q = .ok (some (i, next))) : ∃ later, all = is ++ i :: later := by
  induction h generalizing all with
  | nil p =>
    cases all with
    | nil =>
      rw [whole.ended] at decoded
      cases decoded
    | cons j later =>
      obtain ⟨r, first, -⟩ := whole.uncons
      cases first.symm.trans decoded
      exact ⟨later, rfl⟩
  | @cons p r q j is first rest ih =>
    cases all with
    | nil =>
      rw [whole.ended] at first
      cases first
    | cons k later =>
      obtain ⟨r', found, later⟩ := whole.uncons
      cases found.symm.trans first
      obtain ⟨more, rfl⟩ := ih later decoded
      exact ⟨more, rfl⟩

end Instruction.Reads

/-! ## Frames of waiting calls -/

namespace Arena.Attended

variable {a : Arena Value} {f id : FrameId} {fs : List FrameId}

/-- A new frame leaves the others alone that are attended to. -/
theorem get?_alloc (h : a.Attended fs) (hf : f ∈ fs) (make : FrameId → Frame Value) :
    (a.alloc make).1.get? f = a.get? f := by
  have made := h.alloc make
  obtain ⟨fr, here⟩ := ((made.active f).2 (List.mem_cons_of_mem _ hf)).exists_frame
  rcases get?_of_alloc h.tidy make here with ⟨rfl, -⟩ | before
  · exact absurd hf (List.nodup_cons.1 made.distinct).1
  · rw [here, before]

/-- A call that is over leaves the frames of the others alone. -/
theorem get?_pop (h : a.Attended (id :: fs)) (hf : f ∈ fs) (g : Frame Value → Frame Value) :
    ((a.modify id g).release id).get? f = a.get? f := by
  obtain ⟨fr, here⟩ := (((h.pop g).active f).2 hf).exists_frame
  have before := get?_of_release here
  rw [here, ← before, get?_modify, if_neg]
  rintro rfl
  exact (List.nodup_cons.1 h.distinct).1 hf

end Arena.Attended

theorem Memory.get?_leaveReturning {m : Memory} {f : FrameId} {fs : List FrameId} {past : List Call}
    (h : m.frames.Attended (past.map (·.frame) ++ fs)) (hf : f ∈ fs) :
    (m.leaveReturning past).frames.get? f = m.frames.get? f := by
  induction past generalizing m with
  | nil => rfl
  | cons c past ih =>
    have frames := m.frames_leave_markReturned c
    have popped := h.pop (Memory.lastWordsReturning c)
    rw [← frames] at popped
    refine (ih popped).trans ?_
    rw [frames]
    exact h.get?_pop (List.mem_append_right _ hf) _

/-! ## Places -/

/-- The position in the source that a frame has reached. -/
def Arena.placeOf? (a : Arena Value) (f : FrameId) : Option Place := (a.get? f).map (·.place)

theorem Arena.placeOf?_modify {a : Arena Value} {f id : FrameId} {g : Frame Value → Frame Value}
    (kept : ∀ fr, (g fr).place = fr.place) : (a.modify id g).placeOf? f = a.placeOf? f := by
  unfold placeOf?
  rw [get?_modify]
  split
  · subst f
    cases a.get? id <;> simp [kept]
  · rfl

/-- No frame is somewhere else afterwards, if the call goes on. -/
def Effect.Stays (m : Memory) : Effect → Prop
  | .next _ m' => ∀ f, m'.frames.placeOf? f = m.frames.placeOf? f
  | _ => True

theorem Call.Does.stays {c : Call} {i : Image} {m : Memory} {instruction : Instruction}
    {effect : Effect} (h : c.Does i m instruction effect)
    (plain : ∀ file position, instruction ≠ .debug file position) : effect.Stays m := by
  cases h with
  | push | array | pop | storeField => exact fun f => rfl
  | storeLocal => exact fun f => Arena.placeOf?_modify fun _ => rfl
  | block =>
    intro f
    simp only [Arena.placeOf?, Arena.get?_pin]
  | debug file position => exact absurd rfl (plain file position)
  | finish | escape | fault => trivial
  | @send _ receiver args _ code m₁ _ _ _ logged replies =>
    have spared := invoke_spares i m₁ receiver code args
    rw [← replies]
    cases reply : invoke i m₁ receiver code args with
    | answer v m₂ =>
      rw [reply] at spared
      intro f
      rw [show m₂.frames = m.frames from spared.trans logged.frames]
    | enter | fault => trivial

/-- **Only marks tell a frame where it is.** -/
theorem Call.execute_stays (c : Call) (i : Image) (m : Memory) {instruction : Instruction}
    (plain : ∀ file position, instruction ≠ .debug file position) :
    (c.execute i m instruction).Stays m :=
  (c.execute_does i m instruction).stays plain

/-- Only a send makes a call wait. -/
theorem Call.isSend_of_enter (c : Call) (i : Image) (m : Memory) {instruction : Instruction}
    {stack : List Value} {callee : Callee} {m' : Memory}
    (h : c.execute i m instruction = .enter stack callee m') : instruction.isSend = true := by
  have does := c.execute_does i m instruction
  rw [h] at does
  obtain ⟨receiver, args, code, m₁, selects, -⟩ := does.of_enter
  cases selects <;> rfl

/-! ## What waiting calls have -/

/-- The call's code has been read up to an offset; if a mark was the last that was read, the frame
is where the mark says. -/
structure Call.Marked (a : Arena Value) (c : Call) (offset : Nat) (is : List Instruction) :
    Prop where
  reads : Reads c.code.block.bytecode 0 is offset
  place : ∀ before file position, is = before ++ [.debug file position] →
    a.placeOf? c.frame = some ⟨c.code.block.literal? file, position⟩

/-- The call is about to carry out its next instruction. -/
def Call.Ready (a : Arena Value) (c : Call) : Prop := ∃ is, c.Marked a c.ip is

/-- The call carries out a send. -/
structure Call.Waiting (a : Arena Value) (c : Call) (offset : Nat) (is : List Instruction)
    (i : Instruction) : Prop where
  current : c.current = some offset
  marked : c.Marked a offset is
  decoded : Instruction.decodeAt c.code.block.bytecode offset = .ok (some (i, c.ip))
  sends : i.isSend = true

def Call.Waits (a : Arena Value) (c : Call) : Prop := ∃ offset is i, c.Waiting a offset is i

namespace Call

variable {a b : Arena Value} {c : Call} {is : List Instruction} {i : Instruction}
  {offset next : Nat}

theorem Marked.congr (h : c.Marked a offset is) (same : b.placeOf? c.frame = a.placeOf? c.frame) :
    c.Marked b offset is :=
  ⟨h.reads, fun before file position last => same.trans (h.place before file position last)⟩

theorem Waits.congr (h : c.Waits a) (same : b.placeOf? c.frame = a.placeOf? c.frame) :
    c.Waits b := by
  obtain ⟨offset, is, i, waiting⟩ := h
  exact ⟨offset, is, i, waiting.current, waiting.marked.congr same, waiting.decoded, waiting.sends⟩

/-- What is read next is no mark, or the mark that the frame has now passed. -/
theorem Marked.snoc (h : c.Marked a offset is)
    (decoded : Instruction.decodeAt c.code.block.bytecode offset = .ok (some (i, next)))
    (place : ∀ file position, i = .debug file position →
      b.placeOf? c.frame = some ⟨c.code.block.literal? file, position⟩) :
    c.Marked b next (is ++ [i]) := by
  refine ⟨h.reads.snoc decoded, fun before file position last => place file position ?_⟩
  exact (List.append_inj_right' last rfl |> List.cons.inj).1

theorem ready_new (a : Arena Value) (frame : FrameId) (code : Code) :
    Call.Ready a { frame, code } :=
  ⟨[], .nil 0, fun before _ _ h => by simp at h⟩

/-- A call that goes on is ready again. -/
theorem Ready.moved (h : c.Ready a)
    (decoded : Instruction.decodeAt c.code.block.bytecode c.ip = .ok (some (i, next)))
    (place : ∀ file position, i = .debug file position →
      b.placeOf? c.frame = some ⟨c.code.block.literal? file, position⟩) (stack : List Value) :
    Call.Ready b { c.moved next with stack } := by
  obtain ⟨is, marked⟩ := h
  obtain ⟨reads, place⟩ := marked.snoc decoded place
  exact ⟨is ++ [i], reads, place⟩

/-- Once it has its answer, a call that waited is ready again. -/
theorem Waits.ready (h : c.Waits a) (v : Value) :
    Call.Ready a { c with stack := v :: c.stack } := by
  obtain ⟨offset, is, i, waiting⟩ := h
  have unmarked (file : UInt16) (position : Position) : i ≠ .debug file position := by
    rintro rfl
    cases waiting.sends
  obtain ⟨reads, place⟩ := waiting.marked.snoc (b := a) waiting.decoded
    fun file position same => absurd same (unmarked file position)
  exact ⟨is ++ [i], reads, place⟩

/-- A call that was ready for a send waits. -/
theorem Ready.waits (h : c.Ready a)
    (decoded : Instruction.decodeAt c.code.block.bytecode c.ip = .ok (some (i, next)))
    (sends : i.isSend = true) (stack : List Value) : Call.Waits a { c.moved next with stack } := by
  obtain ⟨is, reads, place⟩ := h
  exact ⟨c.ip, is, i, rfl, ⟨reads, place⟩, decoded, sends⟩

end Call

/-- Whether the next instruction is a send. -/
def State.Sends (s : State) : Prop :=
  ∃ c rest i next, s.calls.calls = c :: rest
    ∧ Instruction.decodeAt c.code.block.bytecode c.ip = .ok (some (i, next)) ∧ i.isSend = true

/-- The innermost call is ready, and the others wait. -/
def CallStack.Placed (a : Arena Value) (calls : List Call) : Prop :=
  (∀ c ∈ calls.head?, c.Ready a) ∧ ∀ c ∈ calls.tail, c.Waits a

def State.Placed (s : State) : Prop := CallStack.Placed s.memory.frames s.calls.calls

/-- A step from `s` has failed at `t`: the trace shows the calls where they stopped, of which all
but the innermost one wait, and that one too if it sent. -/
structure State.Halts (s t : State) (f : Failure) : Prop where
  frames : t.calls.frames = s.calls.frames
  trace : f.trace = t.calls.trace t.memory
  waiting : ∀ c ∈ t.calls.calls.tail, c.Waits t.memory.frames
  sending : s.Sends → ∀ c ∈ t.calls.calls, c.Waits t.memory.frames

def Progress.Placed (s : State) : Progress → Prop
  | .running t => t.Placed
  | .finished _ _ => True
  | .failed f t => s.Halts t f

/-- The calls wait for the innermost one, which is answered. -/
theorem State.resume_placed {s t : State} (h : ∀ c ∈ t.calls.calls, c.Waits t.memory.frames)
    (v : Value) : (t.resume v).Placed s := by
  obtain ⟨memory, ⟨calls, depth, hd⟩⟩ := t
  cases calls with
  | nil => trivial
  | cons c rest =>
    obtain ⟨first, later⟩ := List.forall_mem_cons.1 h
    refine ⟨fun d hd => ?_, later⟩
    cases hd
    exact first.ready v

namespace Machine

variable {machine : Machine} {s t : State} {m : Memory} {c : Call} {rest calls : List Call}
  {i : Instruction} {next : Nat}

/-- A call begins, and those that were there wait. -/
theorem enter_placed (machine : Machine) (attended : t.Attended)
    (frames : t.calls.frames = s.calls.frames)
    (h : ∀ c ∈ t.calls.calls, c.Waits t.memory.frames) (callee : Callee) :
    (machine.enter t callee).Placed s := by
  by_cases room : t.calls.depth < machine.maxDepth
  · rw [enter_eq room]
    refine ⟨fun d hd => ?_, fun d hd => (h d hd).congr ?_⟩
    · cases hd
      exact Call.ready_new _ _ _
    · simp only [Arena.placeOf?, Memory.frames_trace]
      rw [attended.get?_alloc (List.mem_map.2 ⟨d, hd, rfl⟩)]
  · rw [enter_eq_fail room]
    exact ⟨frames, rfl, fun d hd => h d (List.mem_of_mem_tail hd), fun _ => h⟩

theorem logCalls_placed {p : Progress} (h : p.Placed s) : (machine.logCalls p).Placed s := by
  refine logCalls_keeps (P := (·.Placed s)) h fun m m' calls logs before => ?_
  show CallStack.Placed m'.frames calls.calls
  rw [logs.frames]
  exact before

/-- The innermost call is over. -/
theorem finish_placed (attended : m.frames.Attended (c.frame :: rest.map (·.frame)))
    (h : ∀ d ∈ rest, d.Waits m.frames) (v : Value) :
    (finish ⟨m, .of (c :: rest)⟩ v).Placed s := by
  refine State.resume_placed (t := ⟨m.leave c, CallStack.drop (.of (c :: rest)) 1⟩)
    (fun d hd => (h d hd).congr ?_) v
  simp only [Arena.placeOf?, Memory.frames_leave]
  rw [attended.get?_pop (List.mem_map.2 ⟨d, hd, rfl⟩)]

/-- A return ends calls, or fails. -/
theorem escape_placed (attended : m.frames.Attended (calls.map (·.frame)))
    (frames : calls.map (·.frame) = s.calls.frames) (h : ∀ d ∈ calls.tail, d.Waits m.frames)
    (sent : s.Sends → ∀ d ∈ calls, d.Waits m.frames)
    (c : Call) (v : Value) : (machine.escape ⟨m, .of calls⟩ c v).Placed s := by
  have failed (cause : Cause) : (State.fail ⟨m, .of calls⟩ cause).Placed s :=
    ⟨frames, rfl, h, sent⟩
  rcases machine.escape_cases ⟨m, .of calls⟩ c v with ⟨cause, failure⟩ | ⟨n, returned⟩
  · rw [failure]
    exact failed cause
  · rw [returned]
    have left : m.frames.Attended
        ((calls.take (n + 1)).map (·.frame) ++ (calls.drop (n + 1)).map (·.frame)) := by
      rwa [← List.map_append, List.take_append_drop]
    refine State.resume_placed (t := ⟨_, _⟩) (fun d hd => ?_) v
    have hd : d ∈ calls.drop (n + 1) := hd
    have waits : d.Waits m.frames := by
      refine h d ?_
      rw [← List.drop_one]
      exact List.drop_subset_drop_left _ (Nat.succ_pos n) hd
    refine waits.congr ?_
    simp only [Arena.placeOf?, CallStack.of]
    rw [Memory.get?_leaveReturning left (List.mem_map.2 ⟨d, hd, rfl⟩)]

/-- What an effect on the innermost call comes to, which was ready for its instruction. -/
theorem carryOut_placed {effect : Effect}
    (attended : m.frames.Attended (c.frame :: rest.map (·.frame)))
    (frames : c.frame :: rest.map (·.frame) = s.calls.frames) (ready : c.Ready m.frames)
    (h : ∀ d ∈ rest, d.Waits m.frames)
    (decoded : Instruction.decodeAt c.code.block.bytecode c.ip = .ok (some (i, next)))
    (sent : s.Sends → i.isSend = true)
    (executed : (c.moved next).execute machine.image m i = effect) :
    (machine.carryOut (c.moved next) rest effect).Placed s := by
  have spared := (c.moved next).execute_spares machine.image m i
  rw [executed] at spared
  have waits (sends : i.isSend = true) (stack : List Value) :
      ∀ d ∈ { c.moved next with stack } :: rest, d.Waits m.frames :=
    List.forall_mem_cons.2 ⟨ready.waits decoded sends stack, h⟩
  cases effect with
  | next stack m₁ =>
    refine logCalls_placed (p := .running ⟨m₁, _⟩) ?_
    -- a mark places the innermost call's frame, and nothing else places any
    by_cases mark : ∃ file position, i = .debug file position
    · obtain ⟨file, position, rfl⟩ := mark
      cases executed
      obtain ⟨fr, here⟩ := ((attended.active c.frame).2 List.mem_cons_self).exists_frame
      refine ⟨fun d hd => ?_, fun d hd => (h d hd).congr ?_⟩
      · cases hd
        refine ready.moved decoded (fun file' position' same => ?_) _
        cases same
        show (m.frames.modify c.frame _).placeOf? c.frame = _
        rw [Arena.placeOf?, Arena.get?_modify, if_pos rfl, here]
        rfl
      · have other : d.frame ≠ c.frame := fun same =>
          (List.nodup_cons.1 attended.distinct).1 (same ▸ List.mem_map.2 ⟨d, hd, rfl⟩)
        show (m.frames.modify c.frame _).placeOf? d.frame = _
        rw [Arena.placeOf?, Arena.get?_modify, if_neg other]
        rfl
    · have stays := (c.moved next).execute_stays machine.image m
        fun file position same => mark ⟨file, position, same⟩
      rw [executed] at stays
      refine ⟨fun d hd => ?_, fun d hd => (h d hd).congr (stays d.frame)⟩
      cases hd
      exact ready.moved decoded (fun file position same => absurd ⟨file, position, same⟩ mark) _
  | enter stack callee m₁ =>
    have sends := (c.moved next).isSend_of_enter machine.image m executed
    have same : m₁.frames = m.frames := spared.1
    have attended : State.Attended ⟨m₁, .of ({ c.moved next with stack } :: rest)⟩ :=
      attended.touch (Arena.touches_of_eq same)
    refine logCalls_placed (enter_placed machine attended frames ?_ callee)
    rw [same]
    exact waits sends stack
  | finish stack v m₁ =>
    have same : m₁.frames = m.frames := spared
    refine finish_placed (c := { c.moved next with stack }) ?_ ?_ v <;> rw [same]
    · exact attended
    · exact h
  | escape stack v m₁ =>
    have same : m₁.frames = m.frames := spared
    have attended : m₁.frames.Attended (({ c.moved next with stack } :: rest).map (·.frame)) :=
      attended.touch (Arena.touches_of_eq same)
    refine escape_placed attended frames ?_ ?_ { c.moved next with stack } v <;> rw [same]
    · exact h
    · exact fun sending => waits (sent sending) stack
  | fault stack cause m₁ =>
    have same : m₁.frames = m.frames := spared
    refine ⟨frames, rfl, ?_, fun sending => ?_⟩ <;> simp only [same]
    · exact h
    · exact waits (sent sending) stack

/-- **A step keeps the innermost call ready and the others waiting.** -/
theorem step_placed (machine : Machine) (attended : s.Attended) (h : s.Placed) :
    (machine.step s).Placed s := by
  have relogged {m₀ : Memory} (noted : s.memory.Logs m₀) : m₀.frames.Attended s.calls.frames :=
    attended.touch (Arena.touches_of_eq noted.frames)
  have waiting {m₀ : Memory} (noted : s.memory.Logs m₀) :
      ∀ d ∈ s.calls.calls.tail, d.Waits m₀.frames :=
    noted.frames.symm ▸ h.2
  -- where there is no instruction, the next one is no send
  have still {m : Memory} {c : Call} {rest : List Call}
      {p : Except DecodeError (Option (Instruction × Nat))}
      (decoded : Instruction.decodeAt c.code.block.bytecode c.ip = p)
      (none : ∀ found, p ≠ .ok (some found)) :
      ¬ State.Sends ⟨m, .of (c :: rest)⟩ := by
    rintro ⟨d, _, i, next, top, found, -⟩
    cases top
    exact none (i, next) (decoded.symm.trans found)
  have steps := machine.step_stepsTo s
  generalize machine.step s = p at steps ⊢
  cases steps with
  | idle => exact ⟨rfl, rfl, h.2, fun _ => List.forall_mem_nil _⟩
  | unread decoded noted | valueless decoded noted _ =>
    exact ⟨rfl, rfl, waiting noted, fun sends => absurd sends (still decoded (by simp))⟩
  | ends _ noted _ => exact finish_placed (relogged noted) (waiting noted) _
  | @executes _ m₀ c rest i next _ decoded noted executed =>
    refine carryOut_placed (relogged noted) rfl ?_ (waiting noted) decoded ?_ executed
    · rw [noted.frames]
      exact h.1 c rfl
    · rintro ⟨d, _, j, after, top, found, sends⟩
      cases top
      cases found.symm.trans decoded
      exact sends

/-- **All along a run, the innermost call is ready and the others wait.** -/
theorem Visits.placed {call : HostCall} (visits : machine.Visits s call t) (rests : s.Rests) :
    t.Placed := by
  induction visits with
  | @entered s t receiver code args callee m invoked entered =>
    have spared := invoke_spares machine.image s.abandon.memory receiver code args
    rw [invoked] at spared
    obtain ⟨rfl, -⟩ := spared
    have placed := enter_placed machine (t := ⟨s.abandon.memory, .empty⟩) rests.attended.abandon rfl
      (List.forall_mem_nil _) callee
    rw [entered] at placed
    exact placed
  | send _ _ ih => exact ih rests
  | main _ _ _ _ ih => exact ih ⟨rests.attended, rests.empty⟩
  | step visits hs ih =>
    have stepped := step_placed machine (visits.attended rests.attended) (ih rests)
    rw [hs] at stepped
    exact stepped

end Machine

/-! ## The code of a run -/

/-- The code that a host names, and the values that it hands out, are of `ms`. -/
def HostCall.Of (ms : List Block) : HostCall → Prop
  | .main => True
  | .send receiver _ args => receiver.Of ms ∧ ∀ v ∈ args, v.Of ms
  | .perform receiver code args => code.Of ms ∧ receiver.Of ms ∧ ∀ v ∈ args, v.Of ms

/-- What a request has run, if it has anything run. -/
def Request.call? (host : List Value) : Request → Option HostCall
  | .send receiver selector args =>
    some (.send (held host receiver) selector (args.map (held host)))
  | .main => some .main
  | _ => none

theorem Request.of_call? {ms : List Block} {host : List Value} (hh : ∀ v ∈ host, v.Of ms)
    {r : Request} {call : HostCall} (h : r.call? host = some call) : call.Of ms := by
  cases r with
  | send receiver selector args =>
    cases h
    refine ⟨Machine.held_of hh receiver, fun v hv => ?_⟩
    obtain ⟨n, -, rfl⟩ := List.mem_map.1 hv
    exact Machine.held_of hh n
  | main =>
    cases h
    trivial
  | _ => cases h

/-- **All along a run, everything is of `ms`.** -/
theorem Machine.Visits.of {ms : List Block} {machine : Machine} {s t : State} {call : HostCall}
    (visits : machine.Visits s call t) (hi : machine.image.Of ms) (h : s.Of ms)
    (attended : s.Attended) (hc : call.Of ms) : t.Of ms := by
  induction visits with
  | @entered s t receiver code args callee m invoked entered =>
    have replied := invoke_of machine.image hc.1 h.abandon.memory hc.2.1 hc.2.2
    have spared := invoke_spares machine.image s.abandon.memory receiver code args
    rw [invoked] at replied spared
    obtain ⟨rfl, -⟩ := spared
    have began := enter_of machine h.abandon attended.abandon.tidy replied.1
    rw [show machine.enter s.abandon callee = .running t from entered] at began
    exact began
  | send found _ ih => exact ih h attended ⟨hi.method hc.1 found, hc⟩
  | main known found made _ ih =>
    have cls := hi.byName _ _ known
    cases made
    exact ih ⟨h.memory.instantiate _, h.calls⟩ attended
      ⟨cls.lookup found, cls, List.forall_mem_nil _⟩
  | step visits hs ih =>
    have stepped := step_of machine hi (ih h attended hc) (visits.attended attended).tidy
    rw [hs] at stepped
    exact stepped

section Outlines

variable {file : String} {os : List Outline} {ms : List Block} {b : Block}

/-- Blocks are nested in methods only. -/
theorem blockAt_nested (h : List.Forall₂ (fun o b => Block.Outlined file o b) os ms) {n k : Nat}
    {path : List Nat} (found : blockAt ms n (k :: path) = some b) : path = [] ∧ b.blocks = #[] := by
  induction path generalizing k b with
  | nil =>
    obtain ⟨outer, ho, hb⟩ := Option.bind_eq_some_iff.1 found
    have place := forall₂_getElem? h n
    rw [show ms[n]? = some outer from ho] at place
    cases hos : os[n]? with
    | none =>
      rw [hos] at place
      cases place
    | some o =>
      rw [hos] at place
      cases place with
      | some outlined => exact ⟨rfl, (outlined.nested k b hb).1⟩
  | cons k' path ih =>
    obtain ⟨outer, ho, hb⟩ := Option.bind_eq_some_iff.1 found
    obtain ⟨-, leaf⟩ := ih ho
    simp [leaf] at hb

/-- **The code with a given identity is that of the sends with it.** -/
theorem codeAt_announces (h : List.Forall₂ (fun o b => Block.Outlined file o b) os ms)
    {id : BlockId} (found : codeAt ms id = some b) :
    ∃ ss, os[id.method]?.bind (·.at? id.path) = some ss ∧ b.Announces file ss := by
  have place := forall₂_getElem? h id.method
  obtain ⟨n, path⟩ := id
  have outlined {outer : Block} (ho : ms[n]? = some outer) :
      ∃ o, os[n]? = some o ∧ outer.Outlined file o := by
    rw [show ms[n]? = some outer from ho] at place
    generalize os[n]? = o at place ⊢
    cases place with
    | some outlined => exact ⟨_, rfl, outlined⟩
  cases path with
  | nil =>
    obtain ⟨o, ho, outlined⟩ := outlined found
    exact ⟨o.sends, by rw [ho]; rfl, outlined.outer⟩
  | cons k path =>
    obtain ⟨rfl, -⟩ := blockAt_nested h found
    obtain ⟨outer, houter, hb⟩ := Option.bind_eq_some_iff.1 found
    obtain ⟨o, ho, outlined⟩ := outlined houter
    obtain ⟨-, ss, hss, announces⟩ := outlined.nested k b hb
    exact ⟨ss, by rw [ho]; exact hss, announces⟩

end Outlines

/-! ## Calls at their sends -/

/-- The call waits for a given send of the source of a compiled program: its code is compiled from
the part of the source where the send stands, the instruction that it carries out is the one
compiled from the send, and its frame has the position of the send, as far as that fits. -/
structure Call.AtSend (p : Program) (compiled : CompiledProgram) (file : String) (m : Memory)
    (c : Call) (site : SendSite) : Prop where
  code : codeAt (compiled.classes.flatMap (·.methods)) c.code.id = some c.code.block
  /-- As many sends of that part of the source stand before the given one as send instructions
  stand before the one carried out. -/
  sent : ∃ offset before i sites, c.current = some offset
    ∧ Reads c.code.block.bytecode 0 before offset
    ∧ Instruction.decodeAt c.code.block.bytecode offset = .ok (some (i, c.ip))
    ∧ p.sends? c.code.id = some sites ∧ sites[before.countP Instruction.isSend]? = some site
    ∧ site.Coded c.code.block.literals i
  place : m.frames.placeOf? c.frame
    = some ⟨some file, ⟨min site.position.line 65535, min site.position.column 65535⟩⟩

/-- A call of code that announces its sends waits for one of them. -/
theorem Call.Waits.atSend {p : Program} {compiled : CompiledProgram} {file : String} {m : Memory}
    {c : Call}
    (outlined : List.Forall₂ (fun o b => Block.Outlined file o b) p.outlines
      (compiled.classes.flatMap (·.methods)))
    (hc : c.code.Of (compiled.classes.flatMap (·.methods))) (h : c.Waits m.frames) :
    ∃ site, c.AtSend p compiled file m site := by
  obtain ⟨offset, before, i, current, marked, decoded, sends⟩ := h
  obtain ⟨sites, hsites, announces⟩ := codeAt_announces outlined hc
  obtain ⟨all, whole, announced⟩ := announces.code
  obtain ⟨later, rfl⟩ := whole.through marked.reads decoded
  obtain ⟨site, earlier, hsite, coded, last⟩ := announced.split sends
  refine ⟨site, hc, ⟨offset, before, i, sites, current, marked.reads, decoded, hsites, hsite,
    coded⟩, (marked.place _ _ _ last).trans ?_⟩
  have nonempty : sites ≠ [] := by
    rintro rfl
    cases hsite
  rw [Block.literal?, Emit.fileLiteral, show (0 : UInt16).toNat = 0 from rfl,
    announces.file nonempty]
  rfl

namespace Machine

/-- **Calls wait at sends.**  Compile a program with marks and load it; let a host have made any
requests, and let the next one have code run.  In every state that the machine comes by, every call
but the innermost one waits for a send of the source, and its frame has that send's position; when a
step fails, the trace shows the calls where they were, and if the innermost one was at a send, it
has that send's position too. -/
theorem calls_wait_at_sends {options : CompilerOptions} {p : Program} {log log' : Log}
    {compiled : CompiledProgram} {machine : Machine} {store : Store} {transcript : Transcript}
    {requests : List Request} {r : Request} {call : HostCall} {s t : State} {host : List Value}
    (accepted : compile options p = (log, .ok compiled)) (wanted : options.debugInfo = true)
    (loaded : Image.load (LoadClass.ofProgram compiled.classes 0).1
      = (log', .ok (machine.image, store)))
    (after : machine.after (start store transcript) [] requests = (s, host))
    (asked : r.call? host = some call) (visits : machine.Visits s call t) :
    (∀ c ∈ t.calls.calls.tail,
        ∃ site, c.AtSend p.onLibrary compiled options.fileName t.memory site)
      ∧ ∀ f t', machine.step t = .failed f t' →
        t'.calls.frames = t.calls.frames ∧ f.trace = t'.calls.trace t'.memory
        ∧ (∀ c ∈ t'.calls.calls.tail,
          ∃ site, c.AtSend p.onLibrary compiled options.fileName t'.memory site)
        ∧ (t.Sends → ∀ c ∈ t'.calls.calls.head?,
          ∃ site, c.AtSend p.onLibrary compiled options.fileName t'.memory site) := by
  have outlined := compileBare_outlined (p := p.onLibrary) wanted accepted
  obtain ⟨hi, began⟩ := Image.of_load loaded
  have rests : (start store transcript).Rests := ⟨Arena.attended_empty 1, rfl⟩
  have served := after_of hi (began transcript) rests (List.forall_mem_nil _) requests
  rw [after] at served
  obtain ⟨of, rests, handed⟩ := served
  have placed := visits.placed rests
  have attended := visits.attended rests.attended
  have of := visits.of hi of rests.attended (Request.of_call? handed asked)
  refine ⟨fun c hc => (placed.2 c hc).atSend outlined (of.calls c (List.mem_of_mem_tail hc)).code,
    fun f t' failed => ?_⟩
  have halts := step_placed machine attended placed
  have stopped := step_of machine hi of attended.tidy
  rw [failed] at halts stopped
  refine ⟨halts.frames, halts.trace, fun c hc => ?_, fun sends c hc => ?_⟩
  · exact (halts.waiting c hc).atSend outlined (stopped.calls c (List.mem_of_mem_tail hc)).code
  · have hc := List.mem_of_mem_head? hc
    exact (halts.sending sends c hc).atSend outlined (stopped.calls c hc).code

/-- A pixel that shows itself asks for its `y`, and waits at the send. -/
theorem calls_wait_at_sends_pixel : ∃ log compiled log' image store s host t c,
    compile {} pixelProgram = (log, .ok compiled)
      ∧ Image.load (LoadClass.ofProgram compiled.classes 0).1 = (log', .ok (image, store))
      ∧ after { image } (start store {}) [] [.newInstance "Pixel"] = (s, host)
      ∧ Visits { image } s (.send (held host 0) "show" []) t ∧ t.calls.calls.tail = [c]
      ∧ t.memory.frames.placeOf? c.frame = some ⟨some "<string>", ⟨3, 9⟩⟩
      ∧ ∃ site, c.AtSend pixelProgram.onLibrary compiled "<string>" t.memory site := by
  obtain ⟨log, compiled, log', image, store, pixel, main, show_, y, entry, accepted, loaded, has⟩ :=
    pixelProgram_loads
  obtain ⟨hshow, q, showIs⟩ := has.showMethod
  obtain ⟨hy, q', yIs⟩ := has.yMethod
  obtain ⟨block, id, owner⟩ := show_
  obtain rfl : block = showBlock q := showIs
  obtain ⟨block', id', owner'⟩ := y
  obtain rfl : block' = yBlock q' := yIs
  let code : Code := ⟨showBlock q, id, owner⟩
  let code' : Code := ⟨yBlock q', id', owner'⟩
  let made := Image.instantiate store pixel
  let s : State := start made.1 {}
  have after : after { image } (start store {}) [] [.newInstance "Pixel"] = (s, [made.2]) := by
    simp only [Machine.after, serve, newInstance, has.pixelClass]
    rfl
  let frame (place : Place) : Frame Value :=
    { Frame.ofMethod .nil code made.2 [] none ⟨0, 1⟩ with place }
  let memory (place : Place) : Memory :=
    { frames :=
        { slots := #[{ generation := 1, frame := some (frame place) }], live := 1, birth := 1 }
      store := made.1 }
  let calls (ip : Nat) (current : Option Nat) (stack : List Value) : CallStack :=
    .of [⟨⟨0, 1⟩, code, ip, current, stack⟩]
  have decoded : ∀ p : Nat × Instruction × Nat, p ∈ [(0, Instruction.pushSelf, 1),
      (1, .debug 0 ⟨3, 9⟩, 8), (8, .send 0 1, 13)] →
      Instruction.decodeAt code.block.bytecode p.1 = .ok (some p.2) := by
    show ∀ p : Nat × Instruction × Nat, p ∈ _ →
      Instruction.decodeAt (Instruction.encodeAll _) p.1 = .ok (some p.2)
    decide
  have foundShow : image.method made.2 "show" = .ok code := by
    simp only [made, Image.instantiate, Image.method, Image.methodFrom, Image.classOf, hshow]
    rfl
  have foundY : image.method made.2 "y" = .ok code' := by
    simp only [made, Image.instantiate, Image.method, Image.methodFrom, Image.classOf, hy]
    rfl
  have entered : Visits { image } s (.send made.2 "show" []) ⟨memory {}, calls 0 none []⟩ := by
    have invoked : invoke image s.abandon.memory made.2 code []
        = .enter (.method code made.2 []) { store := made.1 } := rfl
    refine .send foundShow (.entered invoked ?_)
    rw [enter_eq (show 0 < 10000 by decide)]
    simp only [Arena.alloc_empty]
    rfl
  have ready : Visits { image } s (.send made.2 "show" [])
      ⟨memory ⟨some "<string>", ⟨3, 9⟩⟩, calls 8 (some 1) [made.2]⟩ :=
    (entered.step (step_next rfl (decoded (0, .pushSelf, 1) (by simp)) rfl)).step
      (step_next rfl (decoded (1, .debug 0 ⟨3, 9⟩, 8) (by simp)) rfl)
  let waiting : Call := ⟨⟨0, 1⟩, code, 13, some 8, []⟩
  let m := memory ⟨some "<string>", ⟨3, 9⟩⟩
  have sent : Call.execute ⟨⟨0, 1⟩, code, 13, some 8, [made.2]⟩ image m (.send 0 1)
      = .enter [] (.method code' made.2 []) m := by
    have selector : Call.literal ⟨⟨0, 1⟩, code, 13, some 8, [made.2]⟩ 1 = .ok "y" := rfl
    simp only [Call.execute, selector, Call.send, show (0 : UInt16).toNat = 0 from rfl,
      List.drop_zero, foundY]
    rfl
  have stepped : step { image } ⟨m, calls 8 (some 1) [made.2]⟩
      = enter { image } ⟨m, .of [waiting]⟩ (.method code' made.2 []) :=
    step_enter rfl (decoded (8, .send 0 1, 13) (by simp)) sent
  rw [enter_eq (show 1 < 10000 by decide)] at stepped
  have visits := ready.step stepped
  have attended : m.frames.Attended [⟨0, 1⟩] :=
    ready.attended (Arena.attended_empty 1)
  have waits := calls_wait_at_sends (r := .send 0 "show" []) accepted rfl loaded after rfl visits
  refine ⟨log, compiled, log', image, store, s, [made.2], _, waiting, accepted, loaded, after,
    visits, rfl, ?_, waits.1 waiting (by exact List.mem_singleton.2 rfl)⟩
  simp only [Arena.placeOf?, Memory.frames_trace]
  rw [attended.get?_alloc List.mem_cons_self]
  rfl

end Machine

end Colloquy
