import Colloquy.Machine.Census
import Colloquy.Proofs.Arena.Accounts
import Colloquy.Proofs.Arena.Culling
import Colloquy.Proofs.CallStack
import Colloquy.Proofs.Requests

/-!
# What a host call leaves behind

At every moment the frames that have not been popped are exactly those of the calls in progress,
and every other frame is there because it is pinned (`State.Attended`).  This holds of any code,
whatever values it is given: a step keeps it, and so it holds all along a run.  When a run is over
no call is in progress, and when it fails the calls in progress are dropped.

Main statement: however a host call ends, nothing is going on then
(`Machine.host_calls_clean_up`).
-/

namespace Colloquy

/-! ## Frames that are attended to -/

namespace Arena

variable {a b : Arena Value} {f : FrameId} {fs : List FrameId}

theorem unpinned_pinAll (a : Arena Value) (ids : List FrameId) :
    (ids.foldl pin a).unpinned = a.unpinned := by
  induction ids generalizing a with
  | nil => rfl
  | cons id rest ih => exact (ih (a.pin id)).trans (unpinned_modifySlot a id _)

theorem sheds_zeroed (a : Arena Value) (ids : List FrameId) : a.Sheds (a.zeroed ids) := by
  induction ids generalizing a with
  | nil => exact .refl a
  | cons id ids ih => exact (Sheds.repin a id fun _ => 0).trans (ih _)

theorem counted_zeroed (h : a.Counted) (ids : List FrameId) : (a.zeroed ids).Counted := by
  induction ids generalizing a with
  | nil => exact h
  | cons id ids ih => exact ih (h.modifySlot id (steady_pinned fun _ => 0))

/-- Giving up pins changes no frame, and pops none. -/
theorem sheds_abandonPins (a : Arena Value) (ids : List FrameId) : a.Sheds (a.abandonPins ids) :=
  (sheds_zeroed a ids).trans (spares_abandonPins a ids).toSheds

theorem counted_abandonPins (h : a.Counted) (ids : List FrameId) : (a.abandonPins ids).Counted :=
  ((counted_zeroed h ids).of_unpinned _).collect

/-- The frames that have not been popped are those of `fs`, the queue has every popped frame without
pins, and has been worked off; the arena knows how many frames there are. -/
structure Attended (a : Arena Value) (fs : List FrameId) : Prop where
  tidy : a.Tidy
  queued : a.Queued
  counted : a.Counted
  settled : a.unpinned = []
  active : ∀ f, a.Active f ↔ f ∈ fs
  distinct : fs.Nodup

theorem attended_empty (birth : UInt32) : ({ birth } : Arena Value).Attended [] where
  tidy := tidy_empty birth
  queued f s h := by simp [slotOf?] at h
  counted := rfl
  settled := rfl
  active f := by simp [Active, slotOf?]
  distinct := List.nodup_nil

namespace Attended

/-- A frame that nobody attends to is pinned. -/
theorem pinned (h : a.Attended fs) {s : Slot Value} (hs : a.slotOf? f = some s) (hf : f ∉ fs) :
    s.popped = true ∧ 0 < s.pinned := by
  have popped : s.popped = true := by
    cases hp : s.popped with
    | true => rfl
    | false => exact absurd ((h.active f).1 ⟨s, hs, hp⟩) hf
  exact ⟨popped, h.queued.pinned_of_unpinned h.settled hs popped⟩

theorem modify (h : a.Attended fs) (id : FrameId) (g : Frame Value → Frame Value) :
    (a.modify id g).Attended fs where
  tidy := h.tidy.modify id g
  queued := h.queued.modify id g
  counted := h.counted.modifySlot id (steady_frame g)
  settled := (unpinned_modifySlot a id _).trans h.settled
  active _ := active_modify.trans (h.active _)
  distinct := h.distinct

theorem touch (h : a.Attended fs) (ht : a.Touches b) : b.Attended fs := by
  cases ht with
  | same => exact h
  | modify id links => exact h.modify id _
  | pin id =>
    exact ⟨h.tidy.pin id, h.queued.pin id, h.counted.modifySlot id (steady_pinned _),
      (unpinned_modifySlot a id _).trans h.settled, fun _ => active_pin.trans (h.active _),
      h.distinct⟩

/-- **A new frame is attended to.** -/
theorem alloc (h : a.Attended fs) (make : FrameId → Frame Value) :
    (a.alloc make).1.Attended ((a.alloc make).2 :: fs) := by
  have tidy := h.tidy.alloc make
  have queued := h.queued.alloc h.tidy make
  have counted := h.counted.alloc h.tidy make
  obtain ⟨id, base, eq, lodged⟩ := exists_lodged h.tidy make
  rw [eq] at tidy queued counted ⊢
  have collected := Sheds.collect a
  have fresh : id ∉ fs := fun hid => by
    obtain ⟨s, hs, -⟩ := collected.active_iff.2 ((h.active id).2 hid)
    rw [lodged.fresh] at hs
    simp at hs
  refine ⟨tidy, queued, counted, ?_, fun f => ?_, List.nodup_cons.2 ⟨fresh, h.distinct⟩⟩
  · rw [unpinned_pinAll, lodged.unpinned, unpinned_collect]
  · rw [(Sheds.pinAll base _).active_iff, lodged.active_iff, collected.active_iff, h.active,
      List.mem_cons]

/-- **A frame that is released is not attended to any more.** -/
theorem release (h : a.Attended (f :: fs)) : (a.release f).Attended fs := by
  obtain ⟨away, distinct⟩ := List.nodup_cons.1 h.distinct
  obtain ⟨s, hs, -⟩ := (h.active f).2 List.mem_cons_self
  refine ⟨h.tidy.release f, h.queued.release f, h.counted.release f, ?_, fun g => ?_, distinct⟩
  · rw [release_eq hs, unpinned_collect]
  · rw [(Sheds.release a f).active_iff, active_pop, h.active, List.mem_cons]
    constructor
    · exact fun ⟨other, mem⟩ => mem.resolve_left other
    · exact fun mem => ⟨fun same => away (same ▸ mem), .inr mem⟩

/-- A call is over: its frame is changed a last time and released. -/
theorem pop (h : a.Attended (f :: fs)) (g : Frame Value → Frame Value) :
    ((a.modify f g).release f).Attended fs :=
  (h.modify f g).release

theorem abandonPins (h : a.Attended fs) (ids : List FrameId) :
    (a.abandonPins ids).Attended fs := by
  refine ⟨((tidy_zeroed h.tidy ids).of_unpinned _).collect, Queued.collect ?_,
    counted_abandonPins h.counted ids, unpinned_collect _,
    fun f => (sheds_abandonPins a ids).active_iff.trans (h.active f), h.distinct⟩
  intro f s hs popped pinned
  have slot : (a.zeroed ids).slotOf? f = some s := hs
  rw [slotOf?_zeroed] at slot
  split at slot
  · exact List.mem_append_left _ ‹_›
  · have queued := h.queued f s slot popped pinned
    rw [h.settled] at queued
    simp at queued

/-- A frame whose pins have been given up is attended to or gone. -/
theorem gone_of_abandonPins (h : a.Attended fs) {ids : List FrameId} (hf : f ∈ ids)
    (off : f ∉ fs) : (a.abandonPins ids).get? f = none := by
  have none : (a.abandonPins ids).pinCount f = 0 := by
    refine Nat.le_zero.1 (Nat.le_trans (pinCount_collect_le _ f) (Nat.le_of_eq ?_))
    show (a.zeroed ids).pinCount f = 0
    rw [pinCount_eq, slotOf?_zeroed, if_pos hf]
    cases a.slotOf? f <;> rfl
  cases hs : (a.abandonPins ids).slotOf? f with
  | none => rw [get?_eq, hs]; rfl
  | some s =>
    have pinned := ((h.abandonPins ids).pinned hs off).2
    rw [← pinCount_of_some hs, none] at pinned
    exact absurd pinned (Nat.lt_irrefl 0)

end Attended

end Arena

/-! ## Steps -/

/-- The frames that have not been popped are those of the calls in progress. -/
def State.Attended (s : State) : Prop := s.memory.frames.Attended s.calls.frames

namespace Memory

variable {m : Memory} {fs : List FrameId}

theorem attended_leaveReturning {past : List Call}
    (h : m.frames.Attended (past.map (·.frame) ++ fs)) :
    (m.leaveReturning past).frames.Attended fs := by
  induction past generalizing m with
  | nil => exact h
  | cons c past ih =>
    refine ih ?_
    rw [frames_leave_markReturned]
    exact h.pop _

theorem attended_dropAll {past : List Call} (h : m.frames.Attended (past.map (·.frame) ++ fs)) :
    (past.foldl Memory.drop m).frames.Attended fs := by
  induction past generalizing m with
  | nil => exact h
  | cons c past ih => exact ih (h.pop _)

end Memory

/-- What a step leaves is attended to; if it was the last one, no call is left. -/
def Progress.Attended : Progress → Prop
  | .running s | .failed _ s => s.Attended
  | .finished _ s => s.Attended ∧ s.calls.frames = []

theorem State.Attended.abandon {s : State} (h : s.Attended) : s.abandon.Attended := by
  have all : s.memory.frames.Attended (s.calls.calls.map (·.frame) ++ []) := by
    rwa [List.append_nil]
  exact Memory.attended_dropAll all

theorem State.Attended.resume {s : State} (h : s.Attended) (v : Value) :
    (s.resume v).Attended := by
  obtain ⟨memory, ⟨calls, depth, hd⟩⟩ := s
  cases calls with
  | nil => exact ⟨h, rfl⟩
  | cons c rest => exact h

namespace Machine

variable {machine : Machine} {s t : State} {m : Memory} {c : Call} {rest calls : List Call}

theorem enter_attended (machine : Machine) (h : s.Attended) (callee : Callee) :
    (machine.enter s callee).Attended := by
  by_cases room : s.calls.depth < machine.maxDepth
  · rw [enter_eq room]
    show Arena.Attended (Memory.trace _ _).frames _
    rw [Memory.frames_trace]
    exact Arena.Attended.alloc h fun id => callee.frame s.calls.current? id
  · rw [enter_eq_fail room]
    exact h

theorem logCalls_attended {p : Progress} (h : p.Attended) : (machine.logCalls p).Attended := by
  refine logCalls_keeps (P := (·.Attended)) h fun m m' calls logs before => ?_
  show m'.frames.Attended _
  rw [logs.frames]
  exact before

/-- The innermost call is over. -/
theorem finish_attended (h : m.frames.Attended (c.frame :: rest.map (·.frame))) (v : Value) :
    (finish ⟨m, .of (c :: rest)⟩ v).Attended := by
  have left : State.Attended ⟨m.leave c, CallStack.drop (.of (c :: rest)) 1⟩ := by
    show (m.leave c).frames.Attended _
    rw [Memory.frames_leave]
    exact h.pop _
  exact left.resume v

/-- A return ends calls, or fails. -/
theorem escape_attended (h : m.frames.Attended (calls.map (·.frame))) (c : Call) (v : Value) :
    (machine.escape ⟨m, .of calls⟩ c v).Attended := by
  rcases machine.escape_cases ⟨m, .of calls⟩ c v with ⟨_, failed⟩ | ⟨n, returned⟩
  · rw [failed]
    exact h
  -- the home is among the calls: those up to it are over, the others go on
  · rw [returned]
    refine State.Attended.resume (s := ⟨_, _⟩) ?_ v
    show (m.leaveReturning (calls.take (n + 1))).frames.Attended
      (((CallStack.of calls).drop (n + 1)).calls.map (·.frame))
    refine Memory.attended_leaveReturning ?_
    rwa [CallStack.calls_drop, ← List.map_append, CallStack.of, List.take_append_drop]

theorem carryOut_attended {effect : Effect}
    (h : m.frames.Attended (c.frame :: rest.map (·.frame))) (spared : effect.Spares m) :
    (machine.carryOut c rest effect).Attended := by
  cases effect with
  | next stack m₁ =>
    have changed : Progress.Attended (.running ⟨m₁, .of ({ c with stack } :: rest)⟩) :=
      h.touch spared
    exact logCalls_attended changed
  | enter stack callee m₁ =>
    have same : State.Attended ⟨m₁, .of ({ c with stack } :: rest)⟩ :=
      h.touch (Arena.touches_of_eq spared.1)
    exact logCalls_attended (enter_attended machine same callee)
  | finish stack v m₁ =>
    exact finish_attended (c := { c with stack }) (h.touch (Arena.touches_of_eq spared)) v
  | escape stack v m₁ =>
    have same : m₁.frames.Attended (({ c with stack } :: rest).map (·.frame)) :=
      h.touch (Arena.touches_of_eq spared)
    exact escape_attended same _ v
  | fault stack cause m₁ =>
    have same : State.Attended ⟨m₁, .of ({ c with stack } :: rest)⟩ :=
      h.touch (Arena.touches_of_eq spared)
    exact same

/-- **A step keeps the frames of the calls in progress, and only these, from being popped.** -/
theorem step_attended (machine : Machine) (h : s.Attended) : (machine.step s).Attended := by
  have relogged {m₀ : Memory} (noted : s.memory.Logs m₀) : m₀.frames.Attended s.calls.frames :=
    h.touch (Arena.touches_of_eq noted.frames)
  have steps := machine.step_stepsTo s
  generalize machine.step s = p at steps ⊢
  cases steps with
  | idle => exact h
  | unread _ noted | valueless _ noted _ => exact relogged noted
  | ends _ noted _ => exact finish_attended (relogged noted) _
  | executes _ noted executed =>
    rw [← executed]
    exact carryOut_attended (relogged noted) (Call.execute_spares _ _ _ _)

/-- A run is over when no call is left, or it has failed. -/
def Outcome.Attended : Outcome → Prop
  | .value _ s => s.Attended ∧ s.calls.frames = []
  | .failure _ s => s.Attended

/-- **All along a run the frames of the calls in progress, and only these, are not popped.** -/
theorem run_attended (h : s.Attended) : (machine.run s).Attended := by
  fun_induction machine.run s with
  | case1 s after hstep ih =>
    have stepped := step_attended machine h
    rw [hstep] at stepped
    exact ih stepped
  | case2 s v after hstep =>
    have stepped := step_attended machine h
    rw [hstep] at stepped
    exact stepped
  | case3 s f after hstep =>
    have stepped := step_attended machine h
    rw [hstep] at stepped
    exact stepped

theorem outcome_attended {p : Progress} (h : p.Attended) : (machine.outcome p).Attended := by
  cases p with
  | running s => exact run_attended h
  | finished v s => exact h
  | failed f s => exact h

end Machine

/-! ## Idle states -/

/-- Nothing is going on: no call is in progress, and every frame that is there has been released and
is there because it is pinned. -/
structure State.Idle (s : State) : Prop where
  current : s.calls.current? = none
  depth : s.calls.depth = 0
  released : ∀ f slot, s.memory.frames.slotOf? f = some slot →
    slot.popped = true ∧ 0 < slot.pinned

/-- No call is in progress. -/
structure State.Rests (s : State) : Prop where
  attended : s.Attended
  empty : s.calls.frames = []

theorem State.Rests.idle {s : State} (h : s.Rests) : s.Idle where
  current := by rw [CallStack.current?_eq, h.empty]; rfl
  depth := by rw [← CallStack.length_frames, h.empty]; rfl
  released f slot hs := h.attended.pinned hs (by simp [h.empty])

theorem State.Attended.rests_abandon {s : State} (h : s.Attended) : s.abandon.Rests :=
  ⟨h.abandon, rfl⟩

/-! ## Frames that are left -/

namespace Census

variable {s : State} {held : List Value} {f : FrameId}

/-- Somebody holds a pin on the frame: a closure that it made is in the hands of the host, in a
frame that stays or in a row that stays, or a frame that stays is inside it. -/
inductive Pins (s : State) (held : List Value) (f : FrameId) : Prop where
  | host {v : Value} (mem : v ∈ held) (pins : .frame f ∈ ofValue v)
  | frame {g : FrameId} {fr : Frame Value} (there : s.memory.frames.get? g = some fr)
      (stays : Stays s held g) (pins : .frame f ∈ ofFrame fr)
  | row {r : Ref} {v : Value} (mem : v ∈ s.memory.store.row r) (stays : StaysRow s held r)
      (pins : .frame f ∈ ofValue v)

/-- What holds a node: the host or a call from outside the graph, or something that stays. -/
inductive Holder (s : State) (held : List Value) (n : Node) : Prop where
  | root (mem : n ∈ roots s held)
  | frame {g : FrameId} {fr : Frame Value} (there : s.memory.frames.get? g = some fr)
      (stays : Stays s held g) (mem : n ∈ ofFrame fr)
  | row {r : Ref} {v : Value} (made : r < s.memory.store.rows.size) (stays : StaysRow s held r)
      (hv : v ∈ s.memory.store.row r) (mem : n ∈ ofValue v)

/-- **What remains has a holder.** -/
theorem exists_holder {n : Node} {k : Nat} (hn : number s.memory.frames n = some k)
    (hk : k < (graph s held).size) (stays : (graph s held).remaining.getD k false = true) :
    Holder s held n := by
  rcases (graph s held).held_of_remaining hk stays with outside | ⟨j, hj, remains, holds⟩
  · obtain ⟨n', mem, hn'⟩ := List.mem_filterMap.1 outside
    exact .root (number_inj hn' hn ▸ mem)
  · by_cases slot : j < s.memory.frames.slots.size
    · have here : s.memory.frames.slots[j]? = some s.memory.frames.slots[j] :=
        Array.getElem?_eq_getElem slot
      cases frame : s.memory.frames.slots[j].frame with
      | none =>
        have found : s.memory.frames.slots.getD j {} = s.memory.frames.slots[j] := by
          simp [Array.getD_eq_getD_getElem?, here]
        simp only [graph, slot, if_true, found, frame] at holds
        cases holds
      | some fr =>
        have there : s.memory.frames.get? ⟨j, s.memory.frames.slots[j].generation⟩ = some fr :=
          Arena.get?_eq_some_iff.2 ⟨_, Arena.slotOf?_eq_some_iff.2
            ⟨here, Slot.holds_iff.2 ⟨rfl, fr, frame⟩⟩, frame⟩
        have holds : k ∈ (graph s held).holds
            (FrameId.mk j s.memory.frames.slots[j].generation).index := holds
        rw [holds_frame there] at holds
        obtain ⟨n', mem, hn'⟩ := List.mem_filterMap.1 holds
        exact .frame there remains (number_inj hn' hn ▸ mem)
    · obtain ⟨r, rfl⟩ := Nat.exists_eq_add_of_le (Nat.le_of_not_lt slot)
      rw [holds_row] at holds
      obtain ⟨n', mem, hn'⟩ := List.mem_filterMap.1 holds
      cases number_inj hn' hn
      obtain ⟨v, hv, mem⟩ := List.mem_flatMap.1 mem
      exact .row (Nat.lt_of_add_lt_add_left hj) remains (Array.mem_toList_iff.1 hv) mem

/-- **What remains of the frames is pinned**, when no call is in progress. -/
theorem pins_of_stays (ended : s.calls.calls = []) {fr : Frame Value}
    (hf : s.memory.frames.get? f = some fr) (stays : Stays s held f) : Pins s held f := by
  have below := Nat.lt_of_lt_of_le (index_lt hf) (Nat.le_add_right _ s.memory.store.rows.size)
  cases exists_holder (number_frame hf) below stays with
  | root mem =>
    simp only [roots, onStack, ended, List.flatMap_nil, List.map_nil, List.append_nil] at mem
    obtain ⟨v, hv, pins⟩ := List.mem_flatMap.1 mem
    exact .host hv pins
  | frame there stays mem => exact .frame there stays mem
  | row _ stays hv mem => exact .row hv stays mem

end Census

/-! ## Host calls -/

/-- What a host can have run. -/
inductive HostCall where
  | main
  | send (receiver : Value) (selector : String) (args : List Value)
  | perform (receiver : Value) (code : Code) (args : List Value)

namespace Machine

variable {machine : Machine} {s t : State} {m : Memory} {call : HostCall}

/-- What a host call comes to. -/
def handle (machine : Machine) (s : State) : HostCall → Outcome
  | .main => machine.runMain s
  | .send receiver selector args => machine.send s receiver selector args
  | .perform receiver code args => machine.perform s receiver code args

/-- The states that a machine comes by while it runs code for a host call. -/
inductive Visits (machine : Machine) : State → HostCall → State → Prop where
  | entered {s t : State} {receiver : Value} {code : Code} {args : List Value} {callee : Callee}
      {m : Memory} (invoked : invoke machine.image s.abandon.memory receiver code args
        = .enter callee m) (entered : machine.enter ⟨m, .empty⟩ callee = .running t) :
      Visits machine s (.perform receiver code args) t
  | send {s t : State} {receiver : Value} {selector : String} {code : Code} {args : List Value}
      (found : machine.image.method receiver selector = .ok code)
      (visits : Visits machine s (.perform receiver code args) t) :
      Visits machine s (.send receiver selector args) t
  | main {s t : State} {cls : Class} {code : Code} {store : Store} {receiver : Value}
      (known : machine.image.byName[mainClass]? = some cls)
      (found : cls.lookup mainSelector = some code)
      (made : Image.instantiate s.memory.store cls = (store, receiver))
      (visits : Visits machine { s with memory := { s.memory with store } }
        (.perform receiver code []) t) :
      Visits machine s .main t
  | step {s t t' : State} {call : HostCall} (visits : Visits machine s call t)
      (hs : machine.step t = .running t') : Visits machine s call t'

/-- The states that a host finds a machine in: it starts with nothing going on, handles host calls,
counts frames, and has its memory changed otherwise, but for the frames. -/
inductive Served (machine : Machine) : State → Prop where
  | start (store : Store) (transcript : Transcript) : Served machine (start store transcript)
  | call {s : State} (served : Served machine s) (call : HostCall) :
      Served machine (machine.handle s call).state
  | census {s : State} (served : Served machine s) (held : List Value) :
      Served machine (machine.census s held).1
  | change {s : State} (served : Served machine s) {m : Memory}
      (frames : m.frames = s.memory.frames) : Served machine { s with memory := m }

theorem settled_rests {o : Outcome} (h : o.Attended) : o.settled.state.Rests := by
  cases o with
  | value v s => exact ⟨h.1, h.2⟩
  | failure f s => exact State.Attended.rests_abandon h

theorem concluded_rests (h : m.frames.Attended []) {reply : Reply} (spared : reply.Spares m) :
    (machine.concluded reply).state.Rests := by
  cases reply with
  | answer v m' => exact ⟨h.touch (Arena.touches_of_eq spared), rfl⟩
  | fault cause m' =>
    obtain rfl : m' = m := spared
    exact ⟨h, rfl⟩
  | enter callee m' =>
    obtain ⟨rfl, -⟩ := spared
    have empty : State.Attended ⟨m', .empty⟩ := h
    exact settled_rests (outcome_attended (enter_attended machine empty callee))

theorem perform_rests (h : s.Attended) (receiver : Value) (code : Code) (args : List Value) :
    (machine.perform s receiver code args).state.Rests := by
  rw [perform_eq]
  exact concluded_rests h.abandon (invoke_spares _ _ receiver code args)

/-- **However a host call ends, no call is in progress then.** -/
theorem handle_rests (h : s.Rests) (call : HostCall) : (machine.handle s call).state.Rests := by
  cases call with
  | perform receiver code args => exact perform_rests h.attended receiver code args
  | send receiver selector args =>
    simp only [handle, send]
    split
    · exact perform_rests h.attended _ _ _
    · exact h
  | main =>
    simp only [handle, runMain]
    split
    · exact h
    · split
      · exact h
      · refine perform_rests ?_ _ _ _
        exact h.attended

theorem census_rests (h : s.Rests) (held : List Value) : (machine.census s held).1.Rests := by
  refine ⟨?_, h.empty⟩
  show (machine.census s held).1.memory.frames.Attended s.calls.frames
  rw [census_frames]
  exact h.attended.abandonPins _

/-- **A census leaves only frames that are pinned**, when no call is in progress. -/
theorem census_pins (h : s.Rests) (held : List Value) {f : FrameId} {fr : Frame Value}
    (hf : (machine.census s held).1.memory.frames.get? f = some fr) :
    Census.Pins s (machine.image.transcript :: held) f := by
  rw [census_frames] at hf
  have before := (Arena.sheds_abandonPins _ _).get? hf
  obtain ⟨slot, hs, -⟩ := Arena.get?_eq_some_iff.1 before
  obtain ⟨here, holds⟩ := Arena.slotOf?_eq_some_iff.1 hs
  have off : f ∉ s.calls.frames := by simp [h.empty]
  refine Census.pins_of_stays (List.map_eq_nil_iff.1 h.empty) before ?_
  -- otherwise the census has given up its pins, and nothing else has kept it
  refine Classical.byContradiction fun leaves => ?_
  have unheld := Census.mem_unheld.2 ⟨slot, here, (Slot.holds_iff.1 holds).1,
    (h.attended.pinned hs off).1, leaves⟩
  rw [h.attended.gone_of_abandonPins unheld off] at hf
  cases hf

theorem Served.rests (served : machine.Served s) : s.Rests := by
  induction served with
  | start store transcript => exact ⟨Arena.attended_empty 1, rfl⟩
  | call _ call ih => exact handle_rests ih call
  | census _ held ih => exact census_rests ih held
  | change _ frames ih => exact ⟨ih.attended.touch (Arena.touches_of_eq frames), ih.empty⟩

theorem Visits.attended (visits : machine.Visits s call t) (h : s.Attended) : t.Attended := by
  induction visits with
  | @entered s t receiver code args callee m invoked entered =>
    have spared := invoke_spares machine.image s.abandon.memory receiver code args
    rw [invoked] at spared
    obtain ⟨rfl, -⟩ := spared
    have after := enter_attended machine h.abandon callee
    rw [show machine.enter s.abandon callee = .running t from entered] at after
    exact after
  | send _ _ ih => exact ih h
  | main _ _ _ _ ih => exact ih h
  | step _ hs ih =>
    have after := step_attended machine (ih h)
    rw [hs] at after
    exact after

/-- The outcome of a host call is that of the run from any state that it comes by. -/
theorem Visits.handle_eq (visits : machine.Visits s call t) :
    machine.handle s call = (machine.run t).settled := by
  induction visits with
  | entered invoked entered =>
    rw [handle, perform_eq, invoked, concluded, entered]
    rfl
  | send found _ ih =>
    simp only [handle, Machine.send, found]
    exact ih
  | main known found made _ ih =>
    simp only [handle, runMain, known, found, made]
    exact ih
  | step _ hs ih =>
    rw [ih, run_eq, hs]
    rfl

/-- **Every host call cleans up.**  Whatever code there is and whatever a host has had run:
nothing is going on between host calls, nor after the next one, whether it ends with a value or
fails, so every frame made for it has been released;
a frame that is left is pinned, and after a census somebody does hold such a pin;
a send that finds no method changes nothing;
and a fault at any step of a host call is what the host is told, after the calls in progress at that
step have been dropped. -/
theorem host_calls_clean_up (served : machine.Served s) :
    s.Idle
      ∧ (∀ call, (machine.handle s call).state.Idle)
      ∧ (∀ held, (machine.census s held).1.Idle
        ∧ ∀ f fr, (machine.census s held).1.memory.frames.get? f = some fr →
          Census.Pins s (machine.image.transcript :: held) f)
      ∧ (∀ receiver selector args cause, machine.image.method receiver selector = .error cause →
        machine.send s receiver selector args = .failure (s.failure cause) s)
      ∧ ∀ call t fault t', machine.Visits s call t → machine.step t = .failed fault t' →
        machine.handle s call = .failure fault t'.abandon ∧ t'.abandon.Idle := by
  have rests := served.rests
  refine ⟨rests.idle, fun call => (handle_rests rests call).idle,
    fun held => ⟨(census_rests rests held).idle, fun f fr hf => census_pins rests held hf⟩,
    fun receiver selector args cause missing => ?_, fun call t fault t' visits failed => ?_⟩
  · simp only [send, missing]
  · have after := step_attended machine (visits.attended rests.attended)
    rw [failed] at after
    refine ⟨?_, State.Rests.idle (State.Attended.rests_abandon after)⟩
    rw [visits.handle_eq, run_eq, failed]
    rfl

/-- Code that cannot be read fails at its first step, and its call is dropped. -/
theorem host_calls_clean_up_unreadable :
    ∃ (machine : Machine) (code : Code) (fault : Failure) (t : State),
      machine.perform (start {} {}) .nil code [] = .failure fault t
        ∧ fault.cause = .badBytecode (.unknownOpcode 255 0) ∧ t.Idle := by
  let machine : Machine := { image := default }
  let code : Code := { block := { (default : Block) with bytecode := #[255] }, id := default }
  let callee : Callee := .method code .nil []
  have asked : invoke machine.image (start {} {}).abandon.memory .nil code []
      = .enter callee (start {} {}).memory := rfl
  have entered : machine.enter (start {} {}) callee = _ :=
    enter_eq (show 0 < 10000 by decide) callee
  have served : machine.Served (start {} {}) := .start {} {}
  have cleaned := (host_calls_clean_up served).2.2.2.2 (.perform .nil code []) _ _ _
    (.entered asked entered) rfl
  exact ⟨machine, code, _, _, cleaned.1, rfl, cleaned.2⟩

end Machine

end Colloquy
