import Colloquy.Proofs.Calling

/-!
# Returns through several calls

A return from a block ends the calls that stand between it and its home, and the call of the home.
The frames of these calls are given up one after another; giving up one of them may let others go
that it held (`Memory.leaveReturning`).

Main statement: `Session.returns_unwind_to_home`.
-/

namespace Colloquy

namespace Memory

variable {m : Memory} {f : FrameId} {fs : List FrameId} {past : List Call} {fr : Frame Value}

/-- Calls that are over leave the other frames alone, if those are still there. -/
theorem get?_of_leaveReturning (off : f ∉ past.map (·.frame))
    (here : (m.leaveReturning past).frames.get? f = some fr) : m.frames.get? f = some fr := by
  induction past generalizing m with
  | nil => exact here
  | cons c past ih =>
    obtain ⟨other, off⟩ := not_or.1 (List.mem_cons.not.1 off)
    have left := ih off here
    rw [frames_leave_markReturned] at left
    have before := Arena.get?_of_release left
    rwa [Arena.get?_modify, if_neg other] at before

/-- **A method that was returned from is marked so**, if its frame is still there. -/
theorem returned_leaveReturning (distinct : (past.map (·.frame)).Nodup) {d : Call} (hd : d ∈ past)
    (here : (m.leaveReturning past).frames.get? d.frame = some fr) (method : fr.isMethod = true) :
    fr.returned = true := by
  induction past generalizing m with
  | nil => cases hd
  | cons c past ih =>
    obtain ⟨off, distinct⟩ := List.nodup_cons.1 distinct
    rcases List.mem_cons.1 hd with rfl | hd
    · have left := get?_of_leaveReturning (m := (m.markReturned d).leave d) off here
      rw [frames_leave_markReturned] at left
      have marked := Arena.get?_of_release left
      rw [Arena.get?_modify, if_pos rfl] at marked
      obtain ⟨fr₀, -, rfl⟩ := Option.map_eq_some_iff.1 marked
      exact method
    · exact ih distinct hd here

end Memory

/-- The calls `ended` are over, and the caller of the outermost of them has got a value; nothing
else has changed but what was logged. -/
structure State.Unwound (s : State) (ended outer : List Call) (v : Value) (s' : State) : Prop where
  calls : s'.calls.calls = Call.handed v outer
  depth : s'.calls.depth + ended.length = s.calls.depth
  /-- Their frames are gone, or are held by pins only. -/
  released : ∀ d ∈ ended, ∀ slot, s'.memory.frames.slotOf? d.frame = some slot →
    slot.popped = true ∧ 0 < slot.pinned
  marked : ∀ d ∈ ended, ∀ fr, s'.memory.frames.get? d.frame = some fr → fr.isMethod = true →
    fr.returned = true
  outer : ∀ g ∈ outer, s'.memory.frames.get? g.frame = s.memory.frames.get? g.frame
  data : s.memory.SameData s'.memory

theorem State.resume_of (m : Memory) (outer : List Call) (v : Value) :
    State.resume ⟨m, .of outer⟩ v = if outer.isEmpty then .finished v ⟨m, .of (Call.handed v outer)⟩
      else .running ⟨m, .of (Call.handed v outer)⟩ := by
  cases outer <;> rfl

namespace Session

variable {machine : Machine} {x : Session} {c : Call} {fr : Frame Value} {v : Value}

/-- **A return ends the calls up to that of its home, and no others.**  Whatever has been loaded and
run: if the call of the home is in progress, the calls outside it are left, and the innermost of
them has got the value, or the host if there is none; the calls up to that of the home are over,
their frames are given up, and those of methods among them that are still there are marked.  Without
such a call the return fails, and the call stack is as it was. -/
theorem returns_unwind_to_home {classes : List LoadClass} {log : Log} {store : Store}
    {transcript : Transcript} (loaded : Image.load classes = (log, .ok (machine.image, store)))
    (reached : Relation.ReflTransGen (Move machine) (start store transcript) x)
    (returning : x.state.Returning c fr v) :
    (∀ past e outer, x.state.calls.calls = past ++ e :: outer → e.frame = fr.home →
      ∃ s, x.state.Unwound (past ++ [e]) outer v s
        ∧ machine.step x.state = if outer.isEmpty then .finished v s else .running s)
    ∧ (fr.home ∉ x.state.calls.frames → ∃ f s, machine.step x.state = .failed f s
      ∧ f.cause.kind = .blockCannotReturn ∧ s.calls.frames = x.state.calls.frames
      ∧ s.memory.frames = x.state.memory.frames) := by
  obtain ⟨⟨R, coherent⟩, -⟩ := linked_of_reached loaded reached
  have attended := attended_of_reached reached
  refine ⟨fun past e outer split home => ?_, fun off => ?_⟩
  · obtain ⟨ended, m, frames, logs, stepped⟩ :=
      Machine.step_of_return coherent returning split home
    have all : m.frames.Attended (ended.map (·.frame) ++ outer.map (·.frame)) := by
      rw [frames, logs.frames, ← List.map_append, List.append_assoc]
      have whole : x.state.memory.frames.Attended (x.state.calls.calls.map (·.frame)) := attended
      rwa [split] at whole
    have left := Memory.attended_leaveReturning all
    have has_ended {d : Call} (hd : d ∈ past ++ [e]) : ∃ d' ∈ ended, d'.frame = d.frame := by
      have on : d.frame ∈ (past ++ [e]).map (·.frame) := List.mem_map.2 ⟨d, hd, rfl⟩
      rw [← frames] at on
      exact List.mem_map.1 on
    have distinct := List.nodup_append'.1 all.distinct
    refine ⟨⟨m.leaveReturning ended, .of (Call.handed v outer)⟩, ?_, ?_⟩
    · refine ⟨rfl, ?_, fun d hd slot hs => ?_, fun d hd fr here method => ?_, fun g hg => ?_, ?_⟩
      · have handed : (Call.handed v outer).length = outer.length := by cases outer <;> rfl
        show (Call.handed v outer).length + (past ++ [e]).length = x.state.calls.depth
        simp only [x.state.calls.depth_eq, split, handed, List.length_append, List.length_cons,
          List.length_nil]
        omega
      · obtain ⟨d', hd', same⟩ := has_ended hd
        refine left.pinned hs fun on => ?_
        exact distinct.2.2 (List.mem_map.2 ⟨d', hd', same⟩) on
      · obtain ⟨d', hd', same⟩ := has_ended hd
        rw [← same] at here
        exact Memory.returned_leaveReturning distinct.1 hd' here method
      · rw [← logs.frames]
        exact Memory.get?_leaveReturning all (List.mem_map.2 ⟨g, hg, rfl⟩)
      · exact logs.data.trans (Memory.sameData_leaveReturning m ended)
    · rw [stepped, State.resume_of]
  · obtain ⟨cause, s, stepped, kind, frames, logs⟩ :=
      Machine.step_of_late_return machine returning off
    exact ⟨_, s, stepped, kind, frames, logs.frames⟩

/-- A block returns through its own call and that of its home. -/
theorem returns_unwind_to_home_relay :
    ∃ (machine : Machine) (store : Store) (x : Session) (c : Call) (fr : Frame Value)
      (d e g : Call) (s : State),
      Relation.ReflTransGen (Move machine) (start store {}) x ∧ x.state.Returning c fr .nil
      ∧ x.state.Unwound [d, e] [g] .nil s ∧ machine.step x.state = .running s := by
  obtain ⟨log, image, store, _, x, _, _, c, fr, loaded, -, -, -, -, reached, returning, frame,
    frames⟩ := relay_runs
  obtain ⟨d, _, calls, -, rest⟩ := List.map_eq_cons_iff.1 frames
  obtain ⟨e, _, rfl, home, rest⟩ := List.map_eq_cons_iff.1 rest
  obtain ⟨g, _, rfl, -, rest⟩ := List.map_eq_cons_iff.1 rest
  obtain rfl := List.map_eq_nil_iff.1 rest
  obtain ⟨s, unwound, stepped⟩ :=
    (@returns_unwind_to_home { image } x c fr .nil _ _ _ _ loaded reached returning).1
      [d] e [g] calls home
  exact ⟨{ image }, store, x, c, fr, d, e, g, s, reached, returning, unwound, stepped⟩

end Session

end Colloquy
