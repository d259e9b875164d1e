import Colloquy.Machine.Run
import Colloquy.Proofs.Coherence.Steps

/-!
# Runs and returns as equations

A run goes on from what its first step comes to (`Machine.run_eq`).  A return ends the calls up to
that of its home (`Machine.escape_eq_resume`), or fails if there is no such call
(`Machine.escape_eq_fail`).  Logging and the end of calls change frames in ways that code does not
see (`Memory.Recedes`).
-/

namespace Colloquy

/-! ## Frames that change without being seen -/

namespace Memory

/-- Frames may be gone, and what is not seen of the others may have changed. -/
structure Recedes (m m' : Memory) : Prop where
  data : m.SameData m'
  frames : ∀ f fr', m'.frames.get? f = some fr' →
    ∃ fr, m.frames.get? f = some fr ∧ fr.SameLinks fr' ∧ fr'.locals = fr.locals
  keeps : ∀ f, m.frames.Keeps f → m'.frames.Keeps f

variable {m m' m'' : Memory} {image : Image} {Q : Closure Value → Prop} {R : Ref → Prop}
  {calls rest : List Call} {c : Call} {host : List Value}

theorem Recedes.trans (h : m.Recedes m') (h' : m'.Recedes m'') : m.Recedes m'' where
  data := h.data.trans h'.data
  frames f fr'' here := by
    obtain ⟨fr', here', links', locals'⟩ := h'.frames f fr'' here
    obtain ⟨fr, here, links, locals⟩ := h.frames f fr' here'
    exact ⟨fr, here, ⟨links'.code.trans links.code, links'.receiver.trans links.receiver,
      links'.invoking.trans links.invoking, links'.enclosing.trans links.enclosing,
      links'.home.trans links.home⟩, locals'.trans locals⟩
  keeps f hf := h'.keeps f (h.keeps f hf)

/-- Only the log is another one. -/
theorem Logs.recedes (h : m.Logs m') : m.Recedes m' :=
  ⟨h.data, fun _ fr here => ⟨fr, h.frames ▸ here, .refl fr, rfl⟩, fun _ hf => h.frames.symm ▸ hf⟩

theorem Recedes.refl (m : Memory) : m.Recedes m := (Logs.refl m).recedes

/-- A frame gets other contents, its variables apart. -/
theorem recedes_modify (data : m.SameData m') {f : FrameId} {g : Frame Value → Frame Value}
    (frames : m'.frames = m.frames.modify f g) (links : ∀ fr : Frame Value, fr.SameLinks (g fr))
    (locals : ∀ fr, (g fr).locals = fr.locals) : m.Recedes m' := by
  refine ⟨data, fun k fr' here => ?_, fun k hk => ?_⟩
  · rw [frames, Arena.get?_modify] at here
    split at here
    · subst k
      obtain ⟨fr, old, rfl⟩ := Option.map_eq_some_iff.1 here
      exact ⟨fr, old, links fr, locals fr⟩
    · exact ⟨fr', here, .refl fr', rfl⟩
  · rw [frames]
    exact (Arena.keeps_modify fun fr => (links fr).enclosing).2 hk

theorem recedes_setPlace (m : Memory) (f : FrameId) (place : Place) :
    m.Recedes (m.setPlace f place) :=
  recedes_modify ⟨rfl, rfl, rfl⟩ rfl (fun _ => ⟨rfl, rfl, rfl, rfl, rfl⟩) fun _ => rfl

/-- The frame of the innermost call is given up. -/
theorem Coherent.recedes_pop (h : m.Coherent image Q R (c :: rest) host)
    {g : Frame Value → Frame Value} (links : ∀ fr : Frame Value, fr.SameLinks (g fr))
    (locals : ∀ fr, (g fr).locals = fr.locals)
    (frames : m'.frames = (m.frames.modify c.frame g).release c.frame) (data : m.SameData m') :
    m.Recedes m' := by
  have marked : m.Recedes { m with frames := m.frames.modify c.frame g } :=
    recedes_modify ⟨rfl, rfl, rfl⟩ rfl links locals
  have released := Arena.released_release (h.arena.tidy.modify c.frame g)
    (h.arena.balanced.modify fun fr => (links fr).enclosing) c.frame
  refine marked.trans ⟨⟨data.store, data.serial, data.transcript⟩,
    fun f fr here => ⟨fr, ?_, .refl fr, rfl⟩, fun f hf => ?_⟩
  · exact released.before (frames ▸ here)
  · rw [frames]
    exact (released.keeps hf).1

theorem Coherent.recedes_leave (h : m.Coherent image Q R (c :: rest) host) :
    m.Recedes (m.leave c) :=
  h.recedes_pop (sameLinks_lastWords c) (fun _ => rfl) (frames_leave m c) (sameData_leave m c)

theorem Coherent.recedes_leaveReturning {past : List Call}
    (h : m.Coherent image Q R (past ++ rest) host) : m.Recedes (m.leaveReturning past) := by
  induction past generalizing m with
  | nil => exact .refl m
  | cons c past ih =>
    have first := h.recedes_pop (sameLinks_lastWordsReturning c) (fun _ => rfl)
      (frames_leave_markReturned m c) (sameData_leave_markReturned m c)
    exact first.trans (ih (h.pop (.inr rfl) (frames_leave_markReturned m c) first.data.store))

theorem Coherent.recedes_dropAll (h : m.Coherent image Q R calls host) :
    m.Recedes (calls.foldl Memory.drop m) := by
  induction calls generalizing m with
  | nil => exact .refl m
  | cons c rest ih =>
    have first : m.Recedes (m.drop c) :=
      h.recedes_pop (sameLinks_lastWords c) (fun _ => rfl) rfl ⟨rfl, rfl, rfl⟩
    exact first.trans (ih (h.pop (.inl rfl) rfl rfl))

end Memory

/-! ## Runs -/

namespace Machine

/-- What comes of a step in the end. -/
def outcome (machine : Machine) : Progress → Outcome
  | .running s => machine.run s
  | .finished v s => .value v s
  | .failed f s => .failure f s

theorem run_eq (machine : Machine) (s : State) :
    machine.run s = machine.outcome (machine.step s) := by
  rw [run]
  split <;> rename_i h <;> rw [h] <;> rfl

end Machine

/-! ## Returns -/

namespace CallStack

variable {calls : List Call} {f : FrameId}

/-- The calls up to that of a frame that is there. -/
theorem upTo?_of_mem {d : Call} (hd : d ∈ calls) :
    ∃ past e below, calls = past ++ e :: below ∧ e.frame = d.frame
      ∧ (of calls).upTo? d.frame = some (past.length + 1) := by
  induction calls with
  | nil => cases hd
  | cons c rest ih =>
    by_cases hc : c.frame = d.frame
    · exact ⟨[], c, rest, rfl, hc, by simp [upTo?, of, List.findIdx?_cons, hc]⟩
    · have later : d ∈ rest := (List.mem_cons.1 hd).resolve_left fun he => hc (he ▸ rfl)
      obtain ⟨past, e, below, rfl, frame, found⟩ := ih later
      refine ⟨c :: past, e, below, rfl, frame, ?_⟩
      obtain ⟨k, hk, he⟩ := Option.map_eq_some_iff.1 found
      have hk : (past ++ e :: below).findIdx? (·.frame = d.frame) = some k := hk
      simp [upTo?, of, List.findIdx?_cons, hc, hk, ← he]

/-- The calls up to the first one of a frame. -/
theorem upTo?_append {past below : List Call} {e : Call} (others : ∀ d ∈ past, d.frame ≠ f)
    (he : e.frame = f) : (of (past ++ e :: below)).upTo? f = some (past.length + 1) := by
  have none : past.findIdx? (·.frame = f) = none := by
    rw [List.findIdx?_eq_none_iff]
    simpa using others
  simp [upTo?, of, List.findIdx?_append, none, List.findIdx?_cons, he]

theorem upTo?_of_not_mem (h : ∀ d ∈ calls, d.frame ≠ f) : (of calls).upTo? f = none := by
  simp only [upTo?, of, Option.map_eq_none_iff, List.findIdx?_eq_none_iff]
  simpa using h

end CallStack

namespace Machine

variable {machine : Machine} {m : Memory} {c : Call} {v : Value} {fr home : Frame Value}

/-- A return to a call in progress. -/
theorem escape_eq_resume {past below : List Call} {e : Call}
    (here : m.frames.get? c.frame = some fr) (hhome : m.frames.get? fr.home = some home)
    (returned : home.returned = false)
    (upTo : (CallStack.of (past ++ e :: below)).upTo? fr.home = some (past.length + 1)) :
    machine.escape ⟨m, .of (past ++ e :: below)⟩ c v
      = State.resume ⟨m.leaveReturning (past ++ [e]), .of below⟩ v := by
  have taken : (past ++ e :: below).take (past.length + 1) = past ++ [e] := by
    rw [List.append_cons, List.take_left' (by simp)]
  have left : (CallStack.of (past ++ e :: below)).drop (past.length + 1) = .of below := by
    have dropped : (past ++ e :: below).drop (past.length + 1) = below := by
      rw [List.append_cons, List.drop_left' (by simp)]
    rw [CallStack.eq_of (CallStack.drop _ _), CallStack.calls_drop]
    exact congrArg CallStack.of dropped
  simp only [escape, Memory.frame, here, canReturn, hhome, returned, Bool.not_false, if_true, upTo]
  rw [left]
  simp only [CallStack.of, taken]

/-- A return to a call that is over. -/
theorem escape_eq_fail {calls : List Call} (here : m.frames.get? c.frame = some fr)
    (upTo : (CallStack.of calls).upTo? fr.home = none) :
    machine.escape ⟨m, .of calls⟩ c v
      = State.fail ⟨m, .of calls⟩ (machine.cannotReturn ⟨m, .of calls⟩ c fr.home) := by
  simp only [escape, Memory.frame, here, upTo, ite_self]

end Machine

end Colloquy
