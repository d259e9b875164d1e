import Colloquy.Proofs.CallStack

/-!
# Returns from methods

A return ends the calls up to that of its home, the method that its code stands in.  It is made if
the home has a call in progress, and fails otherwise (`Machine.step_of_ret`).

Frames are numbered in the order in which they are made, so that a frame can be told from a later
one with the same handle.  A new call has a new number, and the other calls keep theirs
(`Session.Move.renumbers`); so a frame that has left the call stack never comes back
(`Session.Left.moves`), and no return to it can be made.  The variables of such a frame can still be
used by the closures that it made (`Memory.loadLocal_succ`, `Memory.loadLocal_setLocal`).

Main statement: `Session.no_return_to_the_dead`.
-/

namespace Colloquy

/-! ## Returns -/

/-- The innermost call is about to return a value. -/
structure State.Returning (s : State) (c : Call) (fr : Frame Value) (v : Value) : Prop where
  innermost : s.calls.calls.head? = some c
  instruction : ∃ next, Instruction.decodeAt c.code.block.bytecode c.ip = .ok (some (.ret, next))
  operand : c.stack.head? = some v
  frame : s.memory.frames.get? c.frame = some fr

theorem State.resume_ne_failed {s s' : State} {v : Value} {f : Failure} :
    s.resume v ≠ .failed f s' := by
  obtain ⟨memory, ⟨calls, depth, hd⟩⟩ := s
  cases calls <;> exact Progress.noConfusion

namespace Machine

variable {Q : Closure Value → Prop} {R : Ref → Prop} {machine : Machine} {s : State}
  {host : List Value} {c : Call} {fr : Frame Value} {v : Value}

/-- A return with an operand is an escape of the innermost call. -/
theorem escapes_of_returning (machine : Machine) (returning : s.Returning c fr v) :
    ∃ last rest m, s.calls.calls = c :: rest ∧ last.frame = c.frame ∧ s.memory.Logs m
      ∧ m.frames.get? last.frame = some fr
      ∧ machine.step s = machine.escape ⟨m, .of (last :: rest)⟩ last v := by
  obtain ⟨m, calls⟩ := s
  obtain ⟨innermost, ⟨next, decoded⟩, operand, here⟩ := returning
  obtain ⟨rest, hcalls⟩ := List.head?_eq_some_iff.1 innermost
  obtain ⟨below, hstack⟩ := List.head?_eq_some_iff.1 operand
  obtain rfl : calls = .of (c :: rest) := by rw [calls.eq_of, hcalls]
  obtain ⟨m₀, noted, stepped⟩ := machine.step_eq m rest decoded
  -- what is left of the call that returns
  let last : Call := { c.moved next with stack := below }
  refine ⟨last, rest, m₀, rfl, rfl, noted, noted.frames.symm ▸ here, ?_⟩
  have effect : (c.moved next).execute machine.image m₀ .ret = .escape below v m₀ := by
    simp only [Call.execute, Call.moved, hstack]
  rw [stepped, effect]
  rfl

/-- **A return ends the calls up to that of its home.** -/
theorem step_of_return (h : s.memory.Coherent machine.image Q R s.calls.calls host)
    (returning : s.Returning c fr v) {past outer : List Call} {e : Call}
    (split : s.calls.calls = past ++ e :: outer) (home : e.frame = fr.home) :
    ∃ ended m, ended.map (·.frame) = (past ++ [e]).map (·.frame) ∧ s.memory.Logs m
      ∧ machine.step s = State.resume ⟨m.leaveReturning ended, .of outer⟩ v := by
  obtain ⟨last, rest, m, calls, same, logs, here, escapes⟩ := escapes_of_returning machine returning
  -- the same calls, the innermost one being about to end
  obtain ⟨past', e', split', frames, frame⟩ : ∃ past' e', last :: rest = past' ++ e' :: outer
      ∧ past'.map (·.frame) = past.map (·.frame) ∧ e'.frame = e.frame := by
    cases past with
    | nil =>
      obtain ⟨rfl, rfl⟩ := List.cons.inj (calls.symm.trans split)
      exact ⟨[], last, rfl, rfl, same⟩
    | cons d past =>
      obtain ⟨rfl, rfl⟩ := List.cons.inj (calls.symm.trans split)
      exact ⟨last :: past, e, rfl, by simp only [List.map_cons, same], rfl⟩
  have running := h.arena.running e (by simp [split])
  obtain ⟨owner, owns⟩ := running.active.exists_frame
  have owned : m.frames.get? fr.home = some owner := by rw [logs.frames, ← home, owns]
  have others : ∀ d ∈ past', d.frame ≠ fr.home := by
    intro d hd he
    have distinct := h.arena.distinct
    rw [split, List.map_append, List.map_cons, ← frames, home] at distinct
    exact List.disjoint_of_nodup_append distinct (List.mem_map.2 ⟨d, hd, he⟩) List.mem_cons_self
  refine ⟨past' ++ [e'], m, by simp only [List.map_append, List.map_cons, frames, frame], logs, ?_⟩
  rw [escapes, split']
  exact escape_eq_resume here owned (running.returned owner owns)
    (CallStack.upTo?_append others (frame.trans home))

/-- **A return fails** if its home has no call in progress. -/
theorem step_of_late_return (machine : Machine) (returning : s.Returning c fr v)
    (off : fr.home ∉ s.calls.frames) : ∃ cause s', machine.step s = State.fail s' cause
      ∧ cause.kind = .blockCannotReturn ∧ s'.calls.frames = s.calls.frames
      ∧ s.memory.Logs s'.memory := by
  obtain ⟨last, rest, m, calls, same, logs, here, escapes⟩ := escapes_of_returning machine returning
  have frames : (CallStack.of (last :: rest)).frames = s.calls.frames := by
    simp only [CallStack.frames, calls, CallStack.of, List.map_cons, same]
  have missing : ∀ d ∈ last :: rest, d.frame ≠ fr.home := fun d hd he =>
    off (frames ▸ List.mem_map.2 ⟨d, hd, he⟩)
  rw [escapes, escape_eq_fail here (CallStack.upTo?_of_not_mem missing)]
  exact ⟨_, _, rfl, rfl, frames, logs⟩

/-- **What a return comes to:** it ends the calls up to that of its home, or fails if there is no
such call. -/
theorem step_of_ret (h : s.memory.Coherent machine.image Q R s.calls.calls host)
    (returning : s.Returning c fr v) :
    (fr.home ∈ s.calls.frames → ∃ past outer m,
        s.calls.frames = past ++ fr.home :: outer.map (·.frame)
          ∧ machine.step s = State.resume ⟨m, .of outer⟩ v)
      ∧ (fr.home ∉ s.calls.frames → ∃ f s', machine.step s = .failed f s'
        ∧ f.cause.kind = .blockCannotReturn) := by
  refine ⟨fun on => ?_, fun off => ?_⟩
  · obtain ⟨e, he, home⟩ := List.mem_map.1 on
    obtain ⟨past, outer, split⟩ := List.append_of_mem he
    obtain ⟨ended, m, -, -, stepped⟩ := step_of_return h returning split home
    refine ⟨past.map (·.frame), outer, _, ?_, stepped⟩
    rw [CallStack.frames, split, List.map_append, List.map_cons, home]
  · obtain ⟨cause, s', stepped, kind, -⟩ := step_of_late_return machine returning off
    exact ⟨_, s', stepped, kind⟩

end Machine

/-! ## Numbers of frames -/

namespace History

variable {h : History} {before after : State}

theorem calling_of_le (le : after.calls.depth ≤ before.calls.depth) :
    h.calling before after = h := by
  unfold calling
  split
  · rfl
  · rw [if_neg (Nat.not_lt.2 le)]

theorem calling_of_frames {id : FrameId}
    (frames : after.calls.frames = id :: before.calls.frames) :
    h.calling before after
      = { h with
          made := h.made + 1
          number := h.numbering id
          homeOf := fun n =>
            if n = h.made then (after.memory.frames.get? id).map fun fr => h.numbering id fr.home
            else h.homeOf n } := by
  have current : after.calls.current? = some id := by
    rw [CallStack.current?_eq, frames]
    rfl
  have deeper : before.calls.depth < after.calls.depth := by
    rw [← CallStack.length_frames, ← CallStack.length_frames, frames]
    exact Nat.lt_succ_self _
  simp only [calling, current, if_pos deeper]

theorem numbering_self (h : History) (f : FrameId) : h.numbering f f = h.made := if_pos rfl

theorem numbering_of_ne {f g : FrameId} (other : g ≠ f) : h.numbering f g = h.number g :=
  if_neg other

end History

namespace Session

variable {machine : Machine} {x x' y : Session} {n : Nat}

/-- What can happen to the numbers of the frames on the call stack: calls are over, or none is, or
the frame of a new call gets the next number, and the number of its home is written down. -/
inductive Renumbers (x x' : Session) : Prop where
  | drop (n : Nat) (frames : x'.state.calls.frames = x.state.calls.frames.drop n)
      (made : x'.history.made = x.history.made)
      (number : x'.history.number = x.history.number)
      (homeOf : x'.history.homeOf = x.history.homeOf)
  | push (id : FrameId) (fresh : id ∉ x.state.calls.frames)
      (frames : x'.state.calls.frames = id :: x.state.calls.frames)
      (made : x'.history.made = x.history.made + 1)
      (number : x'.history.number = x.history.numbering id)
      (homeOf : x'.history.homeOf = fun n =>
        if n = x.history.made then
          (x'.state.memory.frames.get? id).map fun fr => x.history.numbering id fr.home
        else x.history.homeOf n)

theorem made_making {h : History} {s : State} :
    (h.making s).made = h.made ∧ (h.making s).homeOf = h.homeOf := by
  unfold History.making
  split <;> exact ⟨rfl, rfl⟩

/-- Something that happens to the call stack is written down in the history. -/
theorem renumbers_of_restacks {limit : Nat} {s s' : State} {host host' : List Value}
    {h h₀ : History} (happens : s.Restacks limit s') (distinct : s'.calls.frames.Nodup)
    (made : h₀.made = h.made ∧ h₀.homeOf = h.homeOf) (number : h₀.number = h.number) :
    Renumbers ⟨s, host, h⟩ ⟨s', host', h₀.calling s s'⟩ := by
  have numbering (id : FrameId) : h₀.numbering id = h.numbering id := by
    unfold History.numbering
    rw [made.1, number]
  cases happens with
  | drop k frames _ =>
    have le : s'.calls.depth ≤ s.calls.depth := by
      rw [← CallStack.length_frames, frames, List.length_drop, CallStack.length_frames]
      exact Nat.sub_le _ k
    rw [History.calling_of_le le]
    exact .drop k frames made.1 number made.2
  | push callee id _ _ frames _ _ _ =>
    have fresh : id ∉ s.calls.frames := by
      rw [frames] at distinct
      exact (List.nodup_cons.1 distinct).1
    rw [History.calling_of_frames frames]
    exact .push id fresh frames (congrArg (· + 1) made.1) (numbering id)
      (by simp only [made, numbering])

/-- **What a move does to the numbers of the frames on the call stack.** -/
theorem Move.renumbers (hm : Move machine x x') (hx : x.Coherent machine) : Renumbers x x' := by
  have happens := hm.restacks hx
  obtain ⟨R, after⟩ := hx.move hm
  have distinct : x'.state.calls.frames.Nodup := after.arena.distinct
  obtain ⟨R, hx⟩ := hx
  cases hm with
  | step hs => exact renumbers_of_restacks happens distinct made_making number_making
  | enter asks hs => exact renumbers_of_restacks happens distinct ⟨rfl, rfl⟩ rfl
  | @finish s s' v host h hs =>
    have stepped := Machine.step_restacks hx
    rw [hs] at stepped
    refine .drop s.calls.depth ?_ rfl rfl rfl
    rw [stepped.1, ← CallStack.length_frames, List.drop_length]
  | fail hs =>
    have stepped := Machine.step_restacks hx
    rw [hs] at stepped
    exact .drop 0 stepped.2 rfl rfl rfl
  | @abandon s host h =>
    refine .drop s.calls.depth ?_ rfl rfl rfl
    rw [← CallStack.length_frames, List.drop_length]
    rfl
  | _ => exact .drop 0 rfl rfl rfl rfl

/-- The numbers of the frames on the call stack have been given out, each to one of them. -/
structure Numbered (x : Session) : Prop where
  bound : ∀ f ∈ x.state.calls.frames, x.history.number f < x.history.made
  distinct : (x.state.calls.frames.map x.history.number).Nodup

/-- The frame that was made as number `n` has left the call stack. -/
def Left (x : Session) (n : Nat) : Prop :=
  n < x.history.made ∧ ∀ f ∈ x.state.calls.frames, x.history.number f ≠ n

/-- The frames that were on the call stack keep their numbers. -/
theorem Renumbers.number_eq (h : Renumbers x x') {f : FrameId} (hf : f ∈ x.state.calls.frames) :
    x'.history.number f = x.history.number f := by
  cases h with
  | drop k _ _ number => rw [number]
  | push id fresh _ _ number =>
    have other : f ≠ id := fun he => fresh (he ▸ hf)
    rw [number, History.numbering_of_ne other]

theorem Renumbers.made_le (h : Renumbers x x') : x.history.made ≤ x'.history.made := by
  cases h with
  | drop k _ made _ => exact Nat.le_of_eq made.symm
  | push id _ _ made _ => exact made ▸ Nat.le_succ _

/-- A frame on the call stack was there before, or has the next number. -/
theorem Renumbers.before (h : Renumbers x x') {f : FrameId} (hf : f ∈ x'.state.calls.frames) :
    f ∈ x.state.calls.frames
      ∨ x'.history.number f = x.history.made ∧ x'.history.made = x.history.made + 1 := by
  cases h with
  | drop k frames _ _ => exact .inl (List.mem_of_mem_drop (frames ▸ hf))
  | push id _ frames made number =>
    rw [frames] at hf
    rcases List.mem_cons.1 hf with rfl | hf
    · refine .inr ⟨?_, made⟩
      rw [number]
      exact if_pos rfl
    · exact .inl hf

theorem Numbered.renumber (hx : x.Numbered) (h : Renumbers x x') : x'.Numbered := by
  have same : x.state.calls.frames.map x'.history.number
      = x.state.calls.frames.map x.history.number :=
    List.map_congr_left fun f hf => h.number_eq hf
  refine ⟨fun f hf => ?_, ?_⟩
  · rcases h.before hf with old | ⟨number, made⟩
    · rw [h.number_eq old]
      exact Nat.lt_of_lt_of_le (hx.bound f old) h.made_le
    · rw [number, made]
      exact Nat.lt_succ_self _
  · cases h with
    | drop k frames made number =>
      rw [frames, number, List.map_drop]
      exact hx.distinct.sublist (List.drop_sublist k _)
    | push id fresh frames made number =>
      rw [frames, List.map_cons, same, List.nodup_cons]
      refine ⟨fun hmem => ?_, hx.distinct⟩
      obtain ⟨f, hf, he⟩ := List.mem_map.1 hmem
      have last : x'.history.number id = x.history.made := by
        rw [number, History.numbering_self]
      exact Nat.lt_irrefl _ ((he.trans last) ▸ hx.bound f hf)

/-- **A frame that has left the call stack does not come back**, whatever happens next. -/
theorem Left.renumber (left : x.Left n) (h : Renumbers x x') : x'.Left n := by
  refine ⟨Nat.lt_of_lt_of_le left.1 h.made_le, fun f hf => ?_⟩
  rcases h.before hf with old | ⟨number, -⟩
  · rw [h.number_eq old]
    exact left.2 f old
  · rw [number]
    exact (Nat.ne_of_lt left.1).symm

theorem Left.moves (left : x.Left n) (hx : x.Coherent machine)
    (reached : Relation.ReflTransGen (Move machine) x y) : y.Coherent machine ∧ y.Left n := by
  induction reached with
  | refl => exact ⟨hx, left⟩
  | tail _ hm ih => exact ⟨ih.1.move hm, ih.2.renumber (hm.renumbers ih.1)⟩

/-- A frame that is not on the call stack any more has left it. -/
theorem Numbered.left (hx : x.Numbered) (h : Renumbers x x') {f : FrameId}
    (on : f ∈ x.state.calls.frames) (off : f ∉ x'.state.calls.frames) :
    x'.Left (x.history.number f) := by
  refine ⟨Nat.lt_of_lt_of_le (hx.bound f on) h.made_le, fun g hg he => ?_⟩
  rcases h.before hg with old | ⟨number, -⟩
  · rw [h.number_eq old] at he
    exact off (List.inj_on_of_nodup_map hx.distinct old on he ▸ hg)
  · exact Nat.lt_irrefl _ ((number ▸ he) ▸ hx.bound f on)

/-- The home of every call in progress has the number that it had when the frame of the call was
made. -/
def Homed (x : Session) : Prop :=
  ∀ f ∈ x.state.calls.frames, ∀ fr, x.state.memory.frames.get? f = some fr →
    x.history.homeOf (x.history.number f) = some (x.history.number fr.home)

/-- **Homes keep their numbers**, since the frame of a new call has a handle that named nothing. -/
theorem Homed.move (homed : x.Homed) (numbered : x.Numbered) (hx : x.Coherent machine)
    (hm : Move machine x x') : x'.Homed := by
  have happens := hm.restacks hx
  have renumbers := hm.renumbers hx
  obtain ⟨R, hx⟩ := hx
  intro f hf fr' here
  -- the frame was there before, with the same home
  have older (hf : f ∈ x.state.calls.frames) (recalls : x.state.memory.frames.Recalls
      x'.state.memory.frames f) : ∃ home, x.state.memory.frames.get? fr'.home = some home
        ∧ x.history.homeOf (x.history.number f) = some (x.history.number fr'.home) := by
    obtain ⟨fr, before, same⟩ := recalls fr' here
    obtain ⟨home, there, -⟩ := (hx.arena.frames f fr before).2.anchored_home
    rw [same.home]
    exact ⟨home, there, homed f hf fr before⟩
  cases happens with
  | drop k frames recalls =>
    rw [frames] at hf
    obtain ⟨-, -, known⟩ := older (List.mem_of_mem_drop hf) (recalls f)
    cases renumbers with
    | drop _ _ _ number homeOf => rwa [number, homeOf]
    | push id _ frames' =>
      have shorter := congrArg List.length (frames.symm.trans frames')
      simp only [List.length_drop, List.length_cons] at shorter
      omega
  | push callee id _ _ frames fresh created recalls =>
    cases renumbers with
    | drop k frames' =>
      have longer := congrArg List.length (frames.symm.trans frames')
      simp only [List.length_drop, List.length_cons] at longer
      omega
    | push id' off frames' _ number homeOf =>
      obtain ⟨rfl, -⟩ := List.cons.inj (frames.symm.trans frames')
      rw [frames] at hf
      rw [number, homeOf]
      rcases List.mem_cons.1 hf with rfl | hf
      · simp only [History.numbering_self, if_true, here, Option.map_some]
      · have other : f ≠ id := fun same => off (same ▸ hf)
        obtain ⟨home, there, known⟩ := older hf (recalls f other)
        have away : fr'.home ≠ id := fun same => by
          rw [same, fresh] at there
          cases there
        rw [History.numbering_of_ne other, History.numbering_of_ne away, ← known]
        exact if_neg (Nat.ne_of_lt (numbered.bound f hf))

end Session

/-! ## Variables of frames that are over -/

namespace Memory

variable {m m' : Memory} {f e holder : FrameId} {fr : Frame Value} {depth slot : UInt16}
  {v w : Value}

theorem frame_of_get? (here : m.frames.get? f = some fr) : m.frame f = .ok fr := by
  simp only [frame, here]

/-- One scope further out is what the enclosing frame finds. -/
theorem outward_succ (here : m.frames.get? f = some fr) (inside : fr.enclosing = some e)
    (depth : UInt16) (hops : Nat) : m.outward depth (hops + 1) f = m.outward depth hops e := by
  simp only [outward, frame_of_get? here, bind, Except.bind, inside]

/-- The depth in the message apart, it does not matter from where a frame is counted. -/
theorem outward_eq_ok {depth' : UInt16} {hops : Nat} (h : m.outward depth hops f = .ok holder) :
    m.outward depth' hops f = .ok holder := by
  induction hops generalizing f with
  | zero => exact h
  | succ hops ih =>
    obtain ⟨fr, here, h⟩ := Checked.bind_eq_ok.1 h
    refine Checked.bind_eq_ok.2 ⟨fr, here, ?_⟩
    split at h
    · exact ih h
    · cases h

theorem context_succ (here : m.frames.get? f = some fr) (inside : fr.enclosing = some e)
    (small : depth.toNat + 1 < 65536) :
    m.context f (depth + 1) = .ok holder ↔ m.context e depth = .ok holder := by
  have hops : (depth + 1).toNat = depth.toNat + 1 := by
    rw [UInt16.toNat_add]
    exact Nat.mod_eq_of_lt small
  unfold context
  rw [hops, outward_succ here inside]
  exact ⟨outward_eq_ok, outward_eq_ok⟩

theorem loadLocal_eq_ok : m.loadLocal f depth slot = .ok v ↔ ∃ holder fr,
    m.context f depth = .ok holder ∧ m.frames.get? holder = some fr
      ∧ fr.locals[slot.toNat]? = some v := by
  constructor
  · intro h
    obtain ⟨holder, found, h⟩ := Checked.bind_eq_ok.1 h
    obtain ⟨fr, here, h⟩ := Checked.bind_eq_ok.1 h
    refine ⟨holder, fr, found, frame_eq_ok here, ?_⟩
    split at h
    · rename_i w hw
      cases h
      exact hw
    · cases h
  · rintro ⟨holder, fr, found, here, hv⟩
    refine Checked.bind_eq_ok.2 ⟨holder, found, Checked.bind_eq_ok.2 ⟨fr, frame_of_get? here, ?_⟩⟩
    rw [hv]
    rfl

theorem localFrame_eq_ok : m.localFrame f depth slot = .ok holder ↔
    m.context f depth = .ok holder
      ∧ ∃ fr, m.frames.get? holder = some fr ∧ slot.toNat < fr.locals.size := by
  constructor
  · intro h
    obtain ⟨holder', found, h⟩ := Checked.bind_eq_ok.1 h
    obtain ⟨fr, here, h⟩ := Checked.bind_eq_ok.1 h
    split at h
    · rename_i room
      cases h
      exact ⟨found, fr, frame_eq_ok here, room⟩
    · cases h
  · rintro ⟨found, fr, here, room⟩
    refine Checked.bind_eq_ok.2 ⟨holder, found, Checked.bind_eq_ok.2 ⟨fr, frame_of_get? here, ?_⟩⟩
    rw [if_pos room]
    rfl

/-- **A block reads the variables of the frame that made it**, one scope further out. -/
theorem loadLocal_succ (here : m.frames.get? f = some fr) (inside : fr.enclosing = some e)
    (small : depth.toNat + 1 < 65536) :
    m.loadLocal f (depth + 1) slot = .ok v ↔ m.loadLocal e depth slot = .ok v := by
  simp only [loadLocal_eq_ok, context_succ here inside small]

theorem localFrame_succ (here : m.frames.get? f = some fr) (inside : fr.enclosing = some e)
    (small : depth.toNat + 1 < 65536) :
    m.localFrame f (depth + 1) slot = .ok holder ↔ m.localFrame e depth slot = .ok holder := by
  simp only [localFrame_eq_ok, context_succ here inside small]

/-- The way out depends on the links to enclosing frames only. -/
theorem outward_congr (links : ∀ f, (m'.frames.get? f).map (·.enclosing)
      = (m.frames.get? f).map (·.enclosing)) (depth : UInt16) (hops : Nat) (f : FrameId) :
    m'.outward depth hops f = m.outward depth hops f := by
  induction hops generalizing f with
  | zero => rfl
  | succ hops ih =>
    have link := links f
    cases here : m.frames.get? f with
    | none =>
      rw [here, Option.map_none, Option.map_eq_none_iff] at link
      simp only [outward, frame, here, link]
      rfl
    | some fr =>
      rw [here, Option.map_some, Option.map_eq_some_iff] at link
      obtain ⟨fr', here', same⟩ := link
      cases inside : fr.enclosing with
      | none =>
        rw [inside] at same
        simp only [outward, frame, here, here', bind, Except.bind, inside, same]
      | some e =>
        rw [inside] at same
        rw [outward_succ here inside, outward_succ here' same]
        exact ih e

theorem outward_setLocal (m : Memory) (holder : FrameId) (k : Nat) (w : Value) (depth : UInt16)
    (hops : Nat) (f : FrameId) :
    (m.setLocal holder k w).outward depth hops f = m.outward depth hops f := by
  refine outward_congr (fun g => ?_) depth hops f
  simp only [setLocal, Arena.get?_modify]
  split
  · subst g
    rw [Option.map_map]
    rfl
  · rfl

/-- **What is stored into a variable is read back**, from wherever the variable is seen. -/
theorem loadLocal_setLocal (h : m.localFrame f depth slot = .ok holder) (w : Value) :
    (m.setLocal holder slot.toNat w).loadLocal f depth slot = .ok w := by
  obtain ⟨found, fr, here, room⟩ := localFrame_eq_ok.1 h
  have stored : (m.setLocal holder slot.toNat w).frames.get? holder
      = some { fr with locals := fr.locals.setIfInBounds slot.toNat w } := by
    simp only [setLocal, Arena.get?_modify, if_pos, here, Option.map_some]
  refine loadLocal_eq_ok.2 ⟨holder, _, ?_, stored, ?_⟩
  · rw [context, outward_setLocal]
    exact found
  · simp [room]

/-- The way out from a kept frame is over kept frames. -/
theorem keeps_of_outward {home : FrameId} (anchored : m.frames.Anchored f home)
    (kept : m.frames.Keeps f) {hops : Nat} (h : m.outward depth hops f = .ok holder) :
    m.frames.Keeps holder := by
  induction hops generalizing f with
  | zero =>
    cases h
    exact kept
  | succ hops ih =>
    cases anchored with
    | method here outermost own =>
      simp only [outward, frame_of_get? here, bind, Except.bind, outermost] at h
      cases h
    | block here inside _ keptOuter outer =>
      rw [outward_succ here inside] at h
      exact ih outer keptOuter h

theorem outward_retained {home : FrameId} (anchored : m.frames.Anchored f home)
    (kept : m.frames.Keeps f) (retains : m.frames.Retains m'.frames) (depth : UInt16) (hops : Nat) :
    m'.outward depth hops f = m.outward depth hops f := by
  induction hops generalizing f with
  | zero => rfl
  | succ hops ih =>
    have same := (retains.keeps kept).2
    cases anchored with
    | method here outermost own =>
      simp only [outward, frame_of_get? here, frame_of_get? (same.trans here), bind, Except.bind,
        outermost]
    | block here inside _ keptOuter outer =>
      rw [outward_succ here inside, outward_succ (same.trans here) inside]
      exact ih outer keptOuter

/-- In `m'`, frame `f` sees the variables that frame `e` saw in `m`, one scope further out, and what
it stores there can be read from both. -/
structure Shares (m m' : Memory) (e f : FrameId) : Prop where
  loads : ∀ depth slot v, depth.toNat + 1 < 65536 →
    (m'.loadLocal f (depth + 1) slot = .ok v ↔ m.loadLocal e depth slot = .ok v)
  stores : ∀ depth slot holder v, depth.toNat + 1 < 65536 → m.localFrame e depth slot = .ok holder →
    m'.localFrame f (depth + 1) slot = .ok holder
      ∧ (m'.setLocal holder slot.toNat v).loadLocal f (depth + 1) slot = .ok v
      ∧ (m'.setLocal holder slot.toNat v).loadLocal e depth slot = .ok v

/-- **A new call of a block sees the variables around the block**, whatever has become of the calls
that made them. -/
theorem shares_of_retained {home : FrameId} (anchored : m.frames.Anchored e home)
    (kept : m.frames.Keeps e) (retains : m.frames.Retains m'.frames)
    (here : m'.frames.get? f = some fr) (inside : fr.enclosing = some e) : m.Shares m' e f := by
  have context (depth : UInt16) : m'.context e depth = m.context e depth :=
    outward_retained anchored kept retains depth depth.toNat
  have holders {depth : UInt16} {holder : FrameId} (found : m.context e depth = .ok holder) :
      m'.frames.get? holder = m.frames.get? holder :=
    (retains.keeps (keeps_of_outward anchored kept found)).2
  constructor
  · intro depth slot v small
    rw [loadLocal_succ here inside small, loadLocal_eq_ok, loadLocal_eq_ok]
    constructor
    · rintro ⟨holder, fr, found, there, hv⟩
      rw [context] at found
      exact ⟨holder, fr, found, holders found ▸ there, hv⟩
    · rintro ⟨holder, fr, found, there, hv⟩
      exact ⟨holder, fr, (context depth).trans found, (holders found).trans there, hv⟩
  · intro depth slot holder v small h
    have h' : m'.localFrame e depth slot = .ok holder := by
      obtain ⟨found, fr, there, room⟩ := localFrame_eq_ok.1 h
      exact localFrame_eq_ok.2
        ⟨(context depth).trans found, fr, (holders found).trans there, room⟩
    have inner := (localFrame_succ here inside small).2 h'
    exact ⟨inner, loadLocal_setLocal inner v, loadLocal_setLocal h' v⟩

end Memory

/-! ## All sessions -/

namespace Session

variable {machine : Machine} {x x' y : Session}

theorem numbered_of_reached {classes : List LoadClass} {log : Log} {store : Store}
    {transcript : Transcript} (loaded : Image.load classes = (log, .ok (machine.image, store)))
    (reached : Relation.ReflTransGen (Move machine) (start store transcript) x) :
    x.Coherent machine ∧ x.Numbered ∧ x.Homed := by
  induction reached with
  | refl =>
    exact ⟨coherent_start loaded transcript, ⟨List.forall_mem_nil _, List.nodup_nil⟩,
      List.forall_mem_nil _⟩
  | tail _ hm ih =>
    obtain ⟨coherent, numbered, homed⟩ := ih
    exact ⟨coherent.move hm, numbered.renumber (hm.renumbers coherent),
      homed.move numbered coherent hm⟩

/-- A held block can be called with held arguments while there is room. -/
theorem Coherent.enter_block (hx : x.Coherent machine) {c : Closure Value} {args : List Value}
    (held : x.Holds (.block c)) (given : ∀ v ∈ args, x.Holds v)
    (room : x.state.calls.depth < machine.maxDepth) :
    ∃ (id : FrameId) (m : Memory) (outer : Frame Value),
      machine.enter x.state (.block c args)
          = .running ⟨m, x.state.calls.push { frame := id, code := c.code }⟩
        ∧ m.frames.get? id = some (Frame.ofClosure .nil c args x.state.calls.current?)
        ∧ id ≠ c.enclosing ∧ x.state.memory.frames.get? c.enclosing = some outer
        ∧ m.frames.get? c.enclosing = some outer
        ∧ x.state.memory.Shares m c.enclosing id := by
  obtain ⟨R, hx⟩ := hx
  have secure := (Value.each_block.1 (held.sound hx)).1
  have sound : ∀ v ∈ (Callee.block c args).values,
      x.state.memory.frames.Sound (Made x.history x.state.memory.serial) R v :=
    List.forall_mem_cons.2 ⟨held.sound hx, fun v hv => (given v hv).sound hx⟩
  obtain ⟨id, m, entered, -, made⟩ := Machine.enter_created hx sound room
  obtain ⟨outer, there⟩ := secure.keeps.exists_frame
  have fresh : id ≠ c.enclosing := fun he => made.fresh.1 (he ▸ secure.keeps)
  exact ⟨id, m, outer, entered, made.get?, fresh, there,
    (made.retains.keeps secure.keeps).2.trans there,
    Memory.shares_of_retained secure.anchored secure.keeps made.retains made.get? rfl⟩

/-- **A method that is over cannot be returned from.**  Whatever has been loaded and run: a return
with an operand ends the calls up to that of its home if the home is on the call stack, and fails
otherwise.  If a frame `f` has left the call stack by any move, then every later return of a frame
that was made with `f` as its home fails, whatever has happened in between.  Homes do not change:
the home of a closure has the number that was written down when the closure was made, and that of a
call the one from when its frame was made.  Blocks can still be called, and read and write the
variables around them. -/
theorem no_return_to_the_dead {classes : List LoadClass} {log : Log} {store : Store}
    {transcript : Transcript} (loaded : Image.load classes = (log, .ok (machine.image, store)))
    (reached : Relation.ReflTransGen (Move machine) (start store transcript) x) :
    (∀ c fr v, x.state.Returning c fr v →
      (fr.home ∈ x.state.calls.frames ↔ ∀ f s, machine.step x.state ≠ .failed f s)
      ∧ (fr.home ∈ x.state.calls.frames → ∃ past outer m,
        x.state.calls.frames = past ++ fr.home :: outer.map (·.frame)
          ∧ machine.step x.state = State.resume ⟨m, .of outer⟩ v)
      ∧ (fr.home ∉ x.state.calls.frames → ∃ f s, machine.step x.state = .failed f s
        ∧ f.cause.kind = .blockCannotReturn))
    ∧ (∀ f ∈ x.state.calls.frames, ∀ x', Move machine x x' → f ∉ x'.state.calls.frames →
      ∀ y, Relation.ReflTransGen (Move machine) x' y → ∀ c fr v, y.state.Returning c fr v →
        y.history.homeOf (y.history.number c.frame) = some (x.history.number f) →
        ∃ f s, machine.step y.state = .failed f s ∧ f.cause.kind = .blockCannotReturn)
    ∧ (∀ c, x.Holds (.block c) →
      x.history.home c.serial = some (x.history.number c.home))
    ∧ (∀ c ∈ x.state.calls.calls, ∃ fr, x.state.memory.frames.get? c.frame = some fr
      ∧ x.history.homeOf (x.history.number c.frame) = some (x.history.number fr.home))
    ∧ ∀ (c : Closure Value) (args : List Value), x.Holds (.block c) → (∀ v ∈ args, x.Holds v) →
      args.length = c.code.block.nargs → x.state.calls.depth < machine.maxDepth →
      Primitive.blockToEnter machine.image (.block c) args = .ok (.block c args)
      ∧ ∃ (id : FrameId) (m : Memory) (outer : Frame Value),
        machine.enter x.state (.block c args)
            = .running ⟨m, x.state.calls.push { frame := id, code := c.code }⟩
          ∧ m.frames.get? id = some (Frame.ofClosure .nil c args x.state.calls.current?)
          ∧ id ≠ c.enclosing ∧ x.state.memory.frames.get? c.enclosing = some outer
          ∧ m.frames.get? c.enclosing = some outer
          ∧ x.state.memory.Shares m c.enclosing id := by
  obtain ⟨coherent, numbered, homed⟩ := numbered_of_reached loaded reached
  refine ⟨fun c fr v returning => ?_, fun f on x' hm off y later c fr v returning home => ?_,
    fun c held => ?_, fun c hc => ?_,
    fun c args held given arity room => ⟨?_, coherent.enter_block held given room⟩⟩
  · obtain ⟨R, hx⟩ := coherent
    obtain ⟨ends, fails⟩ := Machine.step_of_ret hx returning
    refine ⟨⟨fun on f s => ?_, fun succeeds => ?_⟩, ends, fails⟩
    · obtain ⟨past, outer, m, -, stepped⟩ := ends on
      rw [stepped]
      exact State.resume_ne_failed
    · by_contra off
      obtain ⟨f, s, stepped, -⟩ := fails off
      exact succeeds f s stepped
  · obtain ⟨⟨R, hy⟩, left⟩ := (numbered.left (hm.renumbers coherent) on off).moves
      (coherent.move hm) later
    obtain ⟨-, -, homed⟩ := numbered_of_reached loaded ((reached.tail hm).trans later)
    have running : c.frame ∈ y.state.calls.frames :=
      List.mem_map.2 ⟨c, List.mem_of_mem_head? returning.innermost, rfl⟩
    have number : y.history.number fr.home = x.history.number f :=
      Option.some.inj ((homed c.frame running fr returning.frame).symm.trans home)
    exact (Machine.step_of_ret hy returning).2 fun on => left.2 _ on number
  · obtain ⟨R, hx⟩ := coherent
    exact (Value.each_block.1 (held.sound hx)).1.also.home
  · obtain ⟨R, hx⟩ := coherent
    obtain ⟨fr, here, -⟩ := hx.arena.call_frame hc
    exact ⟨fr, here, homed c.frame (List.mem_map.2 ⟨c, hc, rfl⟩) fr here⟩
  · simp only [Primitive.blockToEnter, Primitive.expectBlock, bind, Except.bind]
    exact if_pos arity

/-- A method that answers a block, which returns from the method. -/
def lateReturner : Code :=
  { block :=
      { name := "make"
        qualified := "make"
        bytecode := Instruction.encodeAll #[.block 0]
        blocks := #[{ name := "make-block0"
                      qualified := "make-block0"
                      bytecode := Instruction.encodeAll #[.pushNil, .ret] }] }
    id := { method := 0 } }

/-- The method of `lateReturner` ends, and the host holds its block. -/
theorem lateReturner_ends :
    ∃ (log : Log) (image : Image) (store : Store) (x x' : Session) (closure : Closure Value),
      Image.load bareClasses = (log, .ok (image, store))
      ∧ Relation.ReflTransGen (Move { image }) (start store {}) x
      ∧ closure.home ∈ x.state.calls.frames ∧ Move { image } x x' ∧ x'.state.calls = .of []
      ∧ x'.history = x.history ∧ .block closure ∈ x'.host ∧ closure.enclosing = closure.home
      ∧ closure.code.block = lateReturner.block.blocks[0] := by
  obtain ⟨log, image, store, loaded⟩ := bareClasses_load
  have coded : lateReturner.block.primitive = none := rfl
  obtain ⟨x₁, id, reached, calls₁, here₁⟩ := reaches_call loaded coded rfl
  obtain ⟨⟨m₁, calls⟩, host, h⟩ := x₁
  let c : Call := { frame := id, code := lateReturner }
  obtain rfl : calls = .of [c] := by rw [calls.eq_of, calls₁]
  -- the method makes the block
  have first : Instruction.decodeAt c.code.block.bytecode c.ip = .ok (some (.block 0, 3)) :=
    show Instruction.decodeAt lateReturner.block.bytecode 0 = _ by decide
  obtain ⟨m₂, noted, stepped₁⟩ := Machine.step_eq { image } m₁ [] first
  have here₂ := Memory.frame_of_get? (noted.frames.symm ▸ here₁)
  obtain ⟨closure, made, home, enclosing, code⟩ : ∃ closure, m₂.closure id 0 = .ok closure
      ∧ closure.home = id ∧ closure.enclosing = id
      ∧ closure.code.block = lateReturner.block.blocks[0] :=
    ⟨_, Checked.bind_eq_ok.2 ⟨_, here₂, Checked.bind_eq_ok.2 ⟨_, here₂, rfl⟩⟩, rfl, rfl, rfl⟩
  have effect : (c.moved 3).execute image m₂ (.block 0) = .next [.block closure]
      { m₂ with frames := m₂.frames.pin id, serial := m₂.serial + 1 } := by
    have : m₂.closure (c.moved 3).frame (0 : UInt16).toNat = .ok closure := made
    simp only [Call.execute, Call.makeClosure, this]
    rfl
  obtain ⟨m₃, -, logged⟩ := Machine.logCalls_running { image }
    { m₂ with frames := m₂.frames.pin id, serial := m₂.serial + 1 }
    (.of [{ c.moved 3 with stack := [.block closure] }])
  rw [effect, Machine.carryOut, logged] at stepped₁
  have makes : Move { image } ⟨⟨m₁, .of [c]⟩, host, h⟩ _ := .step stepped₁
  -- and is over
  have last : Instruction.decodeAt c.code.block.bytecode 3 = .ok none :=
    show Instruction.decodeAt lateReturner.block.bytecode 3 = _ by decide
  obtain ⟨m₄, stepped₂⟩ : ∃ m₄, Machine.step { image }
      ⟨m₃, .of [{ c.moved 3 with stack := [.block closure] }]⟩
        = .finished (.block closure) ⟨m₄, .of []⟩ := by
    simp only [Machine.step, CallStack.of, Call.moved, last, Machine.lastValue]
    exact ⟨_, rfl⟩
  exact ⟨log, image, store, _, _, closure, loaded, reached.tail makes,
    home ▸ List.mem_cons_self, .finish stepped₂, rfl, rfl, List.mem_cons_self,
    enclosing.trans home.symm, code⟩

/-- The block of `lateReturner` is called when its method is over, and is about to return. -/
theorem lateReturner_returns :
    ∃ (log : Log) (machine : Machine) (store : Store) (x x' y : Session) (f : FrameId) (c : Call)
      (fr : Frame Value) (v : Value),
      Image.load bareClasses = (log, .ok (machine.image, store))
      ∧ Relation.ReflTransGen (Move machine) (start store {}) x ∧ f ∈ x.state.calls.frames
      ∧ Move machine x x' ∧ f ∉ x'.state.calls.frames
      ∧ Relation.ReflTransGen (Move machine) x' y ∧ y.state.Returning c fr v
      ∧ y.history.homeOf (y.history.number c.frame) = some (x.history.number f) := by
  obtain ⟨log, image, store, x, x', closure, loaded, reached, on, ends, empty, history, held,
    enclosing, code⟩ := lateReturner_ends
  have coherent : x'.Coherent { image } := (linked_of_reached loaded (reached.tail ends)).1
  obtain ⟨⟨m, calls⟩, host, h⟩ := x'
  obtain rfl : calls = .of [] := empty
  -- the block is called
  obtain ⟨id, m₁, -, entered, here, other, -⟩ := coherent.enter_block (.host held)
    (List.forall_mem_nil _) (show 0 < 10000 by decide)
  have asks : Asks image m host (.enter (.block closure []) m) := by
    have asked : Primitive.blockValue.apply image m (.block closure) []
        = .enter (.block closure []) m := by
      simp only [Primitive.apply, Primitive.blockToEnter, Primitive.expectBlock, bind, Except.bind,
        Primitive.matching, code]
      rfl
    exact asked ▸ .primitive .blockValue held (List.forall_mem_nil _)
  let h₁ : History := h.calling ⟨m, .of []⟩
    ⟨m₁, CallStack.push (.of []) { frame := id, code := closure.code }⟩
  have enters : Move { image } ⟨⟨m, .of []⟩, host, h⟩
      ⟨⟨m₁, CallStack.push (.of []) { frame := id, code := closure.code }⟩, host, h₁⟩ :=
    .enter asks entered
  -- and pushes what it returns
  let c : Call := { frame := id, code := closure.code }
  have first : Instruction.decodeAt c.code.block.bytecode c.ip = .ok (some (.pushNil, 1)) := by
    show Instruction.decodeAt closure.code.block.bytecode 0 = _
    rw [code]
    decide
  have second : Instruction.decodeAt c.code.block.bytecode 1 = .ok (some (.ret, 2)) := by
    show Instruction.decodeAt closure.code.block.bytecode 1 = _
    rw [code]
    decide
  obtain ⟨m₂, noted, stepped⟩ := Machine.step_eq { image } m₁ [] first
  obtain ⟨m₃, logs, logged⟩ := Machine.logCalls_running { image } m₂
    (.of [{ c.moved 1 with stack := [.nil] }])
  have effect : (c.moved 1).execute image m₂ .pushNil = .next [.nil] m₂ := rfl
  rw [effect, Machine.carryOut, logged] at stepped
  have pushes : Move { image } ⟨⟨m₁, .of [c]⟩, host, h₁⟩ _ := .step stepped
  refine ⟨log, { image }, store, x, _, _, closure.home, _, Frame.ofClosure .nil closure [] none,
    .nil, loaded, reached, on, ends, List.not_mem_nil,
    (Relation.ReflTransGen.single enters).tail pushes, ⟨rfl, ⟨2, second⟩, rfl, ?_⟩, ?_⟩
  · rw [(noted.trans logs).frames]
    exact here
  · -- the frame of the block has the next number, and that of its home is written down with it
    have called : h₁ = _ := @History.calling_of_frames _ _ _ id rfl
    have pushed : (h₁.making ⟨m₁, .of [c]⟩).calling ⟨m₁, .of [c]⟩
        ⟨m₃, .of [{ c.moved 1 with stack := [.nil] }]⟩ = h₁.making ⟨m₁, .of [c]⟩ :=
      History.calling_of_le (Nat.le_refl 1)
    have same : h.number closure.home = x.history.number closure.home :=
      congrFun (congrArg History.number history) _
    have last : h.numbering id (c.moved 1).frame = h.made := History.numbering_self h id
    rw [pushed, number_making, made_making.2, called]
    simp only [last, if_true, here, Option.map_some, Frame.ofClosure]
    exact congrArg some
      ((History.numbering_of_ne fun same => other (enclosing ▸ same.symm)).trans same)

/-- The return of the block of `lateReturner` fails. -/
theorem no_return_to_the_dead_late :
    ∃ (machine : Machine) (store : Store) (y : Session) (c : Call) (fr : Frame Value) (v : Value),
      Relation.ReflTransGen (Move machine) (start store {}) y ∧ y.state.Returning c fr v
      ∧ ∃ f s, machine.step y.state = .failed f s ∧ f.cause.kind = .blockCannotReturn := by
  obtain ⟨log, machine, store, x, x', y, f, c, fr, v, loaded, reached, on, ends, off, later,
    returning, home⟩ := lateReturner_returns
  exact ⟨machine, store, y, c, fr, v, (reached.tail ends).trans later, returning,
    (no_return_to_the_dead loaded reached).2.1 f on x' ends off y later c fr v returning home⟩

end Session

end Colloquy
