import Colloquy.Proofs.Renaming.Execution
import Colloquy.Proofs.Twin.Steps

/-!
# Renamed runs

Of two machines with the same image, one has the state of the other, renamed.  When both enter a
call, each takes a frame of its own, and the renaming comes to name the one by the other
(`Renaming.naming`).  That changes no name in use: in a coherent memory nothing that is held or
running mentions a handle that is still free.

Main statement: runs from such states end in the same failure, its trace included, or with a value
and its renamed copy (`Machine.run_copies`), if no identity hash of an object is taken.
-/

namespace Colloquy

/-! ## New names -/

/-- A frame gets a name. -/
def Renaming.naming (ρ : Renaming) (id id' : FrameId) : Renaming :=
  { ρ with frame := Function.update ρ.frame id id' }

variable {ρ : Renaming} {a a' b b' : Arena Value} {image : Image} {m m' : Memory}
  {Q Q' : Closure Value → Prop} {R R' : Ref → Prop} {calls rest : List Call} {c : Call}
  {host : List Value} {v : Value} {id id' f : FrameId} {fr : Frame Value} {callee : Callee}

theorem Renaming.naming_self : (ρ.naming id id').frame id = id' := Function.update_self ..

theorem Renaming.naming_of_ne (h : f ≠ id) : (ρ.naming id id').frame f = ρ.frame f :=
  Function.update_of_ne h ..

/-- A value that is sound mentions no handle that is free. -/
theorem Renaming.naming_value (unkept : ¬ a.Keeps id) :
    ∀ {v : Value}, a.Sound Q R v → (ρ.naming id id').value v = ρ.value v
  | .nil, _ | .bool _, _ | .int _, _ | .float _, _ | .char _, _ | .cls _, _ => rfl
  | .string _ _, _ | .array _, _ | .object _ _, _ => rfl
  | .block ⟨serial, code, enclosing, home, receiver⟩, h => by
    obtain ⟨secured, sound⟩ := h
    have around : enclosing ≠ id := fun same => unkept (same ▸ secured.keeps)
    have method : home ≠ id := fun same => unkept (same ▸ secured.anchored.keeps_home secured.keeps)
    simp only [value, naming_of_ne around, naming_of_ne method, naming_value unkept sound]
    rfl

theorem Renaming.naming_values (unkept : ¬ a.Keeps id) {vs : List Value}
    (h : ∀ v ∈ vs, a.Sound Q R v) : vs.map (ρ.naming id id').value = vs.map ρ.value :=
  List.map_congr_left fun v hv => naming_value unkept (h v hv)

/-- No frame that is there has a handle that is free. -/
theorem Arena.Coherent.ne_of_fresh (h : a.Coherent Q R calls) (fresh : ¬ a.Keeps id ∧ ¬ a.Active id)
    (here : a.get? f = some fr) : f ≠ id := by
  rintro rfl
  rcases h.matters f fr here with running | kept
  · obtain ⟨c, hc, rfl⟩ := List.mem_map.1 running
    exact fresh.2 (h.running c hc).active
  · exact fresh.1 kept

namespace Arena.Copies

/-- Frames that matter are there in an arena that retains the second one. -/
theorem retained (h : a.Copies ρ a') (coherent : a.Coherent Q R calls)
    (coherent' : a'.Coherent Q' R' (calls.map ρ.call)) (here : a.get? f = some fr) :
    a'.Active (ρ.frame f) ∨ a'.Keeps (ρ.frame f) := by
  rcases coherent.matters f fr here with running | kept
  · obtain ⟨c, hc, rfl⟩ := List.mem_map.1 running
    exact .inl (coherent'.running _ (List.mem_map_of_mem hc)).active
  · exact .inr (h.keeps f kept)

/-- **Both arenas get a frame.** -/
theorem push (h : a.Copies ρ a') (coherent : a.Coherent Q R calls)
    (coherent' : a'.Coherent Q' R' (calls.map ρ.call)) {new new' : Frame Value}
    (made : a.Created b id new) (made' : a'.Created b' id' new')
    (copies : new.Copies (ρ.naming id id') new') : b.Copies (ρ.naming id id') b' := by
  have old {f : FrameId} {fr : Frame Value} (here : a.get? f = some fr) :
      f ≠ id ∧ ρ.frame f ≠ id' ∧ ∃ fr', b'.get? (ρ.frame f) = some fr'
        ∧ fr.Copies (ρ.naming id id') fr' := by
    obtain ⟨fr', here', same⟩ := h.frames f fr here
    obtain ⟨sound, anchored⟩ := coherent.frames f fr here
    refine ⟨coherent.ne_of_fresh made.fresh here, coherent'.ne_of_fresh made'.fresh here', fr', ?_,
      ?_⟩
    · rcases h.retained coherent coherent' here with active | kept
      · rw [(made'.retains.active active).2, here']
      · rw [(made'.retains.keeps kept).2, here']
    · have locals : fr.locals.map (ρ.naming id id').value = fr.locals.map ρ.value :=
        Array.map_congr_left fun v hv => Renaming.naming_value made.fresh.1 (sound.locals v hv)
      have receiver : (ρ.naming id id').value fr.receiver = ρ.value fr.receiver :=
        Renaming.naming_value made.fresh.1 sound.receiver
      have enclosing : fr.enclosing.map (ρ.naming id id').frame = fr.enclosing.map ρ.frame := by
        cases inside : fr.enclosing with
        | none => rfl
        | some e =>
          obtain ⟨outer, hout⟩ := coherent.get?_enclosing here inside
          exact congrArg some (Renaming.naming_of_ne (coherent.ne_of_fresh made.fresh hout))
      obtain ⟨home, hhome⟩ := coherent.get?_home here
      refine ⟨same.code, same.locals.trans locals.symm, same.receiver.trans receiver.symm,
        same.enclosing.trans enclosing.symm, ?_, same.returned, same.place⟩
      rw [Renaming.naming_of_ne (coherent.ne_of_fresh made.fresh hhome), same.home]
  refine ⟨fun f fr hf => ?_, fun f g fr gr hf hg same => ?_, fun f hf => ?_⟩
  · by_cases new : f = id
    · subst new
      rw [made.get?] at hf
      cases hf
      rw [Renaming.naming_self]
      exact ⟨new', made'.get?, copies⟩
    · have here := (made.before hf).resolve_left new
      rw [Renaming.naming_of_ne new]
      exact (old here).2.2
  · by_cases newF : f = id <;> by_cases newG : g = id
    · rw [newF, newG]
    · rw [newF, Renaming.naming_self, Renaming.naming_of_ne newG] at same
      exact absurd same.symm (old ((made.before hg).resolve_left newG)).2.1
    · rw [newG, Renaming.naming_self, Renaming.naming_of_ne newF] at same
      exact absurd same (old ((made.before hf).resolve_left newF)).2.1
    · rw [Renaming.naming_of_ne newF, Renaming.naming_of_ne newG] at same
      exact h.distinct f g fr gr ((made.before hf).resolve_left newF)
        ((made.before hg).resolve_left newG) same
  · have kept := made.keeps_of_keeps hf
    obtain ⟨fr, here⟩ := kept.exists_frame
    rw [Renaming.naming_of_ne (old here).1]
    exact (made'.retains.keeps (h.keeps f kept)).1

/-- **Both arenas give up the frame of the innermost call.** -/
theorem pop (h : a.Copies ρ a') (coherent : a.Coherent Q R (c :: rest))
    (coherent' : a'.Coherent Q' R' ((c :: rest).map ρ.call)) {u u' : Frame Value → Frame Value}
    (hu : ∀ fr fr', fr.Copies ρ fr' → (u fr).Copies ρ (u' fr'))
    (after : ((a.modify c.frame u).release c.frame).Coherent Q R rest)
    (links : ∀ fr, (u fr).enclosing = fr.enclosing)
    (links' : ∀ fr, (u' fr).enclosing = fr.enclosing) :
    ((a.modify c.frame u).release c.frame).Copies ρ
      ((a'.modify (ρ.frame c.frame) u').release (ρ.frame c.frame)) := by
  obtain ⟨fr, here, -⟩ := coherent.call_frame List.mem_cons_self
  have changed := h.modify here hu links links'
  have freed := released_release (coherent.tidy.modify c.frame u) (coherent.balanced.modify links)
    c.frame
  have freed' := released_release (coherent'.tidy.modify (ρ.frame c.frame) u')
    (coherent'.balanced.modify links') (ρ.frame c.frame)
  refine ⟨fun f fr hf => ?_, fun f g fr gr hf hg => ?_, fun f hf => ?_⟩
  · obtain ⟨fr', here', same⟩ := changed.frames f fr (freed.before hf)
    refine ⟨fr', ?_, same⟩
    rcases after.matters f fr hf with running | kept
    · obtain ⟨d, hd, rfl⟩ := List.mem_map.1 running
      have active := (coherent'.running (ρ.call d) (List.mem_map_of_mem
        (List.mem_cons_of_mem c hd))).active
      have other : ρ.frame d.frame ≠ ρ.frame c.frame := by
        intro same
        have distinct := coherent'.distinct
        rw [List.map_cons, List.map_cons, List.nodup_cons] at distinct
        exact distinct.1 (List.mem_map.2 ⟨ρ.call d, List.mem_map_of_mem hd, same⟩)
      rw [(freed'.active other (active_modify.2 active)).2, here']
    · rw [(freed'.keeps (changed.keeps f (freed.keeps_of_keeps kept))).2, here']
  · exact changed.distinct f g fr gr (freed.before hf) (freed.before hg)
  · exact (freed'.keeps (changed.keeps f (freed.keeps_of_keeps hf))).1

end Arena.Copies

/-- The frame of a renamed callee. -/
theorem Callee.frame_copies (unkept : ¬ a.Keeps id)
    (sound : ∀ v ∈ callee.values, a.Sound Q R v) (invoking invoking' : Option FrameId) :
    (callee.frame invoking id).Copies (ρ.naming id id')
      ((ρ.callee callee).frame invoking' id') := by
  have slots {code : Code} {args : List Value} (sound : ∀ v ∈ args, a.Sound Q R v) :
      Frame.slots .nil code (args.map ρ.value)
        = (Frame.slots .nil code args).map (ρ.naming id id').value := by
    simp only [Frame.slots, List.length_map, Array.map_append, Renaming.map_value_replicate,
      List.map_toArray, Renaming.naming_values unkept sound]
  cases callee with
  | method code receiver args =>
    refine ⟨rfl, slots fun v hv => sound v (List.mem_cons_of_mem _ hv), ?_, rfl, ?_, rfl, rfl⟩
    · exact (Renaming.naming_value unkept (sound receiver List.mem_cons_self)).symm
    · exact Renaming.naming_self.symm
  | block closure args =>
    have whole : (ρ.naming id id').value (.block closure) = ρ.value (.block closure) :=
      Renaming.naming_value unkept (sound _ List.mem_cons_self)
    rw [Renaming.value_block, Renaming.value_block] at whole
    injection whole with whole
    injection whole with _ _ enclosing home receiver
    exact ⟨rfl, slots fun v hv => sound v (List.mem_cons_of_mem _ hv), receiver.symm,
      congrArg some enclosing.symm, home.symm, rfl, rfl⟩

/-! ## Memories -/

/-- Every row that there is holds sound values. -/
abbrev Memory.Whole (image : Image) (m : Memory) (calls : List Call) (host : List Value) : Prop :=
  m.Coherent image (fun _ => True) (fun r => r < m.store.rows.size) calls host

/-- The rows that anything leads to hold sound values. -/
def Memory.Tended (image : Image) (m : Memory) (calls : List Call) (host : List Value) : Prop :=
  ∃ R, m.Coherent image (fun _ => True) R calls host

namespace Memory

theorem Follows.whole {m₁ : Memory}
    (h : m₁.Follows m image (fun _ => True) (fun r => r < m.store.rows.size) calls host) :
    m₁.Whole image calls host := by
  have rows : m.store.Grown m₁.store (fun r => r < m.store.rows.size)
      = fun r => r < m₁.store.rows.size := by
    funext r
    rw [eq_iff_iff]
    refine ⟨fun grown => (h.coherent.store r grown).1, fun there => ?_⟩
    exact (Nat.lt_or_ge r m.store.rows.size).imp_right fun old => ⟨old, there⟩
  have coherent := h.coherent
  rwa [rows] at coherent

theorem Follows.tended {m₁ : Memory} (h : m₁.Follows m image (fun _ => True) R calls host) :
    m₁.Tended image calls host :=
  ⟨_, h.coherent⟩

/-- The logs may be others. -/
theorem Coherent.noted {m₁ : Memory} (h : m.Whole image calls host) (logs : m.Logs m₁) :
    m₁.Whole image calls host := by
  rw [Whole, logs.data.store]
  exact h.relog logs

/-- A name for a free handle changes nothing that rows hold. -/
theorem Copies.naming (h : m.Copies ρ m') (whole : m.Whole image calls host)
    (unkept : ¬ m.frames.Keeps id) : m.Copies (ρ.naming id id') m' := by
  refine ⟨⟨h.store.nonempty, h.store.size, fun r => ?_⟩, h.serial, h.transcript⟩
  have row : (ρ.naming id id').row r = ρ.row r := rfl
  rw [row, h.store.row]
  refine Array.map_congr_left fun v hv => ?_
  have there : r < m.store.rows.size := by
    rcases Nat.lt_or_ge r m.store.rows.size with there | beyond
    · exact there
    · rw [Store.row, Array.getD_eq_getD_getElem?, Array.getElem?_eq_none beyond] at hv
      exact absurd hv (Array.not_mem_empty v)
  exact (Renaming.naming_value unkept ((whole.store r there).2 v hv)).symm

namespace Doubles

/-- **The innermost call gives up its frame**, whether or not that is marked as returned from. -/
theorem pop {m₁ m₁' : Memory} (h : m.Doubles ρ m') (whole : m.Whole image (c :: rest) host)
    (tended : m'.Tended image ((c :: rest).map ρ.call) []) {u u' : Frame Value → Frame Value}
    (hu : u = lastWords c ∧ u' = lastWords (ρ.call c)
      ∨ u = lastWordsReturning c ∧ u' = lastWordsReturning (ρ.call c))
    (frames : m₁.frames = (m.frames.modify c.frame u).release c.frame) (data : m.SameData m₁)
    (frames' : m₁'.frames = (m'.frames.modify (ρ.frame c.frame) u').release (ρ.frame c.frame))
    (data' : m'.SameData m₁') :
    m₁.Doubles ρ m₁' ∧ m₁.Whole image rest host ∧ m₁'.Tended image (rest.map ρ.call) [] := by
  obtain ⟨R, coherent'⟩ := tended
  have left : m₁.Coherent image (fun _ => True) (fun r => r < m.store.rows.size) rest host :=
    whole.pop (hu.imp And.left And.left) frames data.store
  have left' : m₁'.Coherent image (fun _ => True) R (rest.map ρ.call) [] :=
    coherent'.pop (hu.imp And.right And.right) frames' data'.store
  have arena := left.arena
  rw [frames] at arena
  refine ⟨⟨h.data.congr data data', ?_⟩, ?_, R, left'⟩
  · rw [frames, frames']
    refine h.frames.pop whole.arena coherent'.arena (fun fr fr' same => ?_) arena ?_ ?_
    · obtain ⟨rfl, rfl⟩ | ⟨rfl, rfl⟩ := hu
      · exact ⟨same.code, same.locals, same.receiver, same.enclosing, same.home, same.returned,
          same.place⟩
      · refine ⟨same.code, same.locals, same.receiver, same.enclosing, same.home, ?_, same.place⟩
        show fr'.enclosing.isNone = fr.enclosing.isNone
        rw [same.enclosing, Option.isNone_map]
    all_goals obtain ⟨rfl, rfl⟩ | ⟨rfl, rfl⟩ := hu <;> exact fun _ => rfl
  · rw [Whole, data.store]
    exact left

theorem leave (h : m.Doubles ρ m') (whole : m.Whole image (c :: rest) host)
    (tended : m'.Tended image ((c :: rest).map ρ.call) []) :
    (m.leave c).Doubles ρ (m'.leave (ρ.call c)) :=
  (h.pop whole tended (.inl ⟨rfl, rfl⟩) (frames_leave m c) (sameData_leave m c)
    (frames_leave m' (ρ.call c)) (sameData_leave m' (ρ.call c))).1

/-- **A return through calls** gives up the frames of all of them. -/
theorem leaveReturning {past : List Call} (h : m.Doubles ρ m')
    (whole : m.Whole image (past ++ rest) host)
    (tended : m'.Tended image ((past ++ rest).map ρ.call) []) :
    (m.leaveReturning past).Doubles ρ (m'.leaveReturning (past.map ρ.call)) := by
  induction past generalizing m m' with
  | nil => exact h
  | cons c past ih =>
    obtain ⟨popped, whole, tended⟩ := h.pop whole tended (.inr ⟨rfl, rfl⟩)
      (frames_leave_markReturned m c) (sameData_leave_markReturned m c)
      (frames_leave_markReturned m' (ρ.call c)) (sameData_leave_markReturned m' (ρ.call c))
    exact ih popped whole tended

end Doubles

end Memory

/-! ## States -/

/-- The second state is the first one, renamed. -/
structure State.Copies (ρ : Renaming) (s s' : State) : Prop where
  memory : s.memory.Doubles ρ s'.memory
  calls : s'.calls.calls = s.calls.calls.map ρ.call

/-- The second step comes to what the first one comes to, renamed. -/
inductive Progress.Copies (ρ : Renaming) : Progress → Progress → Prop where
  | running {s s' : State} (h : s.Copies ρ s') : Copies ρ (.running s) (.running s')
  | finished (v : Value) {s s' : State} (h : s.Copies ρ s') :
      Copies ρ (.finished v s) (.finished (ρ.value v) s')
  | failed (f : Failure) {s s' : State} (h : s.Copies ρ s') : Copies ρ (.failed f s) (.failed f s')

/-- The second run ends as the first one does, renamed. -/
inductive Machine.Outcome.Copies (ρ : Renaming) : Outcome → Outcome → Prop where
  | value (v : Value) {s s' : State} (h : s.Copies ρ s') :
      Copies ρ (.value v s) (.value (ρ.value v) s')
  | failure (f : Failure) {s s' : State} (h : s.Copies ρ s') :
      Copies ρ (.failure f s) (.failure f s')

namespace State.Copies

variable {s s' : State}

theorem depth (h : s.Copies ρ s') : s'.calls.depth = s.calls.depth := by
  rw [s'.calls.depth_eq, s.calls.depth_eq, h.calls, List.length_map]

/-- **The same stack trace.** -/
theorem fail (h : s.Copies ρ s') (arena : s.memory.frames.Coherent Q R s.calls.calls)
    (cause : Cause) : Progress.Copies ρ (s.fail cause) (s'.fail cause) := by
  have lines : s'.calls.trace s'.memory = s.calls.trace s.memory := by
    rw [CallStack.trace, CallStack.trace, h.calls, List.map_map]
    refine congrArg String.join (List.map_congr_left fun c hc => ?_)
    obtain ⟨fr, here, -⟩ := arena.call_frame hc
    obtain ⟨fr', here', same⟩ := h.memory.frames.frames c.frame fr here
    have stack : (ρ.call c).stack.reverse = c.stack.reverse.map ρ.value := List.map_reverse.symm
    have frame' : s'.memory.frames.get? (ρ.call c).frame = some fr' := here'
    have text : (ρ.call c).text s'.memory = c.text s.memory := by
      simp only [Call.text, here, frame', stack, Option.map_some, Option.getD_some, same.locals,
        Array.toList_map, h.memory.data.store.inspectAll]
      rfl
    simp only [Function.comp_apply, Call.traceLine, text, here, frame', Option.map_some,
      Option.getD_some, same.place]
    rfl
  have same : s'.failure cause = s.failure cause := by rw [failure, failure, lines]
  rw [State.fail, State.fail, same]
  exact .failed _ h

/-- A value is handed to the innermost call, or to the host. -/
theorem resume (hm : m.Doubles ρ m') (calls : List Call) (v : Value) :
    Progress.Copies ρ (State.resume ⟨m, .of calls⟩ v)
      (State.resume ⟨m', .of (calls.map ρ.call)⟩ (ρ.value v)) := by
  cases calls with
  | nil => exact .finished v ⟨hm, rfl⟩
  | cons c rest => exact .running ⟨hm, rfl⟩

end State.Copies

namespace Machine

variable {machine : Machine} {s s' : State}

/-- **A new call**: its two frames get to name each other. -/
theorem enter_copies (hs : s.Copies ρ s') (callee : Callee)
    (whole : s.memory.Whole image s.calls.calls callee.values)
    (tended : s'.memory.Tended image s'.calls.calls (ρ.callee callee).values) :
    ∃ frame, Progress.Copies { ρ with frame } (machine.enter s callee)
      (machine.enter s' (ρ.callee callee)) := by
  obtain ⟨R, coherent'⟩ := tended
  by_cases room : s.calls.depth < machine.maxDepth
  · have room' : s'.calls.depth < machine.maxDepth := by rwa [hs.depth]
    obtain ⟨id, m, entered, data, made⟩ := enter_created whole whole.host room
    obtain ⟨id', m', entered', data', made'⟩ := enter_created coherent' coherent'.host room'
    have arena' := coherent'.arena
    rw [hs.calls] at arena'
    have older (c : Call) (hc : c ∈ s.calls.calls) : (ρ.naming id id').call c = ρ.call c := by
      obtain ⟨fr, here, -⟩ := whole.arena.call_frame hc
      rw [Renaming.call, Renaming.call,
        Renaming.naming_of_ne (whole.arena.ne_of_fresh made.fresh here),
        Renaming.naming_values made.fresh.1 (whole.arena.operands c hc)]
    refine ⟨(ρ.naming id id').frame, ?_⟩
    rw [entered, entered']
    have named : s.memory.Copies (ρ.naming id id') s'.memory :=
      hs.memory.data.naming whole made.fresh.1
    refine .running ⟨⟨named.congr data data', ?_⟩, ?_⟩
    · exact hs.memory.frames.push whole.arena arena' made made'
        (Callee.frame_copies made.fresh.1 whole.host _ _)
    · have code : (ρ.callee callee).code = callee.code := by cases callee <;> rfl
      have same : (ρ.naming id id').call { frame := id, code := callee.code }
          = { frame := id', code := (ρ.callee callee).code } := by
        rw [code, Renaming.call, Renaming.naming_self]
        rfl
      rw [CallStack.calls_push, CallStack.calls_push, List.map_cons, hs.calls]
      exact congrArg₂ List.cons same.symm (List.map_congr_left older).symm
  · have room' : ¬ s'.calls.depth < machine.maxDepth := by rwa [hs.depth]
    refine ⟨ρ.frame, ?_⟩
    unfold enter
    rw [if_neg room, if_neg room']
    exact hs.fail whole.arena _

theorem logCalls_copies {p p' : Progress} (hp : p.Copies ρ p') :
    Progress.Copies ρ (machine.logCalls p) (machine.logCalls p') := by
  cases hp with
  | @running s s' hs =>
    obtain ⟨m₁, logs, logged⟩ := machine.logCalls_running s.memory s.calls
    obtain ⟨m₁', logs', logged'⟩ := machine.logCalls_running s'.memory s'.calls
    rw [logged, logged']
    exact .running ⟨hs.memory.relog logs logs', hs.calls⟩
  | finished v hs => exact .finished v hs
  | failed f hs => exact .failed f hs

/-- **The end of the innermost call.** -/
theorem finish_copies (hm : m.Doubles ρ m') (whole : m.Whole image (c :: rest) host)
    (tended : m'.Tended image ((c :: rest).map ρ.call) []) (v : Value) :
    Progress.Copies ρ (finish ⟨m, .of (c :: rest)⟩ v)
      (finish ⟨m', .of ((c :: rest).map ρ.call)⟩ (ρ.value v)) :=
  State.Copies.resume (hm.leave whole tended) rest v

/-- A return ends the same calls. -/
theorem upTo?_copies (copies : a.Copies ρ a') (arena : a.Coherent Q R calls)
    (here : a.get? f = some fr) :
    (CallStack.of (calls.map ρ.call)).upTo? (ρ.frame f) = (CallStack.of calls).upTo? f := by
  have named : ∀ c ∈ calls, ρ.frame c.frame = ρ.frame f ↔ c.frame = f := by
    intro c hc
    obtain ⟨cr, there, -⟩ := arena.call_frame hc
    exact ⟨copies.distinct c.frame f cr fr there here, congrArg ρ.frame⟩
  have found : (calls.map ρ.call).findIdx? (·.frame = ρ.frame f)
      = calls.findIdx? (·.frame = f) := by
    clear arena
    induction calls with
    | nil => rfl
    | cons c rest ih =>
      have first : decide ((ρ.call c).frame = ρ.frame f) = decide (c.frame = f) :=
        decide_eq_decide.2 (named c List.mem_cons_self)
      rw [List.map_cons, List.findIdx?_cons, List.findIdx?_cons, first,
        ih fun d hd => named d (List.mem_cons_of_mem c hd)]
  rw [CallStack.upTo?, CallStack.upTo?, CallStack.of, CallStack.of, found]

/-- **A return** ends the same calls, or fails for the same cause. -/
theorem escape_copies (hm : m.Doubles ρ m') (whole : m.Whole image (c :: rest) host)
    (tended : m'.Tended image ((c :: rest).map ρ.call) []) (v : Value) :
    Progress.Copies ρ (machine.escape ⟨m, .of (c :: rest)⟩ c v)
      (machine.escape ⟨m', .of ((c :: rest).map ρ.call)⟩ (ρ.call c) (ρ.value v)) := by
  obtain ⟨fr, here, -⟩ := whole.arena.call_frame List.mem_cons_self
  obtain ⟨found, fr', -, found', copies⟩ := hm.frame here
  obtain ⟨home, hhome⟩ := whole.arena.get?_home here
  obtain ⟨home', hhome', same⟩ := hm.frames.frames fr.home home hhome
  have can : canReturn ⟨m', .of ((c :: rest).map ρ.call)⟩ (ρ.frame fr.home)
      = canReturn ⟨m, .of (c :: rest)⟩ fr.home := by
    simp only [canReturn, hhome, hhome', same.returned]
  have cannot : machine.cannotReturn ⟨m', .of ((c :: rest).map ρ.call)⟩ (ρ.call c)
      (ρ.frame fr.home) = machine.cannotReturn ⟨m, .of (c :: rest)⟩ c fr.home := by
    simp only [cannotReturn, hhome, hhome', Option.map_some, same.code]
    rfl
  have found' : m'.frame (ρ.call c).frame = .ok fr' := found'
  unfold escape
  dsimp only
  rw [found, found']
  dsimp only
  rw [copies.home, can, upTo?_copies hm.frames whole.arena hhome, cannot]
  split
  · exact State.Copies.fail ⟨hm, rfl⟩ whole.arena _
  · rename_i n _
    have dropped (cs : List Call) : (CallStack.of cs).drop n = .of (cs.drop n) :=
      CallStack.eq_of _
    rw [dropped, dropped, ← List.map_drop]
    have taken : (CallStack.of ((c :: rest).map ρ.call)).calls.take n
        = ((c :: rest).take n).map ρ.call := List.map_take.symm
    rw [taken]
    rw [← List.take_append_drop n (c :: rest)] at whole tended
    exact State.Copies.resume (hm.leaveReturning whole tended) _ v

/-- **What renamed effects come to.** -/
theorem carryOut_copies {e e' : Effect} (he : e.Copies ρ e')
    (whole : e.memory.Whole image ({ c with stack := e.stack } :: rest) e.values)
    (tended : e'.memory.Tended image ({ ρ.call c with stack := e'.stack } :: rest.map ρ.call)
      e'.values) :
    ∃ frame, Progress.Copies { ρ with frame } (machine.carryOut c rest e)
      (machine.carryOut (ρ.call c) (rest.map ρ.call) e') := by
  have alone :
      e'.memory.Tended image ({ ρ.call c with stack := e'.stack } :: rest.map ρ.call) [] := by
    obtain ⟨R, coherent⟩ := tended
    exact ⟨R, coherent.hold fun v hv => by cases hv⟩
  cases he with
  | next stack hm =>
    refine ⟨ρ.frame, ?_⟩
    rw [carryOut, carryOut]
    refine logCalls_copies (.running ?_)
    exact ⟨hm, rfl⟩
  | @enter stack callee m m' hm =>
    have hs : State.Copies ρ ⟨m, .of ({ c with stack } :: rest)⟩
        ⟨m', .of ({ ρ.call c with stack := stack.map ρ.value } :: rest.map ρ.call)⟩ := ⟨hm, rfl⟩
    obtain ⟨frame, entered⟩ := enter_copies hs callee whole tended
    exact ⟨frame, logCalls_copies entered⟩
  | finish stack v hm => exact ⟨ρ.frame, finish_copies hm whole alone v⟩
  | escape stack v hm => exact ⟨ρ.frame, escape_copies hm whole alone v⟩
  | fault stack cause hm =>
    refine ⟨ρ.frame, ?_⟩
    refine State.Copies.fail ?_ whole.arena cause
    exact ⟨hm, rfl⟩

/-- Code that ends without a return. -/
theorem stepPastEnd_copies (hm : m.Doubles ρ m') (whole : m.Whole machine.image (c :: rest) host)
    (tended : m'.Tended machine.image ((c :: rest).map ρ.call) [])
    (ends : Instruction.decodeAt c.code.block.bytecode c.ip = .ok none) :
    Progress.Copies ρ (machine.step ⟨m, .of (c :: rest)⟩)
      (machine.step ⟨m', .of ((c :: rest).map ρ.call)⟩) := by
  have ends' : Instruction.decodeAt (ρ.call c).code.block.bytecode (ρ.call c).ip = .ok none := ends
  obtain ⟨m₀, logs, stepped⟩ := machine.step_pastEnd m rest ends
  obtain ⟨m₀', logs', stepped'⟩ := machine.step_pastEnd m' (rest.map ρ.call) ends'
  have noted := hm.relog logs logs'
  have whole := whole.noted logs
  have tended : m₀'.Tended machine.image ((c :: rest).map ρ.call) [] :=
    tended.imp fun _ coherent => coherent.relog logs'
  have last : lastValue m₀' (ρ.call c) = (lastValue m₀ c).map ρ.value := by
    obtain ⟨fr, here, -⟩ := whole.arena.call_frame List.mem_cons_self
    obtain ⟨found, fr', -, found', copies⟩ := noted.frame here
    unfold lastValue
    cases top : c.stack with
    | nil =>
      simp only [Renaming.call, top, List.map_nil, found, found']
      exact congrArg Except.ok copies.receiver
    | cons v below =>
      simp only [Renaming.call, top, List.map_cons]
      rfl
  rw [stepped, List.map_cons, stepped', pastEnd, pastEnd, last]
  cases lastValue m₀ c with
  | ok v => exact finish_copies noted whole tended v
  | error e => exact State.Copies.fail ⟨noted, rfl⟩ whole.arena e

/-- **One step** of both machines. -/
theorem step_copies (hs : s.Copies ρ s') (whole : s.memory.Whole machine.image s.calls.calls [])
    (tended : s'.memory.Tended machine.image s'.calls.calls []) {cls : Class}
    (shared : machine.image.transcript = .object cls 0) (quiet : ¬ s'.Hashes machine) :
    ∃ frame, Progress.Copies { ρ with frame } (machine.step s) (machine.step s') := by
  obtain ⟨m, calls⟩ := s
  obtain ⟨m', calls'⟩ := s'
  obtain ⟨hm, hcs⟩ := hs
  dsimp only at hm hcs whole tended
  rw [calls'.eq_of] at quiet ⊢
  rw [calls.eq_of]
  rw [hcs] at quiet tended ⊢
  generalize calls.calls = cs at whole quiet tended
  cases cs with
  | nil => exact ⟨ρ.frame, State.Copies.fail ⟨hm, rfl⟩ whole.arena _⟩
  | cons c rest =>
    have same : Instruction.decodeAt (ρ.call c).code.block.bytecode (ρ.call c).ip
        = Instruction.decodeAt c.code.block.bytecode c.ip := rfl
    cases decoded : Instruction.decodeAt c.code.block.bytecode c.ip with
    | error e =>
      obtain ⟨m₀, logs, stepped⟩ := machine.step_unread m rest decoded
      obtain ⟨m₀', logs', stepped'⟩ :=
        machine.step_unread m' (rest.map ρ.call) (same.trans decoded)
      refine ⟨ρ.frame, ?_⟩
      rw [stepped, List.map_cons, stepped']
      exact State.Copies.fail ⟨hm.relog logs logs', rfl⟩ (whole.noted logs).arena _
    | ok ahead =>
      cases ahead with
      | none => exact ⟨ρ.frame, stepPastEnd_copies hm whole tended decoded⟩
      | some p =>
        obtain ⟨j, next⟩ := p
        obtain ⟨m₀, logs, stepped⟩ := step_eq machine m rest decoded
        obtain ⟨m₀', logs', stepped'⟩ :=
          step_eq machine m' (rest.map ρ.call) (same.trans decoded)
        have noted := hm.relog logs logs'
        -- both calls move on, and both memories stay coherent
        have whole := whole.noted logs
        have moved : m₀.Whole machine.image (c.moved next :: rest) [] :=
          whole.restack rfl rfl whole.stack_sound whole.host
        obtain ⟨R, coherent'⟩ := tended
        have coherent' := coherent'.relog logs'
        have moved' : m₀'.Coherent machine.image (fun _ => True) R
            (ρ.call (c.moved next) :: rest.map ρ.call) [] :=
          coherent'.restack rfl rfl coherent'.stack_sound coherent'.host
        have executed := Call.execute_copies noted moved.arena moved'.arena.balanced shared j
          fun hashes => quiet ⟨ρ.call c, rest.map ρ.call, j, next, rfl, decoded, hashes⟩
        have follows : Memory.Follows _ _ _ _ _ _ _ :=
          Call.execute_coherent moved j fun _ _ _ _ => trivial
        have follows' : Memory.Follows _ _ _ _ _ _ _ :=
          Call.execute_coherent moved' j fun _ _ _ _ => trivial
        rw [List.append_nil] at follows follows'
        rw [stepped, List.map_cons, stepped']
        exact carryOut_copies executed follows.whole follows'.tended

/-- **Runs from a state and its renamed copy** end in the same failure, or with a value and its
renamed copy, if no identity hash of an object is taken. -/
theorem run_copies (hs : s.Copies ρ s') (whole : s.memory.Whole machine.image s.calls.calls [])
    (tended : s'.memory.Tended machine.image s'.calls.calls []) {cls : Class}
    (shared : machine.image.transcript = .object cls 0) (quiet : machine.Quiet s') :
    ∃ frame, Outcome.Copies { ρ with frame } (machine.run s) (machine.run s') := by
  fun_induction Machine.run machine s generalizing s' ρ with
  | case1 s after step ih =>
    obtain ⟨frame, both⟩ := step_copies hs whole tended shared quiet.here
    have coherent := step_coherent whole fun _ _ => trivial
    obtain ⟨R, coherent'⟩ := tended
    have coherent' := step_coherent coherent' fun _ _ => trivial
    rw [step] at both coherent
    rw [run_eq machine s']
    generalize next : machine.step s' = p at both coherent'
    cases both with
    | running copies =>
      obtain ⟨later, ends⟩ :=
        ih copies coherent.1.whole coherent'.1.tended (quiet.next next)
      exact ⟨later, ends⟩
  | case2 s v after step =>
    obtain ⟨frame, both⟩ := step_copies hs whole tended shared quiet.here
    rw [step] at both
    rw [run_eq machine s']
    generalize machine.step s' = p at both
    cases both with
    | finished _ copies => exact ⟨frame, .value v copies⟩
  | case3 s f after step =>
    obtain ⟨frame, both⟩ := step_copies hs whole tended shared quiet.here
    rw [step] at both
    rw [run_eq machine s']
    generalize machine.step s' = p at both
    cases both with
    | failed _ copies => exact ⟨frame, .failure f copies⟩

end Machine

end Colloquy
