import Colloquy.Proofs.Sorts
import Colloquy.Proofs.Unwinding

/-!
# What a step touches

Frames are shared by closures, and arrays and objects by all the values that name them; still a step
that does not fail changes one of them at most, and the instruction says which.  Classes and code
are no part of what a step can change: a machine has them once and for all, and calls and frames
keep theirs.

Main statement: `Session.steps_touch_one_place`.
-/

namespace Colloquy

/-! ## Changes of each kind -/

namespace Call

/-- The call is about to carry out a primitive on operands. -/
structure Performs (c : Call) (i : Image) (p : Primitive) (receiver : Value) (args : List Value) :
    Prop where
  sends : ∃ instruction next code,
    Instruction.decodeAt c.code.block.bytecode c.ip = .ok (some (instruction, next))
      ∧ c.Selects i receiver code args.length instruction ∧ code.block.primitive = some p
  operands : ∃ below, c.stack = args.reverse ++ receiver :: below
  arity : args.length = p.arity

/-- How the calls can change: the innermost one has come further, perhaps with a new one on top in a
frame of its own, or calls are over and their caller has got a value. -/
inductive Turns (c : Call) (m : Memory) (rest : List Call) : List Call → Prop where
  | next (ip : Nat) (stack : List Value) :
      Turns c m rest ({ c with ip, current := some c.ip, stack } :: rest)
  | enter (new : Call) (ip : Nat) (stack : List Value) (created : m.frames.get? new.frame = none) :
      Turns c m rest (new :: { c with ip, current := some c.ip, stack } :: rest)
  | leave {past outer : List Call} (v : Value) (split : rest = past ++ outer) :
      Turns c m rest (handed v outer)

/-- How a frame can change: the current one gets a source position, the one that holds a variable
that is stored into gets its value, and one whose call is over keeps the operands that are left. -/
inductive Rewrites (c : Call) (m : Memory) (ended : Prop) (f : FrameId) (fr : Frame Value) :
    Frame Value → Prop where
  | same : Rewrites c m ended f fr fr
  | place {file : UInt16} {position : Position} {next : Nat}
      (decoded : Instruction.decodeAt c.code.block.bytecode c.ip
        = .ok (some (.debug file position, next))) (current : f = c.frame) :
      Rewrites c m ended f fr { fr with place := { file := c.code.block.literal? file, position } }
  | slot {depth slot : UInt16} {next : Nat} {v : Value} {below : List Value}
      (decoded : Instruction.decodeAt c.code.block.bytecode c.ip
        = .ok (some (.storeLocal depth slot, next))) (holder : m.context c.frame depth = .ok f)
      (there : slot.toNat < fr.locals.size) (operands : c.stack = v :: below) :
      Rewrites c m ended f fr { fr with locals := fr.locals.setIfInBounds slot.toNat v }
  | leave (gone : ended) (returned : Bool) (left : List Value) :
      Rewrites c m ended f fr { fr with returned, left }

/-- The call is about to store into a field of its receiver, whose fields are row `r`; the row
becomes the given one. -/
inductive SetsField (c : Call) (m : Memory) (r : Ref) : Array Value → Prop where
  | intro {index : UInt16} {next : Nat} {fr : Frame Value} {cls : Class} {v : Value}
      {below : List Value}
      (decoded : Instruction.decodeAt c.code.block.bytecode c.ip
        = .ok (some (.storeField index, next)))
      (here : m.frames.get? c.frame = some fr) (receiver : fr.receiver = .object cls r)
      (there : index.toNat < (m.store.row r).size) (operands : c.stack = v :: below) :
      SetsField c m r ((m.store.row r).setIfInBounds index.toNat v)

/-- The call is about to put a value into the array whose elements are row `r`; the row becomes the
given one. -/
inductive PutsElement (c : Call) (i : Image) (m : Memory) (r : Ref) : Array Value → Prop where
  | intro {index : Int32} {v : Value}
      (performs : c.Performs i .arrayAtPut (.array r) [.int index, v]) (least : 1 ≤ index.toInt)
      (most : index.toInt ≤ (m.store.row r).size) :
      PutsElement c i m r ((m.store.row r).setIfInBounds (index.toInt.toNat - 1) v)

/-- The call is about to write a line to the transcript, which becomes the given one. -/
inductive Shows (c : Call) (i : Image) (m : Memory) : Transcript → Prop where
  | intro {receiver v : Value} {t : Transcript}
      (performs : c.Performs i .transcriptShow receiver [v])
      (written : m.transcript.write? (v.render m.store) = some t) : Shows c i m t

end Call

/-- What a step of the innermost call `c` touches. -/
structure Session.Footprint (machine : Machine) (x : Session) (c : Call) (rest : List Call)
    (s' : State) : Prop where
  calls : c.Turns x.state.memory rest s'.calls.calls
  frames : ∀ f fr fr', x.state.memory.frames.get? f = some fr → s'.memory.frames.get? f = some fr' →
    c.Rewrites x.state.memory (f ∈ x.state.calls.frames ∧ f ∉ s'.calls.frames) f fr fr'
  objects : ∀ cls r, x.Holds (.object cls r) ∨ machine.image.transcript = .object cls r →
    s'.memory.store.row r = x.state.memory.store.row r
      ∨ c.SetsField x.state.memory r (s'.memory.store.row r)
  arrays : ∀ r, x.Holds (.array r) →
    s'.memory.store.row r = x.state.memory.store.row r
      ∨ c.PutsElement machine.image x.state.memory r (s'.memory.store.row r)
  transcript : s'.memory.transcript = x.state.memory.transcript
    ∨ c.Shows machine.image x.state.memory s'.memory.transcript

variable {machine : Machine} {m m₀ : Memory} {c : Call} {rest : List Call} {i : Image} {s' : State}
  {f : FrameId} {fr fr' : Frame Value} {ended : Prop} {r : Ref}

/-! ## Frames -/

/-- Where a variable is does not depend on what is logged. -/
theorem Memory.Logs.context_eq (h : m.Logs m₀) (depth : UInt16) :
    m₀.context f depth = m.context f depth :=
  outward_congr (fun g => by rw [h.frames]) depth depth.toNat f

/-- A new frame leaves all others alone. -/
theorem Arena.Attended.get?_of_alloc {a : Arena Value} {fs : List FrameId} (h : a.Attended fs)
    (make : FrameId → Frame Value) :
    a.get? (a.alloc make).2 = none
      ∧ ∀ f ≠ (a.alloc make).2, (a.alloc make).1.get? f = a.get? f := by
  obtain ⟨id, base, eq, lodged⟩ := exists_lodged h.tidy make
  rw [collect_nil h.settled] at lodged
  rw [eq]
  refine ⟨by rw [get?_eq, lodged.fresh]; rfl, fun f other => ?_⟩
  rw [get?_pinAll, lodged.get?, if_neg other]

theorem Reply.Spares.frames {reply : Reply} (h : reply.Spares m) :
    reply.memory.frames = m.frames := by
  cases reply with
  | answer v m' => exact h
  | enter callee m' => exact congrArg Memory.frames h.1
  | fault cause m' => exact congrArg Memory.frames h

/-- The frame is the same, or its call has ended. -/
def Frame.Left (ended : Prop) (fr fr' : Frame Value) : Prop :=
  fr' = fr ∨ ended ∧ ∃ returned left, fr' = { fr with returned, left }

theorem Frame.Left.imp {ended' : Prop} (h : fr.Left ended fr') (imp : ended → ended') :
    fr.Left ended' fr' :=
  Or.imp_right (And.imp_left imp) h

namespace Memory

/-- A frame that is there after a call has ended was there before. -/
theorem left_of_pop {m' : Memory} {d : Call} {g : Frame Value → Frame Value}
    (hg : g = lastWords d ∨ g = lastWordsReturning d)
    (frames : m'.frames = (m.frames.modify d.frame g).release d.frame)
    (here : m'.frames.get? f = some fr') :
    ∃ fr, m.frames.get? f = some fr ∧ fr.Left (f = d.frame) fr' := by
  rw [frames] at here
  have before := Arena.get?_of_release here
  rw [Arena.get?_modify] at before
  split at before
  · rename_i same
    subst same
    obtain ⟨fr, there, rfl⟩ := Option.map_eq_some_iff.1 before
    refine ⟨fr, there, .inr ⟨rfl, ?_⟩⟩
    rcases hg with rfl | rfl
    · exact ⟨fr.returned, d.stack, rfl⟩
    · exact ⟨fr.isMethod, d.stack, rfl⟩
  · exact ⟨fr', before, .inl rfl⟩

theorem left_of_leaveReturning {past : List Call}
    (here : (m.leaveReturning past).frames.get? f = some fr') :
    ∃ fr, m.frames.get? f = some fr ∧ fr.Left (f ∈ past.map (·.frame)) fr' := by
  induction past generalizing m with
  | nil => exact ⟨fr', here, .inl rfl⟩
  | cons d past ih =>
    obtain ⟨fr₁, here₁, later⟩ := ih here
    obtain ⟨fr, there, first⟩ := left_of_pop (.inr rfl) (m.frames_leave_markReturned d) here₁
    refine ⟨fr, there, ?_⟩
    rcases first with rfl | ⟨same, returned, left, rfl⟩
    · rcases later with rfl | ⟨on, words⟩
      · exact .inl rfl
      · exact .inr ⟨List.mem_cons_of_mem _ on, words⟩
    · rcases later with rfl | ⟨-, words⟩
      · exact .inr ⟨same ▸ List.mem_cons_self, returned, left, rfl⟩
      · exact .inr ⟨same ▸ List.mem_cons_self, words⟩

end Memory

namespace Call

theorem SetsField.receiver {row : Array Value} (h : c.SetsField m r row) :
    ∃ fr cls, m.frames.get? c.frame = some fr ∧ fr.receiver = .object cls r := by
  cases h with
  | @intro _ _ fr cls _ _ _ here receiver => exact ⟨fr, cls, here, receiver⟩

theorem PutsElement.array_mem {row : Array Value} (h : c.PutsElement i m r row) :
    .array r ∈ c.stack := by
  cases h with
  | intro performs =>
    obtain ⟨below, operands⟩ := performs.operands
    rw [operands]
    exact List.mem_append_right _ List.mem_cons_self

theorem Selects.of_moved {next : Nat} {receiver : Value} {code : Code} {argc : Nat}
    {instruction : Instruction} (h : (c.moved next).Selects i receiver code argc instruction) :
    c.Selects i receiver code argc instruction := by
  cases h with
  | send arity named found => exact .send arity named found
  | sendSuper arity named found => exact .sendSuper arity named found

/-- What a send changes is what the primitive that it performs changes. -/
theorem performs_of_invoke {next : Nat} {instruction : Instruction} {receiver : Value}
    {args below : List Value} {code : Code} {m₁ : Memory}
    (decoded : Instruction.decodeAt c.code.block.bytecode c.ip = .ok (some (instruction, next)))
    (selects : c.Selects i receiver code args.length instruction)
    (operands : c.stack = args.reverse ++ receiver :: below) (same : m.SameData m₁) :
    m.Grows (invoke i m₁ receiver code args).memory
      ∨ ∃ p, c.Performs i p receiver args
        ∧ p.Changes m receiver args (invoke i m₁ receiver code args).memory := by
  rcases invoke_changes i m₁ receiver code args with grows | ⟨p, primitive, arity, changes⟩
  · exact .inl (grows.after same)
  · refine .inr ⟨p, ⟨⟨instruction, next, code, decoded, selects, primitive⟩, ?_, arity⟩, ?_⟩
    · exact ⟨below, operands⟩
    · exact changes.after same

section Instructions

variable {next : Nat} {instruction : Instruction} {effect : Effect}
  (decoded : Instruction.decodeAt c.code.block.bytecode c.ip = .ok (some (instruction, next)))
  (before : m.Logs m₀) (does : (c.moved next).Does i m₀ instruction effect)
include decoded before does

/-- What an instruction does to frames. -/
theorem Does.rewrites (here : m.frames.get? f = some fr)
    (here' : effect.memory.frames.get? f = some fr') : c.Rewrites m ended f fr fr' := by
  rw [← before.frames] at here
  have unchanged (same : effect.memory.frames.get? f = m₀.frames.get? f) :
      c.Rewrites m ended f fr fr' := by
    rw [same, here] at here'
    cases here'
    exact .same
  cases does with
  | push | array | pop | storeField | finish | escape | fault => exact unchanged rfl
  | @storeLocal depth slot v below holder operands found =>
    by_cases same : f = holder
    · subst same
      obtain ⟨holder, fr₀, there, room⟩ := Memory.localFrame_eq_ok.1 found
      cases here.symm.trans there
      simp only [Effect.memory, Memory.setLocal, Arena.get?_modify, if_true, here] at here'
      cases here'
      rw [before.context_eq] at holder
      exact .slot decoded holder room operands
    · exact unchanged (by
        simp only [Effect.memory, Memory.setLocal, Arena.get?_modify, if_neg same])
  | block made => exact unchanged Arena.get?_pin
  | debug file position =>
    by_cases same : f = c.frame
    · subst same
      simp only [Effect.memory, Memory.setPlace, Arena.get?_modify, moved, if_true, here] at here'
      cases here'
      exact .place decoded rfl
    · exact unchanged (by
        simp only [Effect.memory, Memory.setPlace, Arena.get?_modify, moved, if_neg same])
  | @send _ receiver args below code m₁ _ selects operands logged replies =>
    refine unchanged ?_
    rw [← replies, Reply.memory_effect, (invoke_spares i m₁ receiver code args).frames,
      logged.frames]

/-- What an instruction does to a row that is there. -/
theorem Does.edits (there : r < m.store.rows.size) :
    effect.memory.store.row r = m.store.row r ∨ c.SetsField m r (effect.memory.store.row r)
      ∨ c.PutsElement i m r (effect.memory.store.row r) := by
  have unchanged : m₀.store.row r = m.store.row r := by rw [before.data.store]
  cases does with
  | push | pop | storeLocal | block | debug | finish | escape | fault => exact .inl unchanged
  | array operands =>
    rw [← before.data.store] at there
    exact .inl ((Store.row_add_of_ne (Nat.ne_of_lt there)).trans unchanged)
  | @storeField index v below row operands found =>
    by_cases same : row = r
    · subst same
      obtain ⟨fr, cls, here, receiver, room⟩ := Memory.fieldRow_eq_ok found
      rw [before.frames] at here
      rw [before.data.store] at room
      simp only [Effect.memory, Store.row_set_self, before.data.store]
      exact .inr (.inl (.intro decoded here receiver room operands))
    · exact .inl ((Store.row_set_of_ne same _ _).trans unchanged)
  | @send _ receiver args below code m₁ _ selects operands logged replies =>
    rw [← replies, Reply.memory_effect]
    rcases performs_of_invoke decoded selects.of_moved operands (before.data.trans logged.data) with
      grows | ⟨p, performs, changes⟩
    · exact .inl (grows.row_eq there)
    · cases changes with
      | grows grows => exact .inl (grows.row_eq there)
      | write _ _ store => exact .inl (by rw [store])
      | @put r' index v others puts array given least most store =>
        subst puts array given
        obtain rfl : others = [] := by simpa [Primitive.arity] using performs.arity
        rw [store]
        by_cases same : r' = r
        · subst same
          rw [Store.row_set_self]
          exact .inr (.inr (.intro performs least most))
        · exact .inl (Store.row_set_of_ne same _ _)

/-- What an instruction does to the transcript. -/
theorem Does.shows : effect.memory.transcript = m.transcript
    ∨ c.Shows i m effect.memory.transcript := by
  cases does with
  | push | array | pop | storeField | storeLocal | block | debug | finish | escape | fault =>
    exact .inl before.data.transcript
  | @send _ receiver args below code m₁ _ selects operands logged replies =>
    rw [← replies, Reply.memory_effect]
    rcases performs_of_invoke decoded selects.of_moved operands (before.data.trans logged.data) with
      grows | ⟨p, performs, changes⟩
    · exact .inl grows.transcript_eq
    · cases changes with
      | grows grows => exact .inl grows.transcript_eq
      | put _ _ _ _ _ _ transcript => exact .inl transcript
      | @write v others shows given store written =>
        subst shows given
        obtain rfl : others = [] := by simpa [Primitive.arity] using performs.arity
        exact .inr (.intro performs written)

end Instructions

/-! ## Steps -/

namespace Takes

variable (takes : c.Takes machine m rest s')
include takes

/-- Rows and transcript change with the instruction, or not at all. -/
theorem data : m.SameData s'.memory ∨ ∃ i next m₀ effect,
    Instruction.decodeAt c.code.block.bytecode c.ip = .ok (some (i, next)) ∧ m.Logs m₀
      ∧ (c.moved next).Does machine.image m₀ i effect ∧ effect.memory.SameData s'.memory := by
  cases takes with
  | @next i next stack m₀ m₁ m' decoded before effect after =>
    have does := (c.moved next).execute_does machine.image m₀ i
    exact .inr ⟨i, next, m₀, .next stack m₁, decoded, before, effect ▸ does, after.data⟩
  | @enter i next stack callee frame m₀ m₁ m' decoded before effect made data =>
    have does := (c.moved next).execute_does machine.image m₀ i
    exact .inr ⟨i, next, m₀, .enter stack callee m₁, decoded, before, effect ▸ does, data⟩
  | @leave v last past outer m₀ m' before ends same split left =>
    refine .inl (before.data.trans ?_)
    rcases left with ⟨-, rfl⟩ | ⟨-, rfl⟩
    · exact Memory.sameData_leave m₀ last
    · exact Memory.sameData_leaveReturning m₀ _

/-- What a step does to a row that is there. -/
theorem edits (there : r < m.store.rows.size) :
    s'.memory.store.row r = m.store.row r ∨ c.SetsField m r (s'.memory.store.row r)
      ∨ c.PutsElement machine.image m r (s'.memory.store.row r) := by
  rcases takes.data with same | ⟨i, next, m₀, effect, decoded, before, does, after⟩
  · exact .inl (by rw [same.store])
  · rw [after.store]
    exact does.edits decoded before there

/-- What a step does to the transcript. -/
theorem shows : s'.memory.transcript = m.transcript
    ∨ c.Shows machine.image m s'.memory.transcript := by
  rcases takes.data with same | ⟨i, next, m₀, effect, decoded, before, does, after⟩
  · exact .inl same.transcript
  · rw [after.transcript]
    exact does.shows decoded before

variable (attended : m.frames.Attended ((c :: rest).map (·.frame)))
include attended

/-- What a step does to the calls. -/
theorem turns : c.Turns m rest s'.calls.calls := by
  cases takes with
  | next => exact .next _ _
  | @enter i next stack callee frame m₀ m₁ m' decoded before effect made data =>
    have arena : m₁.frames = m.frames := (frames_of_enter effect).trans before.frames
    have fresh := (attended.get?_of_alloc (callee.frame (some c.frame))).1
    rw [← arena, made] at fresh
    exact .enter _ next stack (arena ▸ fresh)
  | @leave v _ _ _ _ _ _ _ _ split => exact .leave v split

/-- What a step does to a frame that is there before and after it. -/
theorem rewrites (here : m.frames.get? f = some fr) (here' : s'.memory.frames.get? f = some fr') :
    c.Rewrites m (f ∈ (c :: rest).map (·.frame) ∧ f ∉ s'.calls.frames) f fr fr' := by
  cases takes with
  | @next i next stack m₀ m₁ m' decoded before effect after =>
    have does := (c.moved next).execute_does machine.image m₀ i
    rw [effect] at does
    rw [after.frames] at here'
    exact does.rewrites decoded before here here'
  | @enter i next stack callee frame m₀ m₁ m' decoded before effect made data =>
    have arena : m₁.frames = m.frames := (frames_of_enter effect).trans before.frames
    obtain ⟨fresh, others⟩ := attended.get?_of_alloc (callee.frame (some c.frame))
    rw [← arena, made] at fresh others
    have other : f ≠ frame := by
      rintro rfl
      rw [arena, here] at fresh
      cases fresh
    have same := others f other
    rw [here', arena, here] at same
    cases same
    exact .same
  | @leave v last past outer m₀ m' before ends same split left =>
    have whole : (c :: rest).map (·.frame)
        = (last :: past).map (·.frame) ++ outer.map (·.frame) := by
      rw [split, List.map_cons, List.map_append, List.map_cons, same, List.cons_append]
    obtain ⟨fr₀, there, words⟩ : ∃ fr, m₀.frames.get? f = some fr
        ∧ fr.Left (f ∈ (last :: past).map (·.frame)) fr' := by
      rcases left with ⟨rfl, rfl⟩ | ⟨-, rfl⟩
      · obtain ⟨fr, there, words⟩ := Memory.left_of_pop (.inl rfl) (m₀.frames_leave last) here'
        exact ⟨fr, there, words.imp fun same => same ▸ List.mem_cons_self⟩
      · exact Memory.left_of_leaveReturning here'
    rw [before.frames, here] at there
    cases there
    rcases words with rfl | ⟨on, returned, left, rfl⟩
    · exact .same
    · refine .leave ⟨?_, fun off => ?_⟩ returned left
      · rw [whole]
        exact List.mem_append_left _ on
      · have off : f ∈ (Call.handed v outer).map (·.frame) := off
        rw [frames_handed] at off
        have distinct := attended.distinct
        rw [whole] at distinct
        exact (List.nodup_append'.1 distinct).2.2 on off

end Takes

end Call

namespace Session

variable {x : Session}

/-- **A step touches only what it should.**  Whatever has been loaded and run, a step that does not
fail is one of an innermost call.  Of the other calls it touches at most the one that gets a value;
of the frames that are there before and after it, those whose call it ends apart, it changes the
position of the current one or the variable that its instruction stores into; of the objects that
are held, the field of the receiver that its instruction stores into; of the arrays, the element
that `at:put:` names; and it writes to the transcript only to show a value. -/
theorem steps_touch_one_place {classes : List LoadClass} {log : Log} {store : Store}
    {transcript : Transcript} (loaded : Image.load classes = (log, .ok (machine.image, store)))
    (reached : Relation.ReflTransGen (Move machine) (start store transcript) x)
    (stepped : machine.step x.state = .running s' ∨ ∃ v, machine.step x.state = .finished v s') :
    ∃ c rest, x.state.calls.calls = c :: rest ∧ x.Footprint machine c rest s' := by
  obtain ⟨c, rest, innermost, takes⟩ : ∃ c rest, x.state.calls.calls = c :: rest
      ∧ c.Takes machine x.state.memory rest s' := by
    obtain ⟨c, rest, innermost, takes⟩ := machine.exists_takes (s := x.state)
      (by rcases stepped with stepped | ⟨v, stepped⟩ <;> simp [stepped])
    refine ⟨c, rest, innermost, ?_⟩
    rcases stepped with stepped | ⟨v, stepped⟩ <;> rw [stepped] at takes
    · exact takes
    · exact takes.1
  obtain ⟨kinds, ordered⟩ := sorted_of_reached loaded reached
  have there {kind : RowKind} {r : Ref} (known : kinds[r]? = some kind) :
      r < x.state.memory.store.rows.size := by
    rw [← ordered.state.memory.size]
    exact (List.getElem?_eq_some_iff.1 known).1
  have attended : x.state.memory.frames.Attended ((c :: rest).map (·.frame)) := by
    have attended := attended_of_reached reached
    rwa [State.Attended, CallStack.frames, innermost] at attended
  have frames : x.state.calls.frames = (c :: rest).map (·.frame) := by
    rw [CallStack.frames, innermost]
  refine ⟨c, rest, innermost, takes.turns attended, fun f fr fr' here here' => ?_,
    fun cls r object => ?_, fun r array => ?_, takes.shows⟩
  · rw [frames]
    exact takes.rewrites attended here here'
  · have known : kinds[r]? = some .fields := by
      rcases object with object | object
      · exact object.fits ordered
      · have shown := ordered.transcript
        rw [object] at shown
        exact shown
    rcases takes.edits (there known) with same | sets | puts
    · exact .inl same
    · exact .inr sets
    · have array : x.Holds (.array r) := .operand (innermost ▸ List.mem_cons_self) puts.array_mem
      exact absurd rfl (rows_apart loaded reached array object)
  · have known : kinds[r]? = some .elements := array.fits ordered
    rcases takes.edits (there known) with same | sets | puts
    · exact .inl same
    · obtain ⟨fr, cls, here, receiver⟩ := sets.receiver
      have object : x.Holds (.object cls r) := receiver ▸ .self here
      exact absurd rfl (rows_apart loaded reached array (.inl object))
    · exact .inr puts

/-- A send makes a new frame, and leaves the others alone. -/
theorem steps_touch_one_place_relay :
    ∃ (machine : Machine) (store : Store) (x : Session) (s' : State) (c : Call) (rest : List Call),
      Relation.ReflTransGen (Move machine) (start store {}) x
      ∧ machine.step x.state = .running s' ∧ x.state.calls.calls = c :: rest
      ∧ x.Footprint machine c rest s' := by
  obtain ⟨log, image, store, x, y, x', c, d, fr, loaded, reached, -, -, back, -⟩ := relay_runs
  obtain ⟨s', stepped⟩ : ∃ s', Machine.step { image } x.state = .running s' := by
    cases back with
    | next stepped | later stepped =>
      obtain ⟨hs⟩ := stepped
      exact ⟨_, hs⟩
  obtain ⟨c, rest, innermost, footprint⟩ :=
    @steps_touch_one_place { image } s' x _ _ _ _ loaded reached (.inl stepped)
  exact ⟨{ image }, store, x, s', c, rest, reached, stepped, innermost, footprint⟩

end Session

end Colloquy
