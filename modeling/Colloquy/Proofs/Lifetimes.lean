import Mathlib.Logic.Relation
import Colloquy.Proofs.Compile.Layout
import Colloquy.Proofs.HostCalls
import Colloquy.Proofs.Alterations

/-!
# How long frames are held

Between host calls, a frame is held exactly as long as the host's values lead to it, or a circle of
frames, arrays and objects that hold each other does.  It is held by closures: one that the frame
made, or that a frame inside it made.

Main statement: `Session.frames_held_between_calls`.  A circle that nobody can reach keeps its
frames: `circle_is_held`.
-/

namespace Colloquy

/-- The closures that a value consists of: a closure, and what its receiver consists of. -/
def Value.closures : Value → List (Closure Value)
  | .block ⟨serial, code, enclosing, home, receiver⟩ =>
    ⟨serial, code, enclosing, home, receiver⟩ :: closures receiver
  | _ => []

namespace Census

/-- The values that a frame or a row stores. -/
def stored (m : Memory) : Node → List Value
  | .frame f =>
    match m.frames.get? f with
    | some fr => fr.left ++ fr.locals.toList ++ [fr.receiver]
    | none => []
  | .row r => (m.store.row r).toList

/-- The second frame is the one around the first. -/
def Inside (m : Memory) (f e : FrameId) : Prop :=
  ∃ fr, m.frames.get? f = some fr ∧ fr.enclosing = some e

/-- The first node holds the second. -/
inductive Leads (m : Memory) : Node → Node → Prop where
  | value {n k : Node} {v : Value} (hv : v ∈ stored m n) (hk : k ∈ ofValue v) : Leads m n k
  | inside {f e : FrameId} (h : Inside m f e) : Leads m (.frame f) (.frame e)

/-- The values of a host lead to the node. -/
def FromHost (m : Memory) (host : List Value) (n : Node) : Prop :=
  ∃ v ∈ host, ∃ k ∈ ofValue v, Relation.ReflTransGen (Leads m) k n

/-- Nodes that hold each other in a circle lead to the node. -/
def FromCircle (m : Memory) (n : Node) : Prop :=
  ∃ k, Relation.TransGen (Leads m) k k ∧ Relation.ReflTransGen (Leads m) k n

/-- The closure was made by the frame, or by a frame inside it. -/
def Pinned (m : Memory) (c : Closure Value) (f : FrameId) : Prop :=
  Relation.ReflTransGen (Inside m) c.enclosing f

variable {s : State} {m : Memory} {held : List Value} {f g : FrameId} {n k : Node}

/-! ## The graph of a census -/

theorem mem_ofFrame {fr : Frame Value} : n ∈ ofFrame fr ↔
    (∃ v ∈ fr.left ++ fr.locals.toList ++ [fr.receiver], n ∈ ofValue v)
      ∨ ∃ e, fr.enclosing = some e ∧ n = .frame e := by
  simp only [ofFrame, List.mem_append, List.mem_flatMap, List.mem_map, Option.mem_toList,
    List.mem_singleton, or_and_right, exists_or, exists_eq_left]
  simp only [eq_comm]

theorem exists_of_stored {v : Value} (hv : v ∈ stored m (.frame f)) :
    ∃ fr, m.frames.get? f = some fr ∧ v ∈ fr.left ++ fr.locals.toList ++ [fr.receiver] := by
  unfold stored at hv
  cases hf : m.frames.get? f with
  | none =>
    simp only [hf] at hv
    cases hv
  | some fr =>
    simp only [hf] at hv
    exact ⟨fr, rfl, hv⟩

/-- A frame leads to what it holds. -/
theorem leads_frame_iff : Leads m (.frame f) n ↔
    ∃ fr, m.frames.get? f = some fr ∧ n ∈ ofFrame fr := by
  constructor
  · rintro (⟨hv, hk⟩ | ⟨fr, hf, he⟩)
    · obtain ⟨fr, hf, hv⟩ := exists_of_stored hv
      exact ⟨fr, hf, mem_ofFrame.2 (.inl ⟨_, hv, hk⟩)⟩
    · exact ⟨fr, hf, mem_ofFrame.2 (.inr ⟨_, he, rfl⟩)⟩
  · rintro ⟨fr, hf, hn⟩
    rcases mem_ofFrame.1 hn with ⟨v, hv, hk⟩ | ⟨e, he, rfl⟩
    · exact .value (by simpa only [stored, hf] using hv) hk
    · exact .inside ⟨fr, hf, he⟩

theorem leads_row_iff {r : Ref} : Leads m (.row r) n ↔
    ∃ v ∈ m.store.row r, n ∈ ofValue v := by
  constructor
  · rintro ⟨hv, hk⟩
    exact ⟨_, Array.mem_toList_iff.1 hv, hk⟩
  · rintro ⟨v, hv, hk⟩
    exact .value (Array.mem_toList_iff.2 hv) hk

/-- What the graph of a census says that a node holds. -/
theorem leads_of_holds {j i : Nat} (h : (graph s held).Leads j i) :
    Leads s.memory (nodeAt s.memory j) (nodeAt s.memory i) := by
  have h := h.2
  simp only [graph] at h
  by_cases slot : j < s.memory.frames.slots.size
  · rw [if_pos slot] at h
    split at h
    · rename_i fr hfr
      obtain ⟨n, hn, number⟩ := List.mem_filterMap.1 h
      rw [nodeAt_number number, nodeAt, if_pos slot]
      refine leads_frame_iff.2 ⟨fr, ?_, hn⟩
      refine Arena.get?_eq_some_iff.2 ⟨_, Arena.slotOf?_eq_some_iff.2 ⟨?_, ?_⟩, hfr⟩
      · simp [slot]
      · exact Slot.holds_iff.2 ⟨rfl, fr, hfr⟩
    · cases h
  · rw [if_neg slot] at h
    obtain ⟨n, hn, number⟩ := List.mem_filterMap.1 h
    obtain ⟨v, hv, hn⟩ := List.mem_flatMap.1 hn
    rw [nodeAt_number number, nodeAt, if_neg slot]
    exact leads_row_iff.2 ⟨v, Array.mem_toList_iff.1 hv, hn⟩

variable (held) in
/-- A node that leads to another one has a number, and the graph of a census knows of it. -/
theorem holds_of_leads (h : Leads s.memory n k) {i : Nat} (hk : number s.memory.frames k = some i) :
    ∃ j, number s.memory.frames n = some j ∧ (graph s held).Leads j i := by
  cases n with
  | frame f =>
    obtain ⟨fr, hf, mem⟩ := leads_frame_iff.1 h
    have hlt := index_lt hf
    refine ⟨f.index, number_frame hf, Nat.lt_of_lt_of_le hlt (Nat.le_add_right _ _), ?_⟩
    rw [holds_frame hf]
    exact List.mem_filterMap.2 ⟨k, mem, hk⟩
  | row r =>
    obtain ⟨v, hv, mem⟩ := leads_row_iff.1 h
    have hlt : r < s.memory.store.rows.size := by
      by_contra hge
      simp [Store.row, Array.getD_eq_getD_getElem?, hge] at hv
    refine ⟨_, rfl, Nat.add_lt_add_left hlt _, ?_⟩
    rw [holds_row]
    exact List.mem_filterMap.2 ⟨k, List.mem_flatMap.2 ⟨v, Array.mem_toList_iff.2 hv, mem⟩, hk⟩

variable (held) in
theorem path_of_leads (h : Relation.ReflTransGen (Leads s.memory) n k) {i : Nat}
    (hk : number s.memory.frames k = some i) :
    ∃ j, number s.memory.frames n = some j
      ∧ Relation.ReflTransGen (graph s held).Leads j i := by
  induction h using Relation.ReflTransGen.head_induction_on with
  | refl => exact ⟨i, hk, .refl⟩
  | head first _ ih =>
    obtain ⟨j, hj, path⟩ := ih
    obtain ⟨l, hl, holds⟩ := holds_of_leads held first hj
    exact ⟨l, hl, .head holds path⟩

/-- **A frame remains** in a census if and only if the roots lead to it, or a circle does. -/
theorem stays_iff {fr : Frame Value} (hf : s.memory.frames.get? f = some fr) : Stays s held f ↔
    (∃ n ∈ roots s held, Relation.ReflTransGen (Leads s.memory) n (.frame f))
      ∨ FromCircle s.memory (.frame f) := by
  have hlt : f.index < (graph s held).size :=
    Nat.lt_of_lt_of_le (index_lt hf) (Nat.le_add_right _ _)
  rw [Stays, (graph s held).remaining_iff hlt]
  have lift {j : Nat} (path : Relation.ReflTransGen (graph s held).Leads j f.index) :
      Relation.ReflTransGen (Leads s.memory) (nodeAt s.memory j) (.frame f) := by
    rw [← nodeAt_number (number_frame hf)]
    exact path.lift (nodeAt s.memory) fun _ _ => leads_of_holds
  refine or_congr ⟨?_, ?_⟩ ⟨?_, ?_⟩
  · rintro ⟨o, outside, path⟩
    obtain ⟨n, hn, number⟩ := List.mem_filterMap.1 outside
    exact ⟨n, hn, nodeAt_number number ▸ lift path⟩
  · rintro ⟨n, hn, path⟩
    obtain ⟨o, ho, path⟩ := path_of_leads held path (number_frame hf)
    exact ⟨o, List.mem_filterMap.2 ⟨n, hn, ho⟩, path⟩
  · rintro ⟨j, circle, path⟩
    exact ⟨_, circle.lift (nodeAt s.memory) fun _ _ => leads_of_holds, lift path⟩
  · rintro ⟨k, circle, path⟩
    obtain ⟨j, hj, path⟩ := path_of_leads held path (number_frame hf)
    obtain ⟨l, around, first⟩ := Relation.TransGen.tail'_iff.1 circle
    obtain ⟨i, hi, holds⟩ := holds_of_leads held first hj
    obtain ⟨j', hj', around⟩ := path_of_leads held around hi
    rw [hj] at hj'
    cases hj'
    exact ⟨j, .tail' around holds, path⟩

/-! ## Closures on the way -/

/-- What a value holds of frames are those that its closures were made by. -/
theorem frame_mem_ofValue : ∀ {v : Value}, .frame f ∈ ofValue v ↔
    ∃ c ∈ v.closures, c.enclosing = f
  | .block ⟨_, _, enclosing, _, receiver⟩ => by
    simp only [ofValue, Value.closures, List.mem_cons, Node.frame.injEq, exists_eq_or_imp,
      @frame_mem_ofValue receiver, eq_comm]
  | .array _ | .object _ _ => by simp [ofValue, Value.closures]
  | .nil | .bool _ | .int _ | .float _ | .char _ | .string _ _ | .cls _ => by
    simp [ofValue, Value.closures]

/-- A path to a frame goes through a closure that pins the frame, if it does not start at a frame
inside it and stay there. -/
theorem closure_of_path (path : Relation.TransGen (Leads m) k (.frame f)) :
    (∃ n v c, Relation.ReflTransGen (Leads m) k n ∧ v ∈ stored m n ∧ c ∈ v.closures ∧ Pinned m c f)
      ∨ ∃ g, k = .frame g ∧ Relation.TransGen (Inside m) g f := by
  have last {n : Node} {f : FrameId} (before : Relation.ReflTransGen (Leads m) k n)
      (h : Leads m n (.frame f)) :
      (∃ n v c, Relation.ReflTransGen (Leads m) k n ∧ v ∈ stored m n ∧ c ∈ v.closures
        ∧ Pinned m c f) ∨ ∃ e, n = .frame e ∧ Inside m e f := by
    rcases h with ⟨hv, hk⟩ | inside
    · obtain ⟨c, hc, rfl⟩ := frame_mem_ofValue.1 hk
      exact .inl ⟨n, _, c, before, hv, hc, .refl⟩
    · exact .inr ⟨_, rfl, inside⟩
  generalize hn : Node.frame f = n at path
  induction path generalizing f with
  | single h =>
    subst hn
    exact (last .refl h).imp_right fun ⟨e, he, inside⟩ => ⟨e, he, .single inside⟩
  | tail before h ih =>
    subst hn
    rcases last before.to_reflTransGen h with found | ⟨e, rfl, inside⟩
    · exact .inl found
    · rcases ih rfl with ⟨n, v, c, path, hv, hc, pinned⟩ | ⟨g, rfl, around⟩
      · exact .inl ⟨n, v, c, path, hv, hc, pinned.tail inside⟩
      · exact .inr ⟨g, rfl, around.tail inside⟩

/-- No frame is inside itself. -/
theorem not_inside_self {h : FrameId} (anchored : m.frames.Anchored f h) :
    ¬ Relation.TransGen (Inside m) f f := by
  induction anchored with
  | method here outermost own =>
    intro around
    obtain ⟨e, ⟨fr, here', inside⟩, -⟩ := Relation.TransGen.head'_iff.1 around
    cases here.symm.trans here'
    rw [outermost] at inside
    cases inside
  | block here inside home kept outer nested ih =>
    intro around
    obtain ⟨e, ⟨fr, here', inside'⟩, path⟩ := Relation.TransGen.head'_iff.1 around
    cases here.symm.trans here'
    cases inside.symm.trans inside'
    exact ih (.tail' path ⟨_, here, inside⟩)

/-- The frame is kept by a closure that the host holds, or that is stored where the host's values or
a circle lead. -/
def Kept (m : Memory) (host : List Value) (f : FrameId) : Prop :=
  ∃ v, ∃ c ∈ v.closures, Pinned m c f
    ∧ (v ∈ host ∨ ∃ n, v ∈ stored m n ∧ (FromHost m host n ∨ FromCircle m n))

theorem kept_of_fromHost {host : List Value} (h : FromHost m host (.frame f)) :
    Kept m host f := by
  obtain ⟨v, hv, k, hk, path⟩ := h
  have direct {g : FrameId} (hk : .frame g ∈ ofValue v)
      (around : Relation.ReflTransGen (Inside m) g f) : Kept m host f := by
    obtain ⟨c, hc, rfl⟩ := frame_mem_ofValue.1 hk
    exact ⟨v, c, hc, around, .inl hv⟩
  rcases Relation.reflTransGen_iff_eq_or_transGen.1 path with rfl | path
  · exact direct hk .refl
  · rcases closure_of_path path with ⟨n, w, c, before, hw, hc, pinned⟩ | ⟨g, rfl, around⟩
    · exact ⟨w, c, hc, pinned, .inr ⟨n, hw, .inl ⟨v, hv, k, hk, before⟩⟩⟩
    · exact direct hk around.to_reflTransGen

/-- A circle has a closure in it, since a frame is not inside itself. -/
theorem kept_of_fromCircle {host : List Value}
    (anchored : ∀ g fr, m.frames.get? g = some fr → ∃ h, m.frames.Anchored g h)
    (h : FromCircle m (.frame f)) : Kept m host f := by
  obtain ⟨k, circle, path⟩ := h
  rcases closure_of_path (circle.trans_left path) with
    ⟨n, w, c, before, hw, hc, pinned⟩ | ⟨g, rfl, around⟩
  · exact ⟨w, c, hc, pinned, .inr ⟨n, hw, .inr ⟨k, circle, before⟩⟩⟩
  · rcases closure_of_path circle with ⟨n, w, c, before, hw, hc, pinned⟩ | ⟨g, ⟨⟩, loop⟩
    · exact ⟨w, c, hc, pinned.trans around.to_reflTransGen, .inr ⟨n, hw, .inr ⟨_, circle, before⟩⟩⟩
    · obtain ⟨e, ⟨fr, here, -⟩, -⟩ := Relation.TransGen.head'_iff.1 loop
      obtain ⟨h, anchored⟩ := anchored g fr here
      exact absurd loop (not_inside_self anchored)

end Census

namespace Session

variable {machine : Machine} {x x' : Session}

/-- **Every move keeps the frames attended to.** -/
theorem Move.attended (hm : Move machine x x') (h : x.state.Attended) : x'.state.Attended := by
  cases hm with
  | @step s s' host _ hs =>
    have stepped := machine.step_attended h
    rw [hs] at stepped
    exact stepped
  | @finish s s' v host _ hs =>
    have stepped := machine.step_attended h
    rw [hs] at stepped
    exact stepped.1
  | @fail s s' _ host _ hs =>
    have stepped := machine.step_attended h
    rw [hs] at stepped
    exact stepped
  | abandon => exact h.abandon
  | answer asks => exact h.touch (Arena.touches_of_eq asks.spares)
  | @enter m m' calls callee s' host _ asks hs =>
    obtain ⟨rfl, -⟩ := asks.spares
    have entered := machine.enter_attended h callee
    rw [hs] at entered
    exact entered
  | plain | string | array | object | read | write | forget => exact h
  | census =>
    show Arena.Attended (Machine.census machine _ _).1.memory.frames _
    rw [Machine.census_frames]
    exact h.abandonPins _

/-- Frames are attended to in every session. -/
theorem attended_of_reached {store : Store} {transcript : Transcript}
    (reached : Relation.ReflTransGen (Move machine) (start store transcript) x) :
    x.state.Attended := by
  induction reached with
  | refl => exact Arena.attended_empty 1
  | tail _ hm ih => exact hm.attended ih

theorem widens_of_reached {store : Store} {transcript : Transcript}
    (reached : Relation.ReflTransGen (Move machine) (start store transcript) x) :
    store.Widens x.state.memory.store := by
  induction reached with
  | refl => exact .refl store
  | tail _ hm ih => exact ih.trans hm.widens

/-- What the roots of a census lead to when no call is in progress, if the transcript has no
fields. -/
theorem fromHost_of_roots {s : State} {host : List Value} {cls : Class} {f : FrameId}
    (idle : s.calls.calls = []) (bare : s.memory.store.row 0 = #[]) :
    (∃ n ∈ Census.roots s (.object cls 0 :: host),
        Relation.ReflTransGen (Census.Leads s.memory) n (.frame f))
      ↔ Census.FromHost s.memory host (.frame f) := by
  simp only [Census.roots, Census.onStack, idle, List.flatMap_nil, List.map_nil, List.append_nil,
    List.flatMap_cons, List.mem_append, List.mem_flatMap, Census.FromHost]
  constructor
  · rintro ⟨n, hn | ⟨v, hv, hn⟩, path⟩
    · obtain rfl : n = .row 0 := List.mem_singleton.1 hn
      obtain ⟨k, first, -⟩ := path.cases_head.resolve_left (by simp)
      obtain ⟨v, hv, -⟩ := Census.leads_row_iff.1 first
      rw [bare] at hv
      simp at hv
    · exact ⟨v, hv, n, hn, path⟩
  · rintro ⟨v, hv, n, hn, path⟩
    exact ⟨n, .inr ⟨v, hv, hn⟩, path⟩

/-- The census counts the frames that are there afterwards. -/
theorem count_of_reached {store : Store} {transcript : Transcript}
    (reached : Relation.ReflTransGen (Move machine) (start store transcript) x) :
    (machine.census x.state x.host).2
      = (machine.census x.state x.host).1.memory.frames.handles.length := by
  have attended :
      (machine.census x.state x.host).1.memory.frames.Attended x.state.calls.frames := by
    rw [Machine.census_frames]
    exact (attended_of_reached reached).abandonPins _
  rw [Arena.length_handles]
  exact attended.counted

section Compiled

variable {options : CompilerOptions} {p : Program} {log log' : Log} {compiled : CompiledProgram}
  {store : Store} {transcript : Transcript}

/-- What a census leaves when no call is in progress. -/
theorem remains_iff (accepted : compile options p = (log, .ok compiled))
    (loaded : Image.load (LoadClass.ofProgram compiled.classes 0).1
      = (log', .ok (machine.image, store)))
    (reached : Relation.ReflTransGen (Move machine) (start store transcript) x)
    (idle : x.state.calls.calls = []) (f : FrameId) (fr : Frame Value) :
    (machine.census x.state x.host).1.memory.frames.get? f = some fr
      ↔ x.state.memory.frames.get? f = some fr
        ∧ (Census.FromHost x.state.memory x.host (.frame f)
          ∨ Census.FromCircle x.state.memory (.frame f)) := by
  obtain ⟨⟨R, coherent⟩, -⟩ := linked_of_reached loaded reached
  obtain ⟨cls, known, -, rfl⟩ := transcript_of_load accepted loaded
  have bare : x.state.memory.store.row 0 = #[] := by
    refine Array.eq_empty_of_size_eq_zero ?_
    exact (widens_of_reached reached).row 0 Nat.zero_lt_one
  have culled := Machine.census_culled coherent (Machine.census_closed coherent fun v hv => hv)
  have stays (hf : x.state.memory.frames.get? f = some fr) :
      Census.Stays x.state (machine.image.transcript :: x.host) f
        ↔ Census.FromHost x.state.memory x.host (.frame f)
          ∨ Census.FromCircle x.state.memory (.frame f) := by
    rw [Census.stays_iff hf, known]
    exact or_congr_left (fromHost_of_roots idle bare)
  constructor
  · intro hf
    obtain ⟨there, remains⟩ := culled.before hf
    exact ⟨there, (stays there).1 remains⟩
  · rintro ⟨there, remains⟩
    have kept : x.state.memory.frames.Keeps f := by
      refine (coherent.arena.matters f fr there).resolve_left ?_
      simp [idle]
    exact (culled.keeps ((stays there).2 remains) kept).2.trans there

/-- **How long frames are held.**  Between the calls of a host, whatever program was compiled: the
count is that of the frames that are there; of the frames that there were, those remain to which the
host's values lead, or a circle does; each one is kept by a closure that is held so; and if the
host's values lead to no frame, then the count is zero exactly if no circle leads to one. -/
theorem frames_held_between_calls (accepted : compile options p = (log, .ok compiled))
    (loaded : Image.load (LoadClass.ofProgram compiled.classes 0).1
      = (log', .ok (machine.image, store)))
    (reached : Relation.ReflTransGen (Move machine) (start store transcript) x)
    (idle : x.state.calls.calls = []) :
    let before := x.state.memory
    let after := machine.census x.state x.host
    after.2 = after.1.memory.frames.handles.length
      ∧ (∀ f fr, after.1.memory.frames.get? f = some fr ↔ before.frames.get? f = some fr
        ∧ (Census.FromHost before x.host (.frame f) ∨ Census.FromCircle before (.frame f)))
      ∧ (∀ f fr, after.1.memory.frames.get? f = some fr → Census.Kept before x.host f)
      ∧ ((∀ f, ¬ Census.FromHost before x.host (.frame f)) →
        (after.2 = 0 ↔ ∀ f fr, before.frames.get? f = some fr →
          ¬ Census.FromCircle before (.frame f))) := by
  intro before after
  have counted : after.2 = after.1.memory.frames.handles.length := count_of_reached reached
  have remains (f : FrameId) (fr : Frame Value) : after.1.memory.frames.get? f = some fr
      ↔ before.frames.get? f = some fr
        ∧ (Census.FromHost before x.host (.frame f) ∨ Census.FromCircle before (.frame f)) :=
    remains_iff accepted loaded reached idle f fr
  refine ⟨counted, remains, fun f fr hf => ?_, fun away => ?_⟩
  · obtain ⟨⟨R, coherent⟩, -⟩ := linked_of_reached loaded reached
    rcases ((remains f fr).1 hf).2 with held | circle
    · exact Census.kept_of_fromHost held
    · exact Census.kept_of_fromCircle
        (fun g fr here => ⟨_, (coherent.arena.frames g fr here).2⟩) circle
  · rw [counted, List.length_eq_zero_iff, List.eq_nil_iff_forall_not_mem]
    refine ⟨fun none f fr there circle => ?_, fun none f hf => ?_⟩
    · obtain ⟨slot, hs, -⟩ :=
        Arena.get?_eq_some_iff.1 ((remains f fr).2 ⟨there, .inr circle⟩)
      exact none f (Arena.mem_handles_iff.2 ⟨slot, hs⟩)
    · obtain ⟨slot, hs⟩ := Arena.mem_handles_iff.1 hf
      obtain ⟨fr, -, hfr⟩ := Arena.exists_frame_of_slotOf? hs
      obtain ⟨there, held | circle⟩ := (remains f fr).1 hfr
      · exact away f held
      · exact none f fr there circle

end Compiled

end Session

/-! ## A circle -/

/-- In an arena without slots, the first slot is used. -/
theorem Arena.alloc_empty (birth : UInt32) (make : FrameId → Frame Value) :
    ({ birth } : Arena Value).alloc make
      = ((make ⟨0, birth⟩).pins.foldl pin
          { slots := #[{ generation := birth, frame := some (make ⟨0, birth⟩) }]
            live := 1
            birth },
        ⟨0, birth⟩) := by
  unfold alloc
  rw [collect_nil rfl]
  rfl

namespace Machine

variable {machine : Machine} {m m' : Memory} {c : Call} {rest : List Call}

/-- A step that goes on in the same call, and is not logged. -/
theorem step_next (unlogged : machine.traceInstructions = false) {i : Instruction} {next : Nat}
    {stack : List Value}
    (decoded : Instruction.decodeAt c.code.block.bytecode c.ip = .ok (some (i, next)))
    (effect : (c.moved next).execute machine.image m i = .next stack m') :
    machine.step ⟨m, .of (c :: rest)⟩ = .running
      ⟨m', .of ({ c.moved next with stack } :: rest)⟩ := by
  have effect' : { c with ip := next, current := some c.ip }.execute machine.image m i
      = .next stack m' := effect
  simp only [step, CallStack.of, decoded, unlogged, Bool.false_eq_true, if_false, effect', logCalls]
  rfl

/-- A step that makes another call, and is not logged. -/
theorem step_enter (unlogged : machine.traceInstructions = false) {i : Instruction} {next : Nat}
    {stack : List Value} {callee : Callee}
    (decoded : Instruction.decodeAt c.code.block.bytecode c.ip = .ok (some (i, next)))
    (effect : (c.moved next).execute machine.image m i = .enter stack callee m') :
    machine.step ⟨m, .of (c :: rest)⟩
      = machine.enter ⟨m', .of ({ c.moved next with stack } :: rest)⟩ callee := by
  have effect' : { c with ip := next, current := some c.ip }.execute machine.image m i
      = .enter stack callee m' := effect
  simp only [step, CallStack.of, decoded, unlogged, Bool.false_eq_true, if_false, effect', logCalls]
  split
  · rename_i h
    exact h.symm
  · rfl

/-- A run goes on with what a step comes to. -/
theorem run_next (unlogged : machine.traceInstructions = false) {i : Instruction} {next : Nat}
    {stack : List Value}
    (decoded : Instruction.decodeAt c.code.block.bytecode c.ip = .ok (some (i, next)))
    (effect : (c.moved next).execute machine.image m i = .next stack m') :
    machine.run ⟨m, .of (c :: rest)⟩
      = machine.run ⟨m', .of ({ c.moved next with stack } :: rest)⟩ := by
  rw [run_eq, step_next unlogged decoded effect]
  rfl

/-- The main body of pixels leaves a frame behind whose variable holds a closure that it made. -/
theorem runMain_keeping {image : Image} (store : Store) {pixel main : Class}
    {show_ y entry : Code} (has : image.HasPixels pixel main show_ y entry) :
    ∃ m fr c, runMain { image } (start store {}) = .value .nil ⟨m, .empty⟩
      ∧ m.frames.get? ⟨0, 1⟩ = some fr ∧ .block c ∈ fr.locals ∧ c.enclosing = ⟨0, 1⟩ := by
  obtain ⟨lookup, q, q', hcode⟩ := has.mainMethod
  obtain ⟨block, id, owner⟩ := entry
  obtain rfl : block = keepingBlock q q' := hcode
  let code : Code := ⟨keepingBlock q q', id, owner⟩
  let receiver := (Image.instantiate store main).2
  let nested : Code := ⟨(keepingBlock q q').blocks.getD 0 default, ⟨id.method, 0 :: id.path⟩, owner⟩
  let made : Closure Value := ⟨0, nested, ⟨0, 1⟩, ⟨0, 1⟩, receiver⟩
  let frame (v : Value) (place : Place) : Frame Value :=
    { Frame.ofMethod .nil code receiver [] none ⟨0, 1⟩ with locals := #[v], place }
  let memory (fr : Frame Value) (serial pinned : Nat) : Memory :=
    { frames := { slots := #[{ generation := 1, frame := some fr, pinned }], live := 1, birth := 1 }
      store := (Image.instantiate store main).1, serial }
  let calls (ip : Nat) (current : Option Nat) (stack : List Value) : CallStack :=
    .of [⟨⟨0, 1⟩, code, ip, current, stack⟩]
  let first : Place := ⟨some "<string>", ⟨1, 1⟩⟩
  let last : Place := ⟨some "<string>", {}⟩
  have decoded : ∀ p : Nat × Instruction × Nat, p ∈ [(0, Instruction.debug 0 ⟨1, 1⟩, 7),
      (7, .block 0, 10), (10, .storeLocal 0 0, 15), (15, .pop, 16), (16, .pushNil, 17),
      (17, .debug 0 {}, 24), (24, .ret, 25)] →
      Instruction.decodeAt code.block.bytecode p.1 = .ok (some p.2) := by
    show ∀ p : Nat × Instruction × Nat, p ∈ _ →
      Instruction.decodeAt (Instruction.encodeAll _) p.1 = .ok (some p.2)
    decide
  have entered : runMain { image } (start store {})
      = (run { image } ⟨memory (frame .nil {}) 0 0, calls 0 none []⟩).settled := by
    simp only [runMain, has.mainClass, lookup, perform_eq]
    show (outcome { image } (enter { image } ⟨{ store := (Image.instantiate store main).1 }, .empty⟩
      (.method code receiver []))).settled = _
    rw [enter_eq (show 0 < 10000 by decide)]
    simp only [Arena.alloc_empty]
    rfl
  have ran : run { image } ⟨memory (frame .nil {}) 0 0, calls 0 none []⟩
      = run { image } ⟨memory (frame (.block made) last) 1 1, calls 24 (some 17) [.nil]⟩ := by
    calc
      _ = run { image } ⟨memory (frame .nil first) 0 0, calls 7 (some 0) []⟩ :=
        run_next rfl (decoded (0, .debug 0 ⟨1, 1⟩, 7) (by simp)) rfl
      _ = run { image } ⟨memory (frame .nil first) 1 1, calls 10 (some 7) [.block made]⟩ :=
        run_next rfl (decoded (7, .block 0, 10) (by simp)) rfl
      _ = run { image }
          ⟨memory (frame (.block made) first) 1 1, calls 15 (some 10) [.block made]⟩ :=
        run_next rfl (decoded (10, .storeLocal 0 0, 15) (by simp)) rfl
      _ = run { image } ⟨memory (frame (.block made) first) 1 1, calls 16 (some 15) []⟩ :=
        run_next rfl (decoded (15, .pop, 16) (by simp)) rfl
      _ = run { image } ⟨memory (frame (.block made) first) 1 1, calls 17 (some 16) [.nil]⟩ :=
        run_next rfl (decoded (16, .pushNil, 17) (by simp)) rfl
      _ = _ := run_next rfl (decoded (17, .debug 0 {}, 24) (by simp)) rfl
  let finished : Call := ⟨⟨0, 1⟩, code, 25, some 24, []⟩
  let popped := (memory (frame (.block made) last) 1 1).leaveReturning [finished]
  have returned : run { image } ⟨memory (frame (.block made) last) 1 1, calls 24 (some 17) [.nil]⟩
      = .value .nil ⟨popped, .empty⟩ := by
    have stepped : step { image } ⟨memory (frame (.block made) last) 1 1, calls 24 (some 17) [.nil]⟩
        = .finished .nil ⟨popped, .empty⟩ := by
      simp only [step, calls, CallStack.of, decoded (24, .ret, 25) (by simp)]
      rfl
    rw [run_eq, stepped]
    rfl
  refine ⟨popped, Memory.lastWordsReturning finished (frame (.block made) last), made,
    ?_, ?_, ?_, rfl⟩
  · rw [entered, ran, returned]
    rfl
  · show (((memory (frame (.block made) last) 1 1).markReturned finished).leave
      finished).frames.get? _ = _
    rw [Memory.frames_leave_markReturned, Arena.release_eq rfl]
    exact congrArg (Arena.get? · ⟨0, 1⟩) (Arena.collect_nil rfl)
  · exact Array.mem_singleton.2 rfl

end Machine

namespace Session

/-- A session in which the main body of pixels has run, and the host holds nothing. -/
theorem reaches_keeping {image : Image} {store : Store} {pixel main : Class} {show_ y entry : Code}
    {log : Log} {classes : List LoadClass} (loaded : Image.load classes = (log, .ok (image, store)))
    (has : image.HasPixels pixel main show_ y entry) :
    ∃ x, Relation.ReflTransGen (Move { image }) (start store {}) x ∧ x.state.calls.calls = []
      ∧ x.host = [] ∧ Machine.runMain { image } (Machine.start store {}) = .value .nil x.state
      ∧ ∃ f fr c, x.state.memory.frames.get? f = some fr ∧ .block c ∈ fr.locals
        ∧ c.enclosing = f := by
  obtain ⟨m, fr, c, ran, here, kept, made⟩ := Machine.runMain_keeping store has
  have coherent : (start store {}).Coherent { image } := coherent_start loaded {}
  obtain ⟨⟨s, host, h⟩, reached, ended⟩ := runMain_moves coherent
  rw [ran] at ended
  obtain ⟨rfl, rfl⟩ := ended
  exact ⟨⟨⟨m, .empty⟩, [], h⟩, reached.tail (.forget nofun), rfl, rfl, ran, ⟨0, 1⟩, fr, c, here,
    kept, made⟩

/-- After the main body of pixels, with nothing in the hands of the host. -/
theorem frames_held_after_keeping :
    ∃ log compiled log' image store, compile {} pixelProgram = (log, .ok compiled)
      ∧ Image.load (LoadClass.ofProgram compiled.classes 0).1 = (log', .ok (image, store))
      ∧ ∃ x, Relation.ReflTransGen (Move { image }) (start store {}) x
        ∧ x.state.calls.calls = [] ∧ x.host = []
        ∧ ∀ f fr, (Machine.census { image } x.state []).1.memory.frames.get? f = some fr →
          Census.Kept x.state.memory [] f := by
  obtain ⟨log, compiled, log', image, store, _, _, _, _, _, accepted, loaded, has⟩ :=
    pixelProgram_loads
  obtain ⟨x, reached, idle, nothing, -⟩ := reaches_keeping loaded has
  have held := @frames_held_between_calls { image } x _ _ _ _ _ _ _ accepted loaded reached idle
  refine ⟨log, compiled, log', image, store, accepted, loaded, x, reached, idle, nothing, ?_⟩
  rw [← nothing]
  exact held.2.2.1

/-- **A circle holds its frames**: the variable of the main body of pixels holds a closure that the
main body has made, so its frame is still counted after the main body has answered `nil` and the
host holds nothing. -/
theorem circle_is_held :
    ∃ log compiled log' image store s, compile {} pixelProgram = (log, .ok compiled)
      ∧ Image.load (LoadClass.ofProgram compiled.classes 0).1 = (log', .ok (image, store))
      ∧ Machine.runMain { image } (Machine.start store {}) = .value .nil s
      ∧ 0 < (Machine.census { image } s []).2 := by
  obtain ⟨log, compiled, log', image, store, _, _, _, _, _, accepted, loaded, has⟩ :=
    pixelProgram_loads
  obtain ⟨x, reached, idle, nothing, ran, f, fr, c, here, kept, made⟩ :=
    reaches_keeping loaded has
  refine ⟨log, compiled, log', image, store, x.state, accepted, loaded, ran, ?_⟩
  have circle : Census.Leads x.state.memory (.frame f) (.frame f) := by
    refine Census.leads_frame_iff.2 ⟨fr, here, Census.mem_ofFrame.2 (.inl ⟨.block c, ?_, ?_⟩)⟩
    · simp [kept]
    · exact made ▸ List.mem_cons_self
  have remains := (@remains_iff { image } x _ _ _ _ _ _ _ accepted loaded reached idle f fr).2
    ⟨here, .inr ⟨_, .single circle, .refl⟩⟩
  obtain ⟨slot, hs, -⟩ := Arena.get?_eq_some_iff.1 remains
  rw [← nothing, count_of_reached reached]
  exact List.length_pos_of_mem (Arena.mem_handles_iff.2 ⟨slot, hs⟩)

end Session

end Colloquy
