import Colloquy.Proofs.Counted.Upkeep
import Colloquy.Proofs.Strings

/-!
# Sessions with counted pins

A closure is an object with references to it: in the hands of the host, on operand stacks, in
frames, in rows, and as the receiver of other closures.  When the last one goes it is dropped, and
with it its pin on the frame that made it.  Arrays and objects are dropped in the same way, and what
is in their rows with them.  Here a session goes on like this: a step that makes a closure takes a
pin for it (`Counted.Move.move`), and at any time what has no reference any more may be dropped, and
the queue of the arena be worked off (`Counted.LetsGo`).

Main statement: every move keeps everything tied to its frames, its home and its pins
(`Counted.Sound.move`).
-/

namespace Colloquy

variable {machine : Machine} {closures : List (Closure Value)} {gone : List Ref}

/-! ## Closures and rows that have not been dropped -/

/-- Values are in order if no closure in them has been dropped, and no row that they name. -/
def counting (closures : List (Closure Value)) (gone : List Ref) :
    Discipline { n : Nat // ∀ r ∈ gone, r < n } where
  Fits n v := v.Each (· ∈ closures) fun r => r < n ∧ r ∉ gone
  Live n r := r < n ∧ r ∉ gone
  size n := n
  grow n _ := ⟨n + 1, fun r hr => Nat.lt_succ_of_lt (n.2 r hr)⟩
  simple := Value.Simple.each
  cls := trivial
  receiver h := (Value.each_block.1 h).2
  array h := h
  object h := h
  mono _ := Value.Each.mono (fun _ => id) fun _ h => ⟨Nat.lt_succ_of_lt h.1, h.2⟩
  size_grow _ _ := rfl
  live_grow {n _ r} h := by
    rcases Nat.lt_succ_iff_lt_or_eq.1 h.1 with below | last
    · exact .inl ⟨below, h.2⟩
    · exact .inr last
  newArray n := ⟨Nat.lt_succ_self _, fun dropped => Nat.lt_irrefl _ (n.2 _ dropped)⟩
  newObject n _ := ⟨Nat.lt_succ_self _, fun dropped => Nat.lt_irrefl _ (n.2 _ dropped)⟩

/-! ## What moves do to frames, calls and closures -/

def Call.who (c : Call) : FrameId × Code := (c.frame, c.code)

theorem Call.who_handed (v : Value) (calls : List Call) :
    (handed v calls).map who = calls.map who := by
  cases calls <;> rfl

/-- The frames and calls of a state, with closures. -/
def State.upkeep (s : State) (closures : List (Closure Value)) : Upkeep :=
  ⟨s.memory.frames, s.calls.calls.map Call.who, closures⟩

namespace Memory

theorem pops_leaveReturning (m : Memory) (calls : List Call) :
    m.frames.Pops (calls.map (·.frame)) (m.leaveReturning calls).frames := by
  induction calls generalizing m with
  | nil => exact .nil
  | cons c calls ih =>
    refine .cons (sameLinks_lastWordsReturning c) ?_
    rw [← frames_leave_markReturned]
    exact ih ((m.markReturned c).leave c)

theorem pops_dropAll (m : Memory) (calls : List Call) :
    m.frames.Pops (calls.map (·.frame)) (calls.foldl drop m).frames := by
  induction calls generalizing m with
  | nil => exact .nil
  | cons c calls ih => exact .cons (sameLinks_lastWords c) (ih (m.drop c))

end Memory

namespace Call

variable {c : Call} {rest : List Call} {m : Memory} {i : Image} {s s' : State}

/-- An instruction that goes on and makes no closure changes one frame at most. -/
theorem Does.change {instruction : Instruction} {stack : List Value} {m' : Memory}
    (h : c.Does i m instruction (.next stack m')) (closures : List (Closure Value))
    (calls : List (FrameId × Code)) :
    (∃ index closure, instruction = .block index ∧ m.closure c.frame index.toNat = .ok closure)
      ∨ Upkeep.Change ⟨m.frames, calls, closures⟩ ⟨m'.frames, calls, closures⟩ := by
  cases h with
  | push | array | pop | storeField => exact .inr .same
  | storeLocal => exact .inr (.write _ fun _ => ⟨rfl, rfl, rfl, rfl, rfl⟩)
  | debug => exact .inr (.write _ fun _ => ⟨rfl, rfl, rfl, rfl, rfl⟩)
  | block made => exact .inl ⟨_, _, rfl, made⟩
  | @send _ receiver args below code m₁ _ _ _ logged replies =>
    have spared := invoke_spares i m₁ receiver code args
    cases reply : invoke i m₁ receiver code args with
    | answer v m₂ =>
      rw [reply] at spared replies
      cases replies
      refine .inr ?_
      rw [show m'.frames = m.frames from spared.trans logged.frames]
      exact .same
    | enter callee m₂ | fault e m₂ =>
      rw [reply] at replies
      cases replies

/-- **A step that makes a closure** pins the frame of its call. -/
theorem Takes.closes (h : c.Takes machine s.memory rest s') (innermost : s.calls.calls = c :: rest)
    {closure : Closure Value} (made : s.closure? = some closure) :
    (s.upkeep closures).Change (s'.upkeep (closure :: closures)) := by
  obtain ⟨m, calls⟩ := s
  obtain rfl : calls = .of (c :: rest) := by rw [calls.eq_of, innermost]
  obtain ⟨c', rest', index, next', innermost, decoded', made'⟩ := State.closure?_eq_some.1 made
  cases innermost
  have executes {m₀ : Memory} (before : m.Logs m₀) :
      (c.moved next').execute machine.image m₀ (.block index)
        = .next (.block closure :: c.stack)
          { m₀ with frames := m₀.frames.pin c.frame, serial := m₀.serial + 1 } := by
    have made₀ : m₀.closure (c.moved next').frame index.toNat = .ok closure :=
      (Memory.closure_congr before.frames before.data.serial _ _).trans made'
    simp only [execute, makeClosure, made₀]
    rfl
  cases h with
  | @next i next stack m₀ m₁ m' decoded before effect after =>
    cases decoded.symm.trans decoded'
    cases effect.symm.trans (executes before)
    obtain ⟨-, enclosing, fr, here, home, -⟩ := Memory.parts_of_closure made'
    have frames : m'.frames = m.frames.pin closure.enclosing := by
      rw [after.frames, enclosing, ← before.frames]
    rw [State.upkeep, State.upkeep, frames]
    exact .close (enclosing.symm ▸ here) home.symm
  | enter decoded before effect =>
    cases decoded.symm.trans decoded'
    cases effect.symm.trans (executes before)
  | leave before ends =>
    cases ends with
    | ranOut decoded | ret decoded | blockReturn decoded => cases decoded.symm.trans decoded'

/-- **A step that makes no closure** changes a frame, begins a call or ends calls.  The closure that
it enters has not been dropped. -/
theorem Takes.change (h : c.Takes machine s.memory rest s') (innermost : s.calls.calls = c :: rest)
    (made : s.closure? = none)
    (entered : ∀ {instruction next stack callee m₀ m₁}, s.memory.Logs m₀ →
      (c.moved next).execute machine.image m₀ instruction = .enter stack callee m₁ →
      callee.Held closures) :
    (s.upkeep closures).Change (s'.upkeep closures) := by
  obtain ⟨m, calls⟩ := s
  obtain rfl : calls = .of (c :: rest) := by rw [calls.eq_of, innermost]
  cases h with
  | @next i next stack m₀ m₁ m' decoded before effect after =>
    have does := (c.moved next).execute_does machine.image m₀ i
    rw [effect] at does
    rcases does.change closures ((c :: rest).map who) with block | change
    · obtain ⟨index, closure, rfl, made₀⟩ := block
      rw [Memory.closure_congr before.frames before.data.serial] at made₀
      have some := State.closure?_eq_some (s := ⟨m, .of (c :: rest)⟩).2
        ⟨c, rest, index, next, rfl, decoded, made₀⟩
      cases made.symm.trans some
    · rw [before.frames, ← after.frames] at change
      exact change
  | @enter i next stack callee frame m₀ m₁ m' decoded before effect alloc data =>
    have frames : m₁.frames = m.frames := (frames_of_enter effect).trans before.frames
    rw [frames] at alloc
    have change := Upkeep.Change.enter (u := State.upkeep ⟨m, .of (c :: rest)⟩ closures)
      (some c.frame) (entered before effect)
    have same : (State.upkeep ⟨m, .of (c :: rest)⟩ closures).enter callee (some c.frame)
        = ⟨m'.frames, (frame, callee.code) :: (c :: rest).map who, closures⟩ := by
      have made : (State.upkeep ⟨m, .of (c :: rest)⟩ closures).frames.alloc
          (callee.frame (some c.frame)) = (m'.frames, frame) := alloc
      simp only [Upkeep.enter, made]
      rfl
    rw [same] at change
    exact change
  | @leave v last past outer m₀ m' before ends same split left =>
    have pops : m.frames.Pops (((c :: past).map who).map Prod.fst) m'.frames := by
      rw [← before.frames, List.map_map]
      rcases left with ⟨rfl, rfl⟩ | ⟨-, rfl⟩
      · rw [Memory.frames_leave, same]
        exact .cons (Memory.sameLinks_lastWords last) .nil
      · have pops := m₀.pops_leaveReturning (last :: past)
        rw [List.map_cons, same] at pops
        exact pops
    have calls : (c :: rest).map who = (c :: past).map who ++ outer.map who := by
      rw [split, ← List.map_append]
      rfl
    have change := Upkeep.Change.leave (u := State.upkeep ⟨m, .of (c :: rest)⟩ closures)
      calls pops
    rw [← who_handed v outer] at change
    exact change

end Call

/-- A closure among values in order has not been dropped. -/
theorem Callee.held_of_fits {callee : Callee} {n : { n : Nat // ∀ r ∈ gone, r < n }}
    (h : ∀ v ∈ callee.values, (counting closures gone).Fits n v) : callee.Held closures := by
  cases callee with
  | method code receiver args => trivial
  | block c args => exact (Value.each_block.1 (h (.block c) List.mem_cons_self)).1

namespace Session

variable {x x' : Session} {n : { n : Nat // ∀ r ∈ gone, r < n }}

/-- What a step enters has not been dropped. -/
theorem InOrder.entered (h : x.InOrder (counting closures gone) machine n) {c : Call}
    {rest : List Call} (innermost : x.state.calls.calls = c :: rest) {instruction : Instruction}
    {next : Nat} {stack : List Value} {callee : Callee} {m₀ m₁ : Memory}
    (before : x.state.memory.Logs m₀)
    (effect : (c.moved next).execute machine.image m₀ instruction = .enter stack callee m₁) :
    callee.Held closures := by
  have does := (c.moved next).execute_does machine.image m₀ instruction
  rw [effect] at does
  obtain ⟨n', -, -, values⟩ := does.inOrder (h.state.memory.log before)
    (h.state.calls c (innermost ▸ List.mem_cons_self)) h.transcript
    fun index closure block made => by
      subst block
      simp only [Call.execute, Call.makeClosure, made] at effect
      cases effect
  exact Callee.held_of_fits fun v hv => values v (List.mem_append_right _ hv)

/-- **What a move does to frames, calls and closures,** if it does not take a census. -/
theorem Move.change (hm : Move machine x x')
    (uncounted : x'.state = (machine.census x.state x.host).1 → x'.state = x.state)
    (h : x.InOrder (counting closures gone) machine n) {made : List (Closure Value)}
    (new : x'.history.closures = made ++ x.history.closures) :
    (x.state.upkeep closures).Change (x'.state.upkeep (made ++ closures)) := by
  have none (same : x'.history.closures = x.history.closures) : made = [] :=
    List.self_eq_append_left.1 (same.symm.trans new)
  have idle {s s' : State} (frames : s'.memory.frames = s.memory.frames)
      (calls : s'.calls.calls.map Call.who = s.calls.calls.map Call.who) :
      (s.upkeep closures).Change (s'.upkeep closures) := by
    rw [State.upkeep, State.upkeep, frames, calls]
    exact .same
  cases hm with
  | @step s s' host hist hs =>
    obtain ⟨c, rest, innermost, takes⟩ := machine.exists_takes (s := s) (by simp [hs])
    rw [hs] at takes
    cases closure : s.closure? with
    | none =>
      cases none (closures_of_step_none closure)
      exact Call.Takes.change takes innermost closure (h.entered innermost)
    | some c' =>
      have one : made ++ hist.closures = [c'] ++ hist.closures :=
        new.symm.trans (closures_of_step closure)
      cases List.append_cancel_right one
      exact Call.Takes.closes takes innermost closure
  | @finish s s' v host hist hs =>
    obtain ⟨c, rest, innermost, takes⟩ := machine.exists_takes (s := s) (by simp [hs])
    rw [hs] at takes
    cases none rfl
    cases closure : s.closure? with
    | none => exact takes.1.change innermost closure (h.entered innermost)
    | some c' =>
      obtain ⟨-, -, s'', running, -⟩ := step_of_closure? machine closure
      cases hs.symm.trans running
  | @fail s s' f host hist hs =>
    have stalls := machine.step_stalls s
    rw [hs] at stalls
    cases none rfl
    cases stalls with
    | here logs => exact idle logs.frames rfl
    | within innermost taken logs =>
      refine idle logs.frames ?_
      rw [innermost]
      rfl
  | @abandon s host hist =>
    cases none rfl
    obtain ⟨m, calls⟩ := s
    have pops : m.frames.Pops ((calls.calls.map Call.who).map Prod.fst)
        (State.abandon ⟨m, calls⟩).memory.frames := by
      rw [List.map_map]
      exact m.pops_dropAll calls.calls
    have all : calls.calls.map Call.who = calls.calls.map Call.who ++ [] :=
      (List.append_nil _).symm
    exact .leave all pops
  | answer asks =>
    cases none rfl
    exact idle asks.spares rfl
  | @enter m m' calls callee s' host hist asks hs =>
    cases none closures_calling.2.2
    obtain ⟨n', -, -, values⟩ := asks.inOrder h.state.memory h.host
    have held : callee.Held closures :=
      Callee.held_of_fits fun v hv => values v (List.mem_append_right _ hv)
    obtain ⟨rfl, -⟩ := asks.spares
    obtain rfl := Machine.enter_eq_running hs
    have change := Upkeep.Change.enter (u := State.upkeep ⟨m', calls⟩ closures)
      calls.current? held
    show Upkeep.Change _ ⟨(Memory.trace _ _).frames, _, _⟩
    rw [Memory.frames_trace]
    exact change
  | plain | string | array | object | read | write | forget =>
    cases none rfl
    exact idle rfl rfl
  | census =>
    cases none rfl
    rw [uncounted rfl]
    exact .same

/-- A move makes one closure at most, with the next identity. -/
theorem Move.closes (hm : Move machine x x') :
    x'.history.closures = x.history.closures
      ∨ ∃ c, x.state.closure? = some c ∧ c.serial = x.state.memory.serial
        ∧ x'.history.closures = c :: x.history.closures := by
  cases hm with
  | @step s s' host hist hs =>
    cases closure : s.closure? with
    | none => exact .inl (closures_of_step_none closure)
    | some c =>
      obtain ⟨-, serial, -⟩ := step_of_closure? machine closure
      exact .inr ⟨c, rfl, serial, closures_of_step closure⟩
  | enter => exact .inl closures_calling.2.2
  | _ => exact .inl rfl

/-- What is known of closures does not change, if the frame of a new call is none that they name;
and the closure that is made becomes known. -/
theorem Move.made (hm : Move machine x x') {c : Closure Value}
    (hc : Made x.history x.state.memory.serial c ∨ x'.history.closures = c :: x.history.closures)
    (fresh : x.state.calls.depth < x'.state.calls.depth →
      ∀ f ∈ x'.state.calls.current?, c.enclosing ≠ f ∧ c.home ≠ f) :
    Made x'.history x'.state.memory.serial c := by
  have serial := hm.serial_le
  have old (same : x'.history.closures = x.history.closures) :
      Made x.history x'.state.memory.serial c := by
    rcases hc with hc | hc
    · exact hc.later serial
    · exact absurd (hc.symm.trans same) (List.cons_ne_self _ _)
  cases hm with
  | @step s s' host hist hs =>
    refine (made_of_step hs serial (hc.imp_right fun new => ?_)).calling fresh
    cases closure : s.closure? with
    | none => exact absurd (new.symm.trans (closures_of_step_none closure)) (List.cons_ne_self _ _)
    | some c' =>
      cases new.symm.trans (closures_of_step closure)
      rfl
  | enter => exact (old closures_calling.2.2).calling fresh
  | _ => exact old rfl

end Session

/-- A move that takes no census. -/
structure Session.Uncounted (machine : Machine) (s t : Session) : Prop where
  move : s.Move machine t
  uncounted : t.state = (machine.census s.state s.host).1 → t.state = s.state

/-! ## Letting go -/

/-- A session, with the closures that have been made and not been dropped, and with the rows that
have been dropped. -/
structure Counted where
  session : Session
  closures : List (Closure Value) := []
  gone : List Ref := []

namespace Counted

variable {image : Image} {x y : Counted}

/-- Before anything has run. -/
def start (store : Store) (transcript : Transcript) : Counted :=
  { session := Session.start store transcript }

def frames (x : Counted) : Arena Value := x.session.state.memory.frames

def store (x : Counted) : Store := x.session.state.memory.store

/-- The frames have changed. -/
def reframe (x : Counted) (frames : Arena Value) : Counted :=
  { x with session.state.memory.frames := frames }

/-- An array or an object has been dropped, and what was in its row with it. -/
def discard (x : Counted) (r : Ref) : Counted :=
  { x with
    session.state.memory.store.rows := x.store.rows.setIfInBounds r #[]
    gone := r :: x.gone }

/-- Where a value can be: in the hands of the host, on the operand stack of a call, in a frame, or
in a row that has not been dropped. -/
inductive Has (image : Image) (x : Counted) : Value → Prop
  | transcript : Has image x image.transcript
  | host {v : Value} (hv : v ∈ x.session.host) : Has image x v
  | operand {c : Call} {v : Value} (hc : c ∈ x.session.state.calls.calls) (hv : v ∈ c.stack) :
      Has image x v
  | slot {f : FrameId} {fr : Frame Value} {v : Value} (here : x.frames.get? f = some fr)
      (hv : v ∈ fr.locals) : Has image x v
  | self {f : FrameId} {fr : Frame Value} (here : x.frames.get? f = some fr) :
      Has image x fr.receiver
  | left {f : FrameId} {fr : Frame Value} {v : Value} (here : x.frames.get? f = some fr)
      (hv : v ∈ fr.left) : Has image x v
  | element {r : Ref} {v : Value} (made : r < x.store.rows.size) (kept : r ∉ x.gone)
      (hv : v ∈ x.store.row r) : Has image x v

/-- No reference to the closure is left: it is nowhere, not as the receiver of a closure either. -/
def Free (image : Image) (x : Counted) (c : Closure Value) : Prop :=
  ∀ v, x.Has image v → v.Each (fun c' => c'.serial ≠ c.serial) fun _ => True

/-- No reference to the array or object with the row is left. -/
def FreeRow (image : Image) (x : Counted) (r : Ref) : Prop :=
  ∀ v, x.Has image v → v.Each (fun _ => True) fun r' => r' ≠ r

/-- What goes without anybody doing anything. -/
inductive LetsGo (image : Image) : Counted → Counted → Prop
  /-- A closure is dropped, and with it its pin. -/
  | closure {x : Counted} {c : Closure Value} {rest : List (Closure Value)}
      (there : x.closures.Perm (c :: rest)) (free : x.Free image c) :
      LetsGo image x { x.reframe (x.frames.unpin c.enclosing) with closures := rest }
  /-- An array or an object is dropped. -/
  | row {x : Counted} {r : Ref} (made : r < x.store.rows.size) (kept : r ∉ x.gone)
      (free : x.FreeRow image r) : LetsGo image x (x.discard r)
  /-- The queue is worked off. -/
  | collect {x : Counted} : LetsGo image x (x.reframe x.frames.collect)

/-- One thing that happens: a move that takes no census, for whose new closure a pin is taken, or
something goes. -/
inductive Move (machine : Machine) : Counted → Counted → Prop
  | move {s t : Session} {made closures : List (Closure Value)} {gone : List Ref}
      (hm : s.Uncounted machine t) (new : t.history.closures = made ++ s.history.closures) :
      Move machine ⟨s, closures, gone⟩ ⟨t, made ++ closures, gone⟩
  | letGo {x y : Counted} (goes : LetsGo machine.image x y) : Move machine x y

/-! ## What stays true -/

/-- Everything is tied to its frames: what keeps frames is as it should be, the history is right
about the closures that there are, and these are the only ones that are anywhere. -/
structure Sound (machine : Machine) (x : Counted) : Prop where
  upkeep : (x.session.state.upkeep x.closures).Proper
  made : ∀ c ∈ x.closures, Session.Made x.session.history x.session.state.memory.serial c
  apart : (x.closures.map (·.serial)).Nodup
  gone : ∀ r ∈ x.gone, r < x.store.rows.size
  empty : ∀ r ∈ x.gone, x.store.row r = #[]
  values : ∀ v, x.Has machine.image v →
    v.Each (· ∈ x.closures) fun r => r < x.store.rows.size ∧ r ∉ x.gone

/-- Values are in order if they are everywhere. -/
theorem inOrder_of_values (made : ∀ r ∈ x.gone, r < x.store.rows.size)
    {closures : List (Closure Value)} (values : ∀ v, x.Has machine.image v →
      v.Each (· ∈ closures) fun r => r < x.store.rows.size ∧ r ∉ x.gone) :
    x.session.InOrder (counting closures x.gone) machine ⟨x.store.rows.size, made⟩ where
  state := {
    memory := {
      size := rfl
      rows := fun _ live v hv => values v (.element live.1 live.2 hv)
      frames := fun _ _ here => ⟨fun v hv => values v (.slot here hv), values _ (.self here),
        fun v hv => values v (.left here hv)⟩ }
    calls := fun _ hc v hv => values v (.operand hc hv) }
  transcript := values _ .transcript
  host v hv := values v (.host hv)

theorem values_of_inOrder {n : { n : Nat // ∀ r ∈ x.gone, r < n }}
    (h : x.session.InOrder (counting x.closures x.gone) machine n) {v : Value}
    (hv : x.Has machine.image v) :
    v.Each (· ∈ x.closures) fun r => r < x.store.rows.size ∧ r ∉ x.gone := by
  have size : (n : Nat) = x.store.rows.size := h.state.memory.size
  have fits : (counting x.closures x.gone).Fits n v := by
    cases hv with
    | transcript => exact h.transcript
    | host hv => exact h.host v hv
    | operand hc hv => exact h.state.calls _ hc v hv
    | slot here hv => exact (h.state.memory.frames _ _ here).locals v hv
    | self here => exact (h.state.memory.frames _ _ here).receiver
    | left here hv => exact (h.state.memory.frames _ _ here).left v hv
    | element made kept hv => exact h.state.memory.rows _ ⟨size ▸ made, kept⟩ v hv
  rw [← size]
  exact fits

/-- What is somewhere when frames have gone was there before. -/
theorem Has.of_sheds {b : Arena Value} (sheds : x.frames.Sheds b) {v : Value}
    (hv : ({ x.reframe b with closures } : Counted).Has image v) : x.Has image v := by
  cases hv with
  | transcript => exact .transcript
  | host hv => exact .host hv
  | operand hc hv => exact .operand hc hv
  | slot here hv => exact .slot (sheds.get? here) hv
  | self here => exact .self (sheds.get? here)
  | left here hv => exact .left (sheds.get? here) hv
  | element made kept hv => exact .element made kept hv

theorem size_discard (x : Counted) (r : Ref) :
    (x.discard r).store.rows.size = x.store.rows.size :=
  Array.size_setIfInBounds

theorem row_discard (x : Counted) (r r' : Ref) :
    (x.discard r).store.row r' = if r' = r then #[] else x.store.row r' := by
  simp only [discard, store, Store.row, Array.getD_eq_getD_getElem?, Array.getElem?_setIfInBounds]
  by_cases same : r = r'
  · subst r'
    rw [if_pos rfl, if_pos rfl]
    split <;> rfl
  · rw [if_neg same, if_neg (Ne.symm same)]

/-- What is somewhere when a row has been dropped was there before. -/
theorem Has.of_discard {r : Ref} {v : Value} (hv : (x.discard r).Has image v) :
    x.Has image v := by
  cases hv with
  | transcript => exact .transcript
  | host hv => exact .host hv
  | operand hc hv => exact .operand hc hv
  | slot here hv => exact .slot here hv
  | self here => exact .self here
  | left here hv => exact .left here hv
  | @element r' v made kept hv =>
    obtain ⟨other, kept⟩ := not_or.1 fun dropped => kept (List.mem_cons.2 dropped)
    rw [row_discard, if_neg other] at hv
    exact .element (x.size_discard r ▸ made) kept hv

namespace Sound

theorem inOrder (h : x.Sound machine) :
    x.session.InOrder (counting x.closures x.gone) machine ⟨x.store.rows.size, h.gone⟩ :=
  inOrder_of_values h.gone h.values

/-- The frame of a new call is none that a closure names. -/
theorem fresh {s t : Session} {made : List (Closure Value)}
    (h : Sound machine ⟨s, closures, gone⟩)
    (change : (s.state.upkeep closures).Change (t.state.upkeep (made ++ closures)))
    (longer : s.state.calls.depth < t.state.calls.depth) :
    ∀ f ∈ t.state.calls.current?, ∀ c ∈ closures, c.enclosing ≠ f ∧ c.home ≠ f := by
  intro f hf
  obtain ⟨call, innermost, rfl⟩ := Option.map_eq_some_iff.1 hf
  refine h.upkeep.fresh change ?_ call.who ?_
  · simp only [State.upkeep, List.length_map]
    rwa [← CallStack.depth_eq, ← CallStack.depth_eq]
  · simp only [State.upkeep, List.head?_map, innermost]
    rfl

/-- **A move that takes no census keeps everything tied to its frames.** -/
theorem move {s t : Session} {made : List (Closure Value)} (h : Sound machine ⟨s, closures, gone⟩)
    (hm : s.Move machine t)
    (uncounted : t.state = (machine.census s.state s.host).1 → t.state = s.state)
    (new : t.history.closures = made ++ s.history.closures) :
    Sound machine ⟨t, made ++ closures, gone⟩ := by
  have change := hm.change uncounted h.inOrder new
  have one : made = [] ∨ ∃ c, made = [c] ∧ c.serial = s.state.memory.serial
      ∧ t.history.closures = c :: s.history.closures := by
    rcases hm.closes with same | ⟨c, -, serial, made⟩
    · exact .inl (List.self_eq_append_left.1 (same.symm.trans new))
    · have both : [c] ++ s.history.closures = _ := made.symm.trans new
      exact .inr ⟨c, (List.append_cancel_right both).symm, serial, made⟩
  refine ⟨h.upkeep.change change, fun c hc => ?_, ?_, fun r hr => ?_, fun r hr => ?_,
    fun v hv => ?_⟩
  · rcases List.mem_append.1 hc with hc | hc
    · obtain rfl | ⟨c', rfl, -, made⟩ := one
      · cases hc
      · cases List.mem_singleton.1 hc
        refine hm.made (.inr made) fun longer => ?_
        have calls := congrArg List.length (change.calls_eq rfl)
        simp only [State.upkeep, List.length_map, ← CallStack.depth_eq] at calls
        exact absurd (calls ▸ longer) (Nat.lt_irrefl _)
    · exact hm.made (.inl (h.made c hc)) fun longer f hf => h.fresh change longer f hf c hc
  · obtain rfl | ⟨c, rfl, serial, -⟩ := one
    · exact h.apart
    · refine List.nodup_cons.2 ⟨fun mem => ?_, h.apart⟩
      obtain ⟨c', hc', same⟩ := List.mem_map.1 mem
      exact Nat.ne_of_lt (h.made c' hc').serial (same.trans serial)
  · exact Nat.lt_of_lt_of_le (h.gone r hr) hm.widens.size
  · have size := hm.widens.row r (h.gone r hr)
    exact Array.eq_empty_of_size_eq_zero (size.trans (congrArg Array.size (h.empty r hr)))
  · have before : s.InOrder (counting (made ++ closures) gone) machine _ :=
      inOrder_of_values (x := ⟨s, closures, gone⟩) h.gone fun v hv =>
        (h.values v hv).mono (fun _ => List.mem_append_right made) fun _ => id
    obtain ⟨n, -, after⟩ := hm.inOrder before h.upkeep.orderly.tidy fun c made' receiver => by
      have both : [c] ++ s.history.closures = _ := made'.symm.trans new
      rw [← List.append_cancel_right both] at receiver ⊢
      exact Value.each_block.2 ⟨List.mem_cons_self, receiver⟩
    exact values_of_inOrder (x := ⟨t, made ++ closures, gone⟩) after hv

/-- **What goes is missed by nothing that stays.** -/
theorem letGo (h : x.Sound machine) (goes : x.LetsGo machine.image y) : y.Sound machine := by
  cases goes with
  | @closure c rest there free =>
    have sub : ∀ c' ∈ rest, c' ∈ x.closures := fun c' hc' =>
      there.mem_iff.2 (List.mem_cons_of_mem c hc')
    have sheds := Arena.Sheds.unpin x.frames c.enclosing
    refine ⟨h.upkeep.drop there, fun c' hc' => h.made c' (sub c' hc'), ?_, h.gone, h.empty,
      fun v hv => ?_⟩
    · exact (List.nodup_cons.1 ((there.map (·.serial)).nodup_iff.1 h.apart)).2
    · have before := hv.of_sheds sheds
      refine ((h.values v before).and (free v before)).mono (fun c' hc' => ?_)
        fun _ hr => hr.1
      rcases List.mem_cons.1 (there.mem_iff.1 hc'.1) with rfl | stays
      · exact absurd rfl hc'.2
      · exact stays
  | @row r made kept free =>
    have size := x.size_discard r
    refine ⟨h.upkeep, h.made, h.apart, fun r' hr' => ?_, fun r' hr' => ?_, fun v hv => ?_⟩
    · rw [size]
      rcases List.mem_cons.1 hr' with rfl | before
      · exact made
      · exact h.gone r' before
    · rw [row_discard]
      split
      · rfl
      · exact h.empty r' ((List.mem_cons.1 hr').resolve_left ‹_›)
    · have before := hv.of_discard
      rw [size]
      exact ((h.values v before).and (free v before)).mono (fun _ hc => hc.1)
        fun r' hr' => ⟨hr'.1.1, List.not_mem_cons_of_ne_of_not_mem hr'.2 hr'.1.2⟩
  | collect =>
    exact ⟨h.upkeep.collect, h.made, h.apart, h.gone, h.empty, fun v hv =>
      h.values v (Has.of_sheds (.collect x.frames) hv)⟩

theorem start {classes : List LoadClass} {log : Log} {store : Store}
    (loaded : Image.load classes = (log, .ok (machine.image, store))) (transcript : Transcript) :
    (start store transcript).Sound machine := by
  obtain ⟨cls, object, rfl⟩ := Session.load_eq loaded
  refine ⟨.empty 1, List.forall_mem_nil _, List.nodup_nil, List.forall_mem_nil _,
    List.forall_mem_nil _, fun v hv => ?_⟩
  cases hv with
  | transcript =>
    rw [object]
    exact ⟨Nat.zero_lt_one, List.not_mem_nil⟩
  | host hv | operand hv => cases hv
  | slot here | self here | left here => cases here
  | @element r v made kept hv =>
    obtain rfl : r = 0 := Nat.lt_one_iff.1 made
    have hv : v ∈ Array.replicate cls.numFields Value.nil := hv
    rw [Array.eq_of_mem_replicate hv]
    trivial

/-- Everything is tied to its frames in every session. -/
theorem of_reached {classes : List LoadClass} {log : Log} {store : Store}
    {transcript : Transcript} (loaded : Image.load classes = (log, .ok (machine.image, store)))
    (reached : Relation.ReflTransGen (Move machine) (Counted.start store transcript) x) :
    x.Sound machine := by
  induction reached with
  | refl => exact start loaded transcript
  | tail _ happens ih =>
    cases happens with
    | move hm new => exact ih.move hm.move hm.uncounted new
    | letGo goes => exact ih.letGo goes

end Sound

end Counted

end Colloquy
