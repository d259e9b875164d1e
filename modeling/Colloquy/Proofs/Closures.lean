import Mathlib.Logic.Relation
import Colloquy.Proofs.Coherence.Census
import Colloquy.Proofs.Coherence.Steps

/-!
# Closures never dangle

A session is a state together with the values that the host holds.  It moves on by steps of the
machine and by what the host does between them.  To be able to say that a handle still names the
frame that it named when a closure was made, a session also carries a history: frames are numbered
in the order in which they are made, and for every closure the number of the frame that carried out
its block instruction is written down, and that of its home.  The history has no influence on
anything.

Main statement: in every session that can come about, every closure that is held anywhere finds the
very frame that made it, and from there its home (`Session.rooted_of_reached`).
-/

namespace Colloquy

/-- What has happened so far. -/
structure History where
  /-- How many frames have been made. -/
  made : Nat := 0
  /-- The number of the frame that a handle was last given to. -/
  number : FrameId → Nat := fun _ => 0
  /-- The number of the frame that made a closure, by the closure's identity. -/
  maker : Nat → Option Nat := fun _ => none
  /-- The number that a closure's home had when the closure was made, by the closure's identity. -/
  home : Nat → Option Nat := fun _ => none
  /-- The number that a frame's home had when the frame was made, by the frame's own number. -/
  homeOf : Nat → Option Nat := fun _ => none
  /-- The closures that have been made, the last one first. -/
  closures : List (Closure Value) := []

namespace History

/-- A new frame gets the next number. -/
def numbering (h : History) (f g : FrameId) : Nat := if g = f then h.made else h.number g

/-- A new call on top of the others has a new frame. -/
def calling (h : History) (before after : State) : History :=
  match after.calls.current? with
  | none => h
  | some f =>
    if before.calls.depth < after.calls.depth then
      { h with
        made := h.made + 1
        number := h.numbering f
        homeOf := fun n =>
          if n = h.made then (after.memory.frames.get? f).map fun fr => h.numbering f fr.home
          else h.homeOf n }
    else h

/-- The frame of the innermost call makes a closure if it carries out a block instruction. -/
def making (h : History) (s : State) : History :=
  match s.calls.current?, s.closure? with
  | some f, some c =>
    { h with
      maker := fun n => if n = c.serial then some (h.number f) else h.maker n
      home := fun n => if n = c.serial then some (h.number c.home) else h.home n
      closures := c :: h.closures }
  | _, _ => h

end History

/-- A state, what the host holds, and what has happened. -/
structure Session where
  state : State
  host : List Value := []
  history : History := {}

namespace Session

/-- Before anything has run. -/
def start (store : Store) (transcript : Transcript) : Session :=
  { state := Machine.start store transcript }

/-- What a host gets when it calls a method or carries out a primitive on values that it holds. -/
inductive Asks (image : Image) (m : Memory) (host : List Value) : Reply → Prop where
  | method {receiver : Value} {args : List Value} (code : Code) (hr : receiver ∈ host)
      (ha : ∀ v ∈ args, v ∈ host) : Asks image m host (invoke image m receiver code args)
  | primitive {receiver : Value} {args : List Value} (p : Primitive) (hr : receiver ∈ host)
      (ha : ∀ v ∈ args, v ∈ host) : Asks image m host (p.apply image m receiver args)

/-- The rows that a value names. -/
def Names (r : Ref) : Value → Prop
  | .array r' | .object _ r' => r' = r
  | _ => False

/-- A value that a host can make up: it has no row and no closure. -/
def Plain : Value → Prop
  | .array _ | .object _ _ | .block _ => False
  | _ => True

/-- One move of a session. -/
inductive Move (machine : Machine) : Session → Session → Prop where
  /-- A step that is not the last one. -/
  | step {s s' : State} {host : List Value} {h : History} (hs : machine.step s = .running s') :
      Move machine ⟨s, host, h⟩ ⟨s', host, (h.making s).calling s s'⟩
  /-- The outermost call is over, and the host gets its value. -/
  | finish {s s' : State} {v : Value} {host : List Value} {h : History}
      (hs : machine.step s = .finished v s') : Move machine ⟨s, host, h⟩ ⟨s', v :: host, h⟩
  /-- A step fails. -/
  | fail {s s' : State} {f : Failure} {host : List Value} {h : History}
      (hs : machine.step s = .failed f s') : Move machine ⟨s, host, h⟩ ⟨s', host, h⟩
  /-- The calls in progress are dropped. -/
  | abandon {s : State} {host : List Value} {h : History} :
      Move machine ⟨s, host, h⟩ ⟨s.abandon, host, h⟩
  /-- The host calls a method and gets a value at once. -/
  | answer {m m' : Memory} {calls : CallStack} {v : Value} {host : List Value} {h : History}
      (asks : Asks machine.image m host (.answer v m')) :
      Move machine ⟨⟨m, calls⟩, host, h⟩ ⟨⟨m', calls⟩, v :: host, h⟩
  /-- The host calls a method or a block, which is entered. -/
  | enter {m m' : Memory} {calls : CallStack} {callee : Callee} {s' : State} {host : List Value}
      {h : History} (asks : Asks machine.image m host (.enter callee m'))
      (hs : machine.enter ⟨m', calls⟩ callee = .running s') :
      Move machine ⟨⟨m, calls⟩, host, h⟩ ⟨s', host, h.calling ⟨m, calls⟩ s'⟩
  /-- The host makes up a value, or takes the transcript. -/
  | plain {s : State} {v : Value} {host : List Value} {h : History}
      (hv : Plain v ∨ v = machine.image.transcript) :
      Move machine ⟨s, host, h⟩ ⟨s, v :: host, h⟩
  /-- The host makes a string. -/
  | string {m : Memory} {calls : CallStack} {text : String} {host : List Value} {h : History} :
      Move machine ⟨⟨m, calls⟩, host, h⟩
        ⟨⟨(m.newString text).1, calls⟩, (m.newString text).2 :: host, h⟩
  /-- The host makes an array of values that it holds. -/
  | array {m : Memory} {calls : CallStack} {values : Array Value} {host : List Value} {h : History}
      (hv : ∀ v ∈ values, v ∈ host) :
      Move machine ⟨⟨m, calls⟩, host, h⟩
        ⟨⟨(m.newArray values).1, calls⟩, (m.newArray values).2 :: host, h⟩
  /-- The host makes an instance of a class. -/
  | object {m : Memory} {calls : CallStack} (cls : Class) {host : List Value} {h : History} :
      Move machine ⟨⟨m, calls⟩, host, h⟩
        ⟨⟨{ m with store := (Image.instantiate m.store cls).1 }, calls⟩,
          (Image.instantiate m.store cls).2 :: host, h⟩
  /-- The host reads an element of an array or a field that it holds. -/
  | read {s : State} {v w : Value} {r : Ref} {host : List Value} {h : History} (hv : v ∈ host)
      (names : Names r v) (hw : w ∈ s.memory.store.row r) :
      Move machine ⟨s, host, h⟩ ⟨s, w :: host, h⟩
  /-- The host changes an element of an array or a field. -/
  | write {m : Memory} {calls : CallStack} {w : Value} {r : Ref} {k : Nat} {host : List Value}
      {h : History} (hw : w ∈ host) :
      Move machine ⟨⟨m, calls⟩, host, h⟩ ⟨⟨{ m with store := m.store.set r k w }, calls⟩, host, h⟩
  /-- The host lets go of values. -/
  | forget {s : State} {host host' : List Value} {h : History} (hsub : ∀ v ∈ host', v ∈ host) :
      Move machine ⟨s, host, h⟩ ⟨s, host', h⟩
  /-- Frames are counted, and those that nothing holds are recycled. -/
  | census {s : State} {host : List Value} {h : History} :
      Move machine ⟨s, host, h⟩ ⟨(machine.census s host).1, host, h⟩

/-- Where a value can be held: by the host, on an operand stack, in a frame, in a row that a held
value names, or as the receiver of a held closure. -/
inductive Holds (x : Session) : Value → Prop where
  | host {v : Value} (hv : v ∈ x.host) : Holds x v
  | operand {c : Call} {v : Value} (hc : c ∈ x.state.calls.calls) (hv : v ∈ c.stack) : Holds x v
  | slot {f : FrameId} {fr : Frame Value} {v : Value}
      (hf : x.state.memory.frames.get? f = some fr) (hv : v ∈ fr.locals) : Holds x v
  | self {f : FrameId} {fr : Frame Value} (hf : x.state.memory.frames.get? f = some fr) :
      Holds x fr.receiver
  | left {f : FrameId} {fr : Frame Value} {v : Value}
      (hf : x.state.memory.frames.get? f = some fr) (hv : v ∈ fr.left) : Holds x v
  | element {v w : Value} {r : Ref} (hv : Holds x v) (names : Names r v)
      (hw : w ∈ x.state.memory.store.row r) : Holds x w
  | receiver {c : Closure Value} (hc : Holds x (.block c)) : Holds x c.receiver

/-! ## What the history says of closures -/

/-- The closure has an identity that was given out, was made by the frame that it names, and has the
home that it had then. -/
structure Made (h : History) (serial : Nat) (c : Closure Value) : Prop where
  serial : c.serial < serial
  maker : h.maker c.serial = some (h.number c.enclosing)
  home : h.home c.serial = some (h.number c.home)

/-- Everything that can be reached is sound, and the history is right about it. -/
def Coherent (machine : Machine) (x : Session) : Prop :=
  ∃ R, x.state.memory.Coherent machine.image (Made x.history x.state.memory.serial) R
    x.state.calls.calls x.host

variable {machine : Machine} {x x' : Session}

/-- **What a block instruction does:** the frame of the innermost call gets a closure with a new
identity, and nothing is entered. -/
theorem step_of_closure? (machine : Machine) {s : State} {c : Closure Value}
    (h : s.closure? = some c) :
    s.calls.current? = some c.enclosing ∧ c.serial = s.memory.serial
      ∧ ∃ s', machine.step s = .running s' ∧ s'.memory.serial = s.memory.serial + 1
        ∧ ∃ call ∈ s'.calls.calls, .block c ∈ call.stack := by
  obtain ⟨m, calls⟩ := s
  rw [calls.eq_of] at h ⊢
  generalize calls.calls = calls at h ⊢
  cases calls with
  | nil => simp [State.closure?, CallStack.of] at h
  | cons call rest =>
    unfold State.closure? at h
    dsimp only [CallStack.of] at h
    split at h
    · rename_i index next decoded
      cases made : m.closure call.frame index.toNat with
      | error e =>
        rw [made] at h
        cases h
      | ok closure =>
        rw [made] at h
        cases h
        have parts : c.enclosing = call.frame ∧ c.serial = m.serial := by
          obtain ⟨fr, -, made⟩ := Checked.bind_eq_ok.1 made
          obtain ⟨home, -, made⟩ := Checked.bind_eq_ok.1 made
          dsimp only at made
          split at made
          · cases made
            exact ⟨rfl, rfl⟩
          · cases made
        obtain ⟨m₀, noted, stepped⟩ := machine.step_eq m rest decoded
        have made : m₀.closure (call.moved next).frame index.toNat = .ok c :=
          (Memory.closure_congr noted.frames noted.data.serial _ _).trans made
        simp only [Call.execute, Call.makeClosure, made] at stepped
        obtain ⟨m', logs, logged⟩ := machine.logCalls_running
          { m₀ with frames := m₀.frames.pin (call.moved next).frame, serial := m₀.serial + 1 }
          (.of ({ call.moved next with stack := .block c :: call.stack } :: rest))
        exact ⟨congrArg some parts.1.symm, parts.2, _, stepped.trans logged,
          logs.data.serial.trans (congrArg (· + 1) noted.data.serial),
          _, List.mem_cons_self, List.mem_cons_self⟩
    · cases h

/-- The frame of a new call is the only one whose number changes. -/
theorem number_calling {h : History} {before after : State} {f : FrameId}
    (hf : before.calls.depth < after.calls.depth → f ∉ after.calls.current?) :
    (h.calling before after).number f = h.number f := by
  unfold History.calling
  split
  · rfl
  · rename_i g hg
    split
    · rename_i hlt
      have other : f ≠ g := fun same => hf hlt (same ▸ hg)
      exact if_neg other
    · rfl

/-- A new call makes no closure. -/
theorem closures_calling {h : History} {before after : State} :
    (h.calling before after).maker = h.maker ∧ (h.calling before after).home = h.home
      ∧ (h.calling before after).closures = h.closures := by
  unfold History.calling
  split
  · exact ⟨rfl, rfl, rfl⟩
  · split <;> exact ⟨rfl, rfl, rfl⟩

theorem Made.later {h : History} {n n' : Nat} (hn : n ≤ n') {c : Closure Value}
    (hc : Made h n c) : Made h n' c := { hc with serial := Nat.lt_of_lt_of_le hc.serial hn }

/-- What is known of a closure does not change with a new call, if the frames that it names are not
that of the call. -/
theorem Made.calling {h : History} {before after : State} {n : Nat} {c : Closure Value}
    (hc : Made h n c)
    (fresh : before.calls.depth < after.calls.depth → ∀ f ∈ after.calls.current?,
      c.enclosing ≠ f ∧ c.home ≠ f) : Made (h.calling before after) n c := by
  obtain ⟨maker, home, -⟩ := @closures_calling h before after
  refine ⟨hc.serial, ?_, ?_⟩
  · rw [maker, number_calling fun hlt hf => (fresh hlt _ hf).1 rfl]
    exact hc.maker
  · rw [home, number_calling fun hlt hf => (fresh hlt _ hf).2 rfl]
    exact hc.home

theorem number_making {h : History} {s : State} : (h.making s).number = h.number := by
  unfold History.making
  split <;> rfl

/-- Closures made before a step are still known after it, and the new one is known too. -/
theorem made_of_step {s s' : State} {h : History} {c : Closure Value}
    (hs : machine.step s = .running s') (serial : s.memory.serial ≤ s'.memory.serial)
    (hc : Made h s.memory.serial c ∨ s.closure? = some c) :
    Made (h.making s) s'.memory.serial c := by
  rcases hc with hc | hc
  · refine ⟨Nat.lt_of_lt_of_le hc.serial serial, ?_, ?_⟩ <;>
    · rw [number_making]
      unfold History.making
      split
      · rename_i f c' hf hc'
        have : c.serial ≠ c'.serial := by
          rw [(step_of_closure? machine hc').2.1]
          exact Nat.ne_of_lt hc.serial
        simp only [this, if_false]
        first | exact hc.maker | exact hc.home
      · first | exact hc.maker | exact hc.home
  · obtain ⟨hcur, hserial, after, hs', hnext, -⟩ := step_of_closure? machine hc
    rw [hs] at hs'
    cases hs'
    exact ⟨by omega, by simp [History.making, hcur, hc], by simp [History.making, hcur, hc]⟩

/-- The frames that a secured closure names are kept. -/
theorem fresh_of_secures {a : Arena Value} {Q : Closure Value → Prop} {c : Closure Value}
    {current : Option FrameId} (hc : a.Secures Q c) (fresh : ∀ f ∈ current, ¬ a.Keeps f) :
    ∀ f ∈ current, c.enclosing ≠ f ∧ c.home ≠ f := fun f hf =>
  ⟨fun same => fresh f hf (same ▸ hc.keeps),
    fun same => fresh f hf (same ▸ hc.anchored.keeps_home hc.keeps)⟩

/-! ## Moves -/

theorem Coherent.step {s s' : State} {host : List Value} {h : History}
    (hx : Coherent machine ⟨s, host, h⟩) (hs : machine.step s = .running s') :
    Coherent machine ⟨s', host, (h.making s).calling s s'⟩ := by
  obtain ⟨R, hx⟩ := hx
  have after := Machine.step_coherent (hx.mono fun c hc => Or.inl hc.also) fun c hc =>
    (Or.inr hc : Made h s.memory.serial c ∨ s.closure? = some c)
  rw [hs] at after
  obtain ⟨⟨serial, coherent⟩, fresh⟩ := after
  exact ⟨_, coherent.mono fun c hc =>
    (made_of_step hs serial hc.also).calling fun deeper => fresh_of_secures hc (fresh deeper)⟩

/-- A step that is the last one makes no closure. -/
theorem Coherent.last {s s' : State} {host : List Value} {h : History} {R : Ref → Prop}
    (hs : ∀ after, machine.step s ≠ .running after)
    (after : s'.memory.Follows s.memory machine.image
      (fun c => Made h s.memory.serial c ∨ s.closure? = some c) R s'.calls.calls host) :
    Coherent machine ⟨s', host, h⟩ := by
  refine ⟨_, after.coherent.mono fun c hc => ?_⟩
  rcases hc.also with hc | hc
  · exact hc.later after.serial
  · obtain ⟨-, -, after, hrun, -⟩ := step_of_closure? machine hc
    exact absurd hrun (hs after)

theorem Coherent.asks {m : Memory} {calls : CallStack} {host : List Value} {h : History}
    {R : Ref → Prop} {reply : Reply}
    (hx : m.Coherent machine.image (Made h m.serial) R calls.calls host)
    (asks : Asks machine.image m host reply) :
    Memory.AfterReply machine.image (Made h m.serial) R m calls.calls host reply := by
  cases asks with
  | method code hr ha => exact hx.invoke (hx.host _ hr) (fun v hv => hx.host v (ha v hv)) code
  | primitive p hr ha => exact hx.apply (hx.host _ hr) (fun v hv => hx.host v (ha v hv)) p

theorem sound_of_plain {a : Arena Value} {Q : Closure Value → Prop} {R : Ref → Prop} {v : Value}
    (hv : Plain v) : a.Sound Q R v := by
  cases v <;> first | exact hv.elim | trivial

theorem sound_of_names {m : Memory} {Q : Closure Value → Prop} {R : Ref → Prop} {image : Image}
    {calls : List Call} {host : List Value} (hx : m.Coherent image Q R calls host) {v w : Value}
    {r : Ref} (hv : m.frames.Sound Q R v) (names : Names r v) (hw : w ∈ m.store.row r) :
    m.frames.Sound Q R w := by
  cases v with
  | array r' =>
    cases names
    exact (hx.store r hv).2 w hw
  | object cls r' =>
    cases names
    exact (hx.store r hv).2 w hw
  | _ => exact names.elim

/-- **Every move keeps a session coherent.** -/
theorem Coherent.move (hx : x.Coherent machine) (hm : Move machine x x') :
    x'.Coherent machine := by
  cases hm with
  | step hs => exact hx.step hs
  | @finish s s' v host h hs =>
    obtain ⟨R, hx⟩ := hx
    have after := Machine.step_coherent (hx.mono fun c hc => Or.inl hc.also) fun c hc =>
      (Or.inr hc : Made h s.memory.serial c ∨ s.closure? = some c)
    rw [hs] at after
    exact Coherent.last (by simp [hs]) after
  | @fail s s' f host h hs =>
    obtain ⟨R, hx⟩ := hx
    have after := Machine.step_coherent (hx.mono fun c hc => Or.inl hc.also) fun c hc =>
      (Or.inr hc : Made h s.memory.serial c ∨ s.closure? = some c)
    rw [hs] at after
    exact Coherent.last (by simp [hs]) after
  | @abandon s host h =>
    obtain ⟨R, hx⟩ := hx
    have same : s.abandon.memory.serial = s.memory.serial :=
      (Memory.sameData_dropAll s.memory s.calls.calls).serial
    exact ⟨R, same.symm ▸ State.abandon_coherent hx⟩
  | answer asks =>
    obtain ⟨R, hx⟩ := hx
    have after : Memory.Follows _ _ _ _ _ _ _ := Coherent.asks hx asks
    exact ⟨_, after.coherent.mono fun c hc => hc.also.later after.serial⟩
  | @enter m m' calls callee s' host h asks hs =>
    obtain ⟨R, hx⟩ := hx
    obtain ⟨rfl, sound⟩ := Coherent.asks hx asks
    have entered : Machine.AfterProgress machine.image (Made h m'.serial) R m' calls.depth host
        (machine.enter ⟨m', calls⟩ callee) := Machine.enter_coherent
      (hx.hold fun v hv => (List.mem_append.1 hv).elim (sound v) (hx.host v)).follows
    rw [hs] at entered
    obtain ⟨⟨serial, coherent⟩, fresh⟩ := entered
    exact ⟨_, coherent.mono fun c hc =>
      (hc.also.later serial).calling fun deeper => fresh_of_secures hc (fresh deeper)⟩
  | plain hv =>
    obtain ⟨R, hx⟩ := hx
    refine ⟨R, hx.cons ?_⟩
    rcases hv with hv | rfl
    · exact sound_of_plain hv
    · exact hx.transcript
  | string =>
    obtain ⟨R, hx⟩ := hx
    refine ⟨R, Memory.Coherent.cons ?_ trivial⟩
    exact (hx.mono fun c hc => hc.also.later (Nat.le_succ _)).congr rfl rfl
  | array hv =>
    obtain ⟨R, hx⟩ := hx
    exact ⟨_, hx.newArray fun v hmem => hx.host v (hv v hmem)⟩
  | object cls =>
    obtain ⟨R, hx⟩ := hx
    exact ⟨_, hx.instantiate cls⟩
  | read hv names hw =>
    obtain ⟨R, hx⟩ := hx
    exact ⟨R, hx.cons (sound_of_names hx (hx.host _ hv) names hw)⟩
  | write hw =>
    obtain ⟨R, hx⟩ := hx
    exact ⟨R, hx.set _ _ (hx.host _ hw)⟩
  | forget hsub =>
    obtain ⟨R, hx⟩ := hx
    exact ⟨R, hx.hold fun v hv => hx.host v (hsub v hv)⟩
  | census =>
    obtain ⟨R, hx⟩ := hx
    obtain ⟨R', -, hc⟩ := Machine.census_coherent hx fun v hv => hv
    exact ⟨R', hc⟩

/-! ## All sessions -/

/-- Loading leaves one object, with all fields `nil`. -/
theorem load_eq {classes : List LoadClass} {log : Log} {image : Image} {store : Store}
    (h : Image.load classes = (log, .ok (image, store))) :
    ∃ cls, image.transcript = .object cls 0
      ∧ store = ⟨#[Array.replicate cls.numFields .nil]⟩ := by
  unfold Image.load at h
  split at h
  · cases h
  · rename_i l hl
    have h : Image.finish l = .ok (image, store) := (Prod.mk.inj h).2
    obtain ⟨known, -, h⟩ := Checked.bind_eq_ok.1 h
    obtain ⟨cls, -, h⟩ := Checked.bind_eq_ok.1 h
    cases h
    exact ⟨cls, rfl, rfl⟩

/-- Before anything has run, everything is sound. -/
theorem coherent_of_load {classes : List LoadClass} {log : Log} {image : Image} {store : Store}
    (loaded : Image.load classes = (log, .ok (image, store))) (Q : Closure Value → Prop)
    {m : Memory} (frames : m.frames = { birth := 1 }) (hstore : m.store = store) :
    m.Coherent image Q (· < m.store.rows.size) [] [] := by
  obtain ⟨cls, htranscript, rfl⟩ := load_eq loaded
  refine ⟨frames ▸ ⟨Arena.tidy_empty 1, Arena.balanced_empty 1, List.nodup_nil,
    List.forall_mem_nil _, fun f ha => ?_, List.forall_mem_nil _, fun f fr hf => ?_,
    fun f fr hf => ?_⟩, fun r hr => ⟨hr, fun v hv => ?_⟩, List.forall_mem_nil _, ?_⟩
  · obtain ⟨s, hs, -⟩ := ha
    cases hs
  · cases hf
  · cases hf
  · rw [hstore] at hr hv
    obtain rfl : r = 0 := Nat.lt_one_iff.1 hr
    have hv : v ∈ Array.replicate cls.numFields Value.nil := hv
    rw [Array.eq_of_mem_replicate hv]
    trivial
  · rw [htranscript, hstore]
    exact Nat.zero_lt_one

theorem coherent_start {classes : List LoadClass} {log : Log} {store : Store}
    (loaded : Image.load classes = (log, .ok (machine.image, store))) (transcript : Transcript) :
    (start store transcript).Coherent machine :=
  ⟨_, coherent_of_load loaded _ rfl rfl⟩

theorem Holds.sound {R : Ref → Prop} (hx : x.state.memory.Coherent machine.image
    (Made x.history x.state.memory.serial) R x.state.calls.calls x.host) {v : Value}
    (hv : x.Holds v) :
    x.state.memory.frames.Sound (Made x.history x.state.memory.serial) R v := by
  induction hv with
  | host hv => exact hx.host _ hv
  | operand hc hv => exact hx.arena.operands _ hc _ hv
  | slot hf hv => exact (hx.arena.frames _ _ hf).1.locals _ hv
  | self hf => exact (hx.arena.frames _ _ hf).1.receiver
  | left hf hv => exact (hx.arena.frames _ _ hf).1.left _ hv
  | element _ names hw ih => exact sound_of_names hx ih names hw
  | receiver _ ih => exact (Value.each_block.1 ih).2

/-- Closures that are held anywhere and calls in progress find their frames, and their homes from
there.  The enclosing handle of a closure names the very frame that carried out its block
instruction; following enclosing frames from there leads, over frames that are all there, to the
closure's home, which is a method frame and its own home. -/
structure Rooted (x : Session) : Prop where
  closures : ∀ c, x.Holds (.block c) →
    x.history.maker c.serial = some (x.history.number c.enclosing)
      ∧ x.history.home c.serial = some (x.history.number c.home)
      ∧ x.state.memory.frames.Belongs c.enclosing c.home
  calls : ∀ call ∈ x.state.calls.calls, ∃ fr, x.state.memory.frames.get? call.frame = some fr
    ∧ fr.code = call.code ∧ x.state.memory.frames.Belongs call.frame fr.home

/-- **Everything that is held is rooted,** whatever has been loaded and run. -/
theorem rooted_of_reached {classes : List LoadClass} {log : Log} {store : Store}
    {transcript : Transcript} (loaded : Image.load classes = (log, .ok (machine.image, store)))
    (reached : Relation.ReflTransGen (Move machine) (start store transcript) x) : x.Rooted := by
  have coherent : x.Coherent machine := by
    induction reached with
    | refl => exact coherent_start loaded transcript
    | tail _ hm ih => exact ih.move hm
  obtain ⟨R, hx⟩ := coherent
  refine ⟨fun c hc => ?_, fun call hcall => ?_⟩
  · have secure := (Value.each_block.1 (hc.sound hx)).1
    exact ⟨secure.also.maker, secure.also.home, secure.anchored.belongs⟩
  · obtain ⟨fr, hfr, code, -, anchored⟩ := hx.arena.call_frame hcall
    exact ⟨fr, hfr, code, anchored.belongs⟩

/-- The classes that a machine cannot do without, with no methods. -/
def bareClasses : List LoadClass :=
  ["UndefinedObject", "Boolean", "Integer", "Float", "Character", "String", "Array",
    "BlockDescriptor", "TranscriptStream"].map fun name => { name }

theorem bareClasses_load :
    ∃ log image store, Image.load bareClasses = (log, .ok (image, store)) := by
  simp [bareClasses, Image.load, Image.installAll, Image.install, Image.inherited, Image.linkAll,
    Image.finish, Image.knownClasses, Image.required, bind, Except.bind, pure, Except.pure]

/-- A method whose only instruction makes a closure. -/
def closureMaker : Code :=
  { block :=
      { name := "make"
        qualified := "make"
        bytecode := Instruction.encodeAll #[.block 0]
        blocks := #[{ name := "make-block0", qualified := "make-block0" }] }
    id := { method := 0 } }

/-! ## Host calls are moves -/

/-- The session after a host call: the host has got a value, or the call has failed. -/
def Ended (host : List Value) : Machine.Outcome → Session → Prop
  | .value v s, x => x.state = s ∧ x.host = v :: host
  | .failure _ s, x => x.state = s ∧ x.host = host

theorem run_moves (machine : Machine) (s : State) (host : List Value) (h : History) :
    ∃ x, Relation.ReflTransGen (Move machine) ⟨s, host, h⟩ x
      ∧ Ended host (machine.run s) x := by
  fun_induction machine.run s generalizing h with
  | case1 s after hs ih =>
    obtain ⟨x, reached, ended⟩ := ih ((h.making s).calling s after)
    exact ⟨x, .head (.step hs) reached, ended⟩
  | case2 s v after hs => exact ⟨_, .single (.finish hs), rfl, rfl⟩
  | case3 s f after hs => exact ⟨_, .single (.fail hs), rfl, rfl⟩

theorem settled_moves (machine : Machine) {host : List Value} {o : Machine.Outcome}
    (ended : Ended host o x) :
    ∃ x', Relation.ReflTransGen (Move machine) x x' ∧ Ended host o.settled x' := by
  cases o with
  | value v s => exact ⟨x, .refl, ended⟩
  | failure f s =>
    obtain ⟨state, host', h⟩ := x
    obtain ⟨rfl, rfl⟩ := ended
    exact ⟨_, .single .abandon, rfl, rfl⟩

/-- A call is entered, or there is no room for it and nothing changes. -/
theorem enter_cases (machine : Machine) (s : State) (callee : Callee) :
    (∃ s', machine.enter s callee = .running s')
      ∨ machine.enter s callee = s.fail .callStackOverflow := by
  unfold Machine.enter
  split
  · exact .inl ⟨_, rfl⟩
  · exact .inr rfl

/-- Running a method on values that the host holds is a sequence of moves. -/
theorem perform_moves {s : State} {host : List Value} {h : History}
    (hx : Coherent machine ⟨s, host, h⟩) {receiver : Value} {args : List Value} (code : Code)
    (hr : receiver ∈ host) (ha : ∀ v ∈ args, v ∈ host) :
    ∃ x, Relation.ReflTransGen (Move machine) ⟨s, host, h⟩ x
      ∧ Ended host (machine.perform s receiver code args) x := by
  have abandoned : Move machine ⟨s, host, h⟩ ⟨s.abandon, host, h⟩ := .abandon
  obtain ⟨R, hx⟩ := hx.move abandoned
  have asks : Asks machine.image s.abandon.memory host
      (invoke machine.image s.abandon.memory receiver code args) := .method code hr ha
  have after := Coherent.asks hx asks
  simp only [Machine.perform]
  cases hi : invoke machine.image s.abandon.memory receiver code args with
  | answer v m => exact ⟨_, .tail (.single abandoned) (.answer (hi ▸ asks)), rfl, rfl⟩
  | fault cause m =>
    rw [hi] at after
    obtain rfl : m = s.abandon.memory := after
    exact ⟨_, .single abandoned, rfl, rfl⟩
  | enter callee m =>
    rw [hi] at after
    obtain rfl : m = s.abandon.memory := after.1
    dsimp only
    rcases enter_cases machine ⟨s.abandon.memory, s.abandon.calls⟩ callee with ⟨s', he⟩ | he
    · rw [he]
      have entered : Move machine ⟨s.abandon, host, h⟩
          ⟨s', host, h.calling s.abandon s'⟩ := .enter (hi ▸ asks) he
      obtain ⟨x, reached, ended⟩ := run_moves machine s' host (h.calling s.abandon s')
      obtain ⟨x', settled, ended⟩ := settled_moves machine ended
      exact ⟨x', ((Relation.ReflTransGen.single abandoned).tail entered).trans
        (reached.trans settled), ended⟩
    · rw [he]
      exact ⟨_, (Relation.ReflTransGen.single abandoned).tail .abandon, rfl, rfl⟩

/-- Sending a message to a value that the host holds is a sequence of moves. -/
theorem send_moves {s : State} {host : List Value} {h : History}
    (hx : Coherent machine ⟨s, host, h⟩) {receiver : Value} {args : List Value} (selector : String)
    (hr : receiver ∈ host) (ha : ∀ v ∈ args, v ∈ host) :
    ∃ x, Relation.ReflTransGen (Move machine) ⟨s, host, h⟩ x
      ∧ Ended host (machine.send s receiver selector args) x := by
  unfold Machine.send
  split
  · exact perform_moves hx _ hr ha
  · exact ⟨_, .refl, rfl, rfl⟩

/-- Running the main method is a sequence of moves. -/
theorem runMain_moves {s : State} {host : List Value} {h : History}
    (hx : Coherent machine ⟨s, host, h⟩) :
    ∃ x, Relation.ReflTransGen (Move machine) ⟨s, host, h⟩ x
      ∧ Ended host (machine.runMain s) x := by
  unfold Machine.runMain
  split
  · have made : Move machine ⟨s, host, h⟩ ⟨s, .nil :: host, h⟩ := .plain (.inl trivial)
    exact ⟨_, .single made, rfl, rfl⟩
  · split
    · exact ⟨_, .refl, rfl, rfl⟩
    · rename_i cls _ _ code _
      have made : Move machine ⟨s, host, h⟩ _ := .object cls
      obtain ⟨⟨state, host', h'⟩, reached, ended⟩ := perform_moves (hx.move made) code
        List.mem_cons_self (List.forall_mem_nil _)
      dsimp only
      generalize machine.perform _ _ code [] = o at ended ⊢
      -- the host has not held the new object before, and does not hold it after
      cases o with
      | value v s' =>
        obtain ⟨rfl, rfl⟩ := ended
        refine ⟨⟨state, v :: host, h'⟩, (Relation.ReflTransGen.head made reached).tail
          (.forget fun w hw => ?_), rfl, rfl⟩
        rcases List.mem_cons.1 hw with rfl | hw
        · exact List.mem_cons_self
        · exact List.mem_cons_of_mem _ (List.mem_cons_of_mem _ hw)
      | failure f s' =>
        obtain ⟨rfl, rfl⟩ := ended
        exact ⟨⟨state, host, h'⟩, (Relation.ReflTransGen.head made reached).tail
          (.forget fun w hw => List.mem_cons_of_mem _ hw), rfl, rfl⟩

end Session

end Colloquy
