import Colloquy.Proofs.Coherence.Changes
import Colloquy.Proofs.Effects
import Colloquy.Proofs.Matching

/-!
# Instructions keep memory coherent

Whatever an instruction pushes, stores or hands on is sound, because it was on the operand stack, in
a frame or in a reachable row before, or is a new closure over the frame of the call, which then
keeps that frame (`Call.execute_coherent`).  What primitives do is read off from what they do with
matching operands: sound values are those that match themselves.
-/

namespace Colloquy

variable {Q : Closure Value → Prop} {R : Ref → Prop} {image : Image} {m m₁ : Memory}
  {calls rest : List Call} {c : Call} {host args : List Value} {v receiver : Value}

/-! ## Soundness as matching -/

/-- The closure is the same, and has property `P`. -/
def Closure.Same (P : Closure Value → Prop) (c c' : Closure Value) : Prop := c' = c ∧ P c

theorem Value.Each.match {P : Closure Value → Prop} :
    ∀ {v : Value}, v.Each P R → v.Match (Closure.Same P) R v
  | .array _, h => .array h
  | .object k _, h => .object k h
  | .block ⟨_, _, _, _, _⟩, h => .block ⟨rfl, h.1⟩ rfl rfl h.2.match
  | .nil, _ => .nil
  | .bool b, _ => .bool b
  | .int n, _ => .int n
  | .float x, _ => .float x
  | .char c, _ => .char c
  | .string id text, _ => .string id text
  | .cls c, _ => .cls c

theorem Value.Simple.each {P : Closure Value → Prop} (h : v.Simple) : v.Each P R := by
  cases v <;> first | exact h.elim | trivial

theorem Value.Match.each {P : Closure Value → Prop} {v' : Value}
    (h : v.Match (Closure.Same P) R v') : v.Each P R := by
  induction h with
  | array row => exact row
  | object _ row => exact row
  | block related _ _ _ ih => exact Value.each_block.2 ⟨related.2, ih⟩
  | _ => trivial

theorem Value.Match.each_all {P : Closure Value → Prop} {vs vs' : List Value}
    (h : List.Forall₂ (Value.Match (Closure.Same P) R) vs vs') : ∀ v ∈ vs, v.Each P R := by
  induction h with
  | nil => simp
  | cons hv _ ih => exact List.forall_mem_cons.2 ⟨hv.each, ih⟩

theorem Store.Coherent.match {a : Arena Value} {s : Store} (h : s.Coherent a Q R) :
    s.Match (Closure.Same (a.Secures Q)) R s :=
  ⟨rfl, fun r hr => ⟨(h r hr).1, List.forall₂_same.2 fun v hv =>
    Value.Each.match ((h r hr).2 v (Array.mem_toList_iff.1 hv))⟩⟩

theorem Store.Match.coherent {a : Arena Value} {s s' : Store}
    (h : s.Match (Closure.Same (a.Secures Q)) R s') : s.Coherent a Q R := fun r hr =>
  ⟨(h.rows r hr).1, fun v hv => Value.Match.each_all (h.row hr) v (Array.mem_toList_iff.2 hv)⟩

/-! ## Replies -/

namespace Memory

/-- Rows have been added or changed, and the host gets hold of another value. -/
theorem Coherent.restore (h : m.Coherent image Q R calls host) {R' : Ref → Prop}
    (grown : ∀ r, R r → R' r) (frames : m₁.frames = m.frames)
    (store : m₁.store.Coherent m.frames Q R') : m₁.Coherent image Q R' calls host where
  arena := frames ▸ h.arena.mono (fun _ hc => hc.also) grown
  store := frames ▸ store
  host v hv := frames ▸ (h.host v hv).mono (fun _ hc => hc.also) grown
  transcript := frames ▸ h.transcript.mono (fun _ hc => hc.also) grown

/-- What is logged does not matter. -/
theorem Coherent.relog (h : m.Coherent image Q R calls host) (logs : m.Logs m₁) :
    m₁.Coherent image Q R calls host :=
  h.congr logs.frames logs.data.store

/-- Memory after something has happened in memory `m`: identities and rows may have been added, and
what was reachable still is. -/
structure Follows (m₁ m : Memory) (image : Image) (Q : Closure Value → Prop) (R : Ref → Prop)
    (calls : List Call) (host : List Value) : Prop where
  serial : m.serial ≤ m₁.serial
  coherent : m₁.Coherent image Q (m.store.Grown m₁.store R) calls host

/-- What was logged before does not matter. -/
theorem Follows.after {m₀ : Memory} (logs : m₀.Logs m) (h : m₁.Follows m image Q R calls host) :
    m₁.Follows m₀ image Q R calls host :=
  ⟨logs.data.serial ▸ h.serial, logs.data.store ▸ h.coherent⟩

/-- What is logged afterwards does not matter either. -/
theorem Follows.before {m₂ : Memory} (h : m₁.Follows m image Q R calls host)
    (logs : m₁.Logs m₂) : m₂.Follows m image Q R calls host :=
  ⟨logs.data.serial.symm ▸ h.serial, by simpa only [logs.data.store] using h.coherent.relog logs⟩

/-- No row has been made. -/
theorem follows_of_size (size : m₁.store.rows.size = m.store.rows.size)
    (serial : m.serial ≤ m₁.serial) (h : m₁.Coherent image Q R calls host) :
    m₁.Follows m image Q R calls host := by
  refine ⟨serial, ?_⟩
  rwa [Store.grown_of_size size]

theorem Coherent.follows (h : m.Coherent image Q R calls host) :
    m.Follows m image Q R calls host := follows_of_size rfl (Nat.le_refl _) h

/-- What a memory is like after a reply, and what comes with it. -/
def AfterReply (image : Image) (Q : Closure Value → Prop) (R : Ref → Prop) (m : Memory)
    (calls : List Call) (host : List Value) : Reply → Prop
  | .answer v m₁ => m₁.Follows m image Q R calls (v :: host)
  | .enter callee m₁ => m₁ = m ∧ ∀ v ∈ callee.values, m.frames.Sound Q R v
  | .fault _ m₁ => m₁ = m

theorem Coherent.cons (h : m.Coherent image Q R calls host) (hv : m.frames.Sound Q R v) :
    m.Coherent image Q R calls (v :: host) :=
  h.hold (List.forall_mem_cons.2 ⟨hv, h.host⟩)

theorem Coherent.afterReply {reply reply' : Reply} (h : m.Coherent image Q R calls host)
    (hr : Reply.Match (Closure.Same (m.frames.Secures Q)) R m m reply reply') :
    AfterReply image Q R m calls host reply := by
  cases hr with
  | answer beside _ hm hv =>
    refine ⟨beside.serial, (h.restore (fun _ => .inl) beside.frames hm.store.coherent).cons ?_⟩
    rw [beside.frames]
    exact hv.each
  | enter hc =>
    refine ⟨rfl, ?_⟩
    cases hc with
    | method code hr ha => exact List.forall_mem_cons.2 ⟨hr.each, Value.Match.each_all ha⟩
    | block hc ha => exact List.forall_mem_cons.2 ⟨hc.each, Value.Match.each_all ha⟩
  | fault cause => rfl

theorem Coherent.match (h : m.Coherent image Q R calls host) :
    m.Match (Closure.Same (m.frames.Secures Q)) R m := ⟨h.store.match, rfl, rfl⟩

/-- Calling a method on sound values. -/
theorem Coherent.invoke (h : m.Coherent image Q R calls host)
    (hr : m.frames.Sound Q R receiver) (ha : ∀ v ∈ args, m.frames.Sound Q R v) (code : Code) :
    AfterReply image Q R m calls host (invoke image m receiver code args) :=
  h.afterReply (invoke_match h.match hr.match
    (List.forall₂_same.2 fun v hv => (ha v hv).match) code)

/-- Carrying out a primitive on sound values. -/
theorem Coherent.apply (h : m.Coherent image Q R calls host)
    (hr : m.frames.Sound Q R receiver) (ha : ∀ v ∈ args, m.frames.Sound Q R v) (p : Primitive) :
    AfterReply image Q R m calls host (p.apply image m receiver args) :=
  h.afterReply (p.apply_match h.match hr.match
    (List.forall₂_same.2 fun v hv => (ha v hv).match))

theorem Coherent.newArray (h : m.Coherent image Q R calls host) {values : Array Value}
    (hv : ∀ v ∈ values, m.frames.Sound Q R v) :
    (m.newArray values).1.Coherent image Q (m.store.Grown (m.newArray values).1.store R) calls
      ((m.newArray values).2 :: host) := by
  obtain ⟨hm, hnew⟩ := h.match.newArray
    (List.forall₂_same.2 fun v hv' => (hv v (Array.mem_toList_iff.1 hv')).match)
  refine Coherent.cons ?_ hnew.each
  exact h.restore (fun _ => .inl) rfl hm.store.coherent

theorem Coherent.instantiate (h : m.Coherent image Q R calls host) (cls : Class) :
    ({ m with store := (Image.instantiate m.store cls).1 } : Memory).Coherent image Q
      (m.store.Grown (Image.instantiate m.store cls).1 R) calls
      ((Image.instantiate m.store cls).2 :: host) := by
  obtain ⟨hm, hnew⟩ := Image.instantiate_match h.store.match cls
  refine Coherent.cons ?_ hnew.each
  exact h.restore (fun _ => .inl) rfl hm.coherent

theorem Coherent.set (h : m.Coherent image Q R calls host) (r : Ref) (k : Nat)
    (hv : m.frames.Sound Q R v) :
    ({ m with store := m.store.set r k v } : Memory).Coherent image Q R calls host :=
  h.restore (fun _ => id) rfl (h.store.match.set k hv.match).coherent

/-! ## Variables -/

theorem Coherent.setLocal (h : m.Coherent image Q R calls host) (f : FrameId) (slot : Nat)
    (hv : m.frames.Sound Q R v) : (m.setLocal f slot v).Coherent image Q R calls host := by
  have links (fr : Frame Value) :
      fr.SameLinks { fr with locals := fr.locals.setIfInBounds slot v } := ⟨rfl, rfl, rfl, rfl, rfl⟩
  refine h.reframe (h.arena.modify links (fun _ => rfl) fun fr _ hs => ?_)
    (Arena.persists_modify links) rfl
  refine ⟨fun w hw => ?_, hs.receiver, hs.left⟩
  rcases Array.mem_or_eq_of_mem_setIfInBounds hw with hw | rfl
  · exact hs.locals w hw
  · exact hv

theorem Coherent.setPlace (h : m.Coherent image Q R calls host) (f : FrameId) (place : Place) :
    (m.setPlace f place).Coherent image Q R calls host := by
  have links (fr : Frame Value) : fr.SameLinks { fr with place } := ⟨rfl, rfl, rfl, rfl, rfl⟩
  exact h.reframe (h.arena.modify links (fun _ => rfl) fun fr _ hs =>
    ⟨hs.locals, hs.receiver, hs.left⟩) (Arena.persists_modify links) rfl

theorem Coherent.receiver_sound (h : m.Coherent image Q R (c :: rest) host) {fr : Frame Value}
    (here : m.frames.get? c.frame = some fr) : m.frames.Sound Q R fr.receiver :=
  (h.arena.frames c.frame fr here).1.receiver

/-- A global name stands for the transcript or for what refers to nothing that changes. -/
theorem Coherent.lookup (h : m.Coherent image Q R calls host) {name : String}
    (found : image.lookup name = some v) : m.frames.Sound Q R v := by
  obtain rfl | rfl | ⟨cls, -, rfl⟩ := Image.lookup_cases found
  · trivial
  · exact h.transcript
  · trivial

/-- **A new closure keeps the frame that makes it.** -/
theorem Coherent.closure (h : m.Coherent image Q R (c :: rest) host) {index : Nat}
    {closure : Closure Value} (hc : m.closure c.frame index = .ok closure) (also : Q closure) :
    ({ m with frames := m.frames.pin c.frame, serial := m.serial + 1 } : Memory).Coherent image Q R
      (c :: rest) (.block closure :: host) := by
  obtain ⟨fr, hf, hc⟩ := Checked.bind_eq_ok.1 hc
  obtain ⟨home, hh, hc⟩ := Checked.bind_eq_ok.1 hc
  dsimp only at hc
  split at hc
  · rename_i nested
    cases hc
    have hget := frame_eq_ok hf
    obtain ⟨s, hs, -⟩ := Arena.get?_eq_some_iff.1 hget
    obtain ⟨sound, anchored⟩ := h.arena.frames c.frame fr hget
    refine Coherent.cons (h.reframe h.arena.pin Arena.persists_pin rfl) ?_
    refine Value.each_block.2 ⟨⟨h.arena.balanced.keeps_pin hs, ?_, ?_, also⟩, ?_⟩
    · exact anchored.persist Arena.persists_pin (Arena.lasts_of_get? Arena.get?_pin)
    · exact ⟨home, index, Arena.get?_pin.trans (frame_eq_ok hh), nested⟩
    · exact Arena.Sound.persist Arena.persists_pin sound.receiver
  · cases hc

end Memory

/-! ## Instructions -/

namespace Effect

/-- Memory after an instruction of call `c`, which was innermost. -/
def Coherent (image : Image) (Q : Closure Value → Prop) (R : Ref → Prop) (m : Memory) (c : Call)
    (rest : List Call) (host : List Value) (e : Effect) : Prop :=
  e.memory.Follows m image Q R ({ c with stack := e.stack } :: rest) (e.values ++ host)

/-- Memory is as before, and all values come from there. -/
theorem coherent_of_memory {e : Effect} (h : m.Coherent image Q R (c :: rest) host)
    (memory : e.memory = m) (stack : ∀ v ∈ e.stack, m.frames.Sound Q R v)
    (values : ∀ v ∈ e.values, m.frames.Sound Q R v) : e.Coherent image Q R m c rest host := by
  rw [Coherent, memory]
  refine Memory.Coherent.follows (h.restack rfl rfl stack fun v hv => ?_)
  exact (List.mem_append.1 hv).elim (values v) (h.host v)

/-- What a method call comes to, once its operands have been taken. -/
theorem coherent_reply {reply : Reply} {below : List Value}
    (h : m.Coherent image Q R (c :: rest) host)
    (after : m.AfterReply image Q R (c :: rest) host reply) (sub : below ⊆ c.stack) :
    (reply.effect below).Coherent image Q R m c rest host := by
  have left : ∀ v ∈ below, m.frames.Sound Q R v := fun v hv => h.stack_sound v (sub hv)
  cases reply with
  | answer v m₁ => exact ⟨after.serial, after.coherent.receive sub⟩
  | enter callee m₁ =>
    obtain ⟨rfl, sound⟩ := after
    exact coherent_of_memory h rfl left sound
  | fault cause m₁ =>
    obtain rfl := after
    exact coherent_of_memory h rfl left (List.forall_mem_nil _)

end Effect

namespace Call

/-- What an instruction pushes is sound. -/
theorem Fetches.sound (h : m.Coherent image Q R (c :: rest) host) (fetched : c.Fetches image m v) :
    m.frames.Sound Q R v := by
  cases fetched with
  | simple simple => exact simple.each
  | global found => exact h.lookup found
  | self here => exact h.receiver_sound here
  | slot here hv => exact (h.arena.frames _ _ here).1.locals v hv
  | @field fr cls r _ here object hv =>
    have row : m.frames.Sound Q R (.object cls r) := object ▸ h.receiver_sound here
    exact (h.store r row).2 v hv

/-- **Every instruction keeps memory coherent.** -/
theorem execute_coherent (h : m.Coherent image Q R (c :: rest) host)
    (instruction : Instruction) (also : ∀ index closure, instruction = .block index →
      m.closure c.frame index.toNat = .ok closure → Q closure) :
    (c.execute image m instruction).Coherent image Q R m c rest host := by
  have does := c.execute_does image m instruction
  generalize c.execute image m instruction = effect at does ⊢
  have operands (vs : List Value) {below : List Value} (stack : c.stack = vs ++ below) :
      (∀ v ∈ vs, m.frames.Sound Q R v) ∧ ∀ v ∈ below, m.frames.Sound Q R v :=
    List.forall_mem_append.1 (stack ▸ h.stack_sound)
  cases does with
  | push fetched =>
    exact Effect.coherent_of_memory h rfl
      (List.forall_mem_cons.2 ⟨fetched.sound h, h.stack_sound⟩) (List.forall_mem_nil _)
  | @array _ values below stack =>
    have sound : ∀ v ∈ values, m.frames.Sound Q R v := fun v hv =>
      (operands _ stack).1 v (List.mem_reverse.2 (Array.mem_toList_iff.2 hv))
    exact ⟨Nat.le_refl _, (h.newArray sound).receive (stack ▸ List.subset_append_right _ _)⟩
  | @pop v below stack =>
    exact Effect.coherent_of_memory h rfl (operands [v] stack).2 (List.forall_mem_nil _)
  | @storeField index v below row stack found =>
    have hv : m.frames.Sound Q R v := (operands [v] stack).1 v List.mem_cons_self
    exact Memory.follows_of_size (Store.size_set m.store row _ v) (Nat.le_refl _)
      (h.set row index.toNat hv)
  | @storeLocal depth slot v below holder stack found =>
    have hv : m.frames.Sound Q R v := (operands [v] stack).1 v List.mem_cons_self
    exact Memory.follows_of_size rfl (Nat.le_refl _) (h.setLocal holder slot.toNat hv)
  | block made =>
    exact Memory.follows_of_size rfl (Nat.le_succ _)
      ((h.closure made (also _ _ rfl made)).receive (List.Subset.refl _))
  | debug file position =>
    exact Memory.follows_of_size rfl (Nat.le_refl _) (h.setPlace c.frame _)
  | @finish v below stack | @escape v below stack =>
    obtain ⟨top, left⟩ := operands [v] stack
    exact Effect.coherent_of_memory h rfl left top
  | @send _ receiver args below code m₁ _ selects stack logged replies =>
    subst replies
    have traced := h.relog logged
    have split : c.stack = (args.reverse ++ [receiver]) ++ below := by simp [stack]
    obtain ⟨top, -⟩ := operands _ split
    have sound (v : Value) (hv : v ∈ receiver :: args) : m₁.frames.Sound Q R v :=
      logged.frames ▸ top v (by simpa [or_comm] using hv)
    have reply := traced.invoke (sound receiver List.mem_cons_self)
      (fun v hv => sound v (List.mem_cons_of_mem _ hv)) code
    exact .after logged (Effect.coherent_reply traced reply (split ▸ List.subset_append_right _ _))
  | fault cause =>
    exact Effect.coherent_of_memory h rfl h.stack_sound (List.forall_mem_nil _)

end Call

end Colloquy
