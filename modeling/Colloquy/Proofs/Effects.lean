import Colloquy.Machine.Effect
import Colloquy.Proofs.Primitives

/-!
# What instructions do

`Call.Does` lists what an instruction can come to: it pushes a value that was there before, makes an
array or a closure, writes one variable, one field or one source position, hands a value on, or
calls a method on operands.  Whatever holds of all these holds of every instruction.

Main statement: `Call.execute_does`.
-/

namespace Colloquy

variable {m m' : Memory}

/-! ## Computations and memories -/

/-- A computation in two parts has a value if both parts have one. -/
theorem Checked.bind_eq_ok {α β : Type} {x : Checked α} {f : α → Checked β} {b : β} :
    (x >>= f) = .ok b ↔ ∃ a, x = .ok a ∧ f a = .ok b := by
  cases x with
  | ok a => simp [bind, Except.bind]
  | error e => simp [bind, Except.bind]

theorem Memory.frame_eq_ok {f : FrameId} {fr : Frame Value} (h : m.frame f = .ok fr) :
    m.frames.get? f = some fr := by
  unfold frame at h
  split at h
  · rename_i hf
    rw [hf, Except.ok.inj h]
  · simp at h

theorem Memory.receiver_eq_ok {f : FrameId} {v : Value}
    (h : (m.frame f).map (·.receiver) = .ok v) :
    ∃ fr, m.frames.get? f = some fr ∧ fr.receiver = v := by
  cases here : m.frame f with
  | error e =>
    rw [here] at h
    cases h
  | ok fr =>
    rw [here] at h
    exact ⟨fr, frame_eq_ok here, Except.ok.inj h⟩

/-- A field that is there is one of the object that the frame's code runs for. -/
theorem Memory.fieldRow_eq_ok {i : Image} {f : FrameId} {index : Nat} {r : Ref}
    (h : m.fieldRow i f index = .ok r) :
    ∃ fr cls, m.frames.get? f = some fr ∧ fr.receiver = .object cls r
      ∧ index < (m.store.row r).size := by
  obtain ⟨fr, here, h⟩ := Checked.bind_eq_ok.1 h
  split at h
  · rename_i cls row object
    dsimp only at h
    split at h
    · rename_i inside
      cases h
      exact ⟨fr, cls, frame_eq_ok here, object, inside⟩
    · cases h
  · cases h

/-- A global name stands for `nil`, for the transcript or for a class. -/
theorem Image.lookup_cases {i : Image} {name : String} {v : Value}
    (found : i.lookup name = some v) :
    v = .nil ∨ v = i.transcript ∨ ∃ cls, i.byName[name]? = some cls ∧ v = .cls cls := by
  unfold lookup at found
  split at found
  · exact .inl (Option.some.inj found).symm
  · split at found
    · exact .inr (.inl (Option.some.inj found).symm)
    · obtain ⟨cls, here, rfl⟩ := Option.map_eq_some_iff.1 found
      exact .inr (.inr ⟨cls, here, rfl⟩)

/-- The memories differ in frames and logs at most. -/
structure Memory.SameData (m m' : Memory) : Prop where
  store : m'.store = m.store
  serial : m'.serial = m.serial
  transcript : m'.transcript = m.transcript

theorem Memory.SameData.refl (m : Memory) : m.SameData m := ⟨rfl, rfl, rfl⟩

theorem Memory.SameData.trans {m'' : Memory} (h : m.SameData m') (h' : m'.SameData m'') :
    m.SameData m'' :=
  ⟨h'.store.trans h.store, h'.serial.trans h.serial, h'.transcript.trans h.transcript⟩

theorem Memory.SameData.trace (m : Memory) (line : Memory → String) : m.SameData (m.trace line) :=
  ⟨m.store_trace line, m.serial_trace line, m.transcript_trace line⟩

/-- The memories differ in what was logged at most. -/
structure Memory.Logs (m m' : Memory) : Prop where
  frames : m'.frames = m.frames
  data : m.SameData m'

theorem Memory.Logs.refl (m : Memory) : m.Logs m := ⟨rfl, .refl m⟩

theorem Memory.Logs.trace (m : Memory) (line : Memory → String) : m.Logs (m.trace line) :=
  ⟨m.frames_trace line, .trace m line⟩

theorem Memory.Logs.trans {m'' : Memory} (h : m.Logs m') (h' : m'.Logs m'') : m.Logs m'' :=
  ⟨h'.frames.trans h.frames, h.data.trans h'.data⟩

/-! ## Effects and replies -/

/-- The values that a callee is given. -/
def Callee.values : Callee → List Value
  | method _ receiver args => receiver :: args
  | block closure args => .block closure :: args

namespace Effect

/-- The operands that an instruction leaves. -/
def stack : Effect → List Value
  | next stack _ | enter stack _ _ | finish stack _ _ | escape stack _ _ | fault stack _ _ => stack

def memory : Effect → Memory
  | next _ m | enter _ _ m | finish _ _ m | escape _ _ m | fault _ _ m => m

/-- The values that an instruction hands on. -/
def values : Effect → List Value
  | enter _ callee _ => callee.values
  | finish _ v _ | escape _ v _ => [v]
  | next _ _ | fault _ _ _ => []

end Effect

/-- The memory that a method call leaves. -/
def Reply.memory : Reply → Memory
  | .answer _ m | .enter _ m | .fault _ m => m

/-- What a call goes on with after the reply of a method that it called. -/
def Reply.effect (below : List Value) : Reply → Effect
  | .answer v m => .next (v :: below) m
  | .enter callee m => .enter below callee m
  | .fault cause m => .fault below cause m

theorem Reply.memory_effect (below : List Value) (reply : Reply) :
    (reply.effect below).memory = reply.memory := by
  cases reply <;> rfl

namespace Call

/-- Where a value that an instruction pushes has come from. -/
inductive Fetches (c : Call) (i : Image) (m : Memory) : Value → Prop where
  | simple {v : Value} (h : v.Simple) : Fetches c i m v
  | global {name : String} {v : Value} (h : i.lookup name = some v) : Fetches c i m v
  | self {fr : Frame Value} (here : m.frames.get? c.frame = some fr) : Fetches c i m fr.receiver
  | slot {f : FrameId} {fr : Frame Value} {v : Value} (here : m.frames.get? f = some fr)
      (hv : v ∈ fr.locals) : Fetches c i m v
  | field {fr : Frame Value} {cls : Class} {r : Ref} {v : Value}
      (here : m.frames.get? c.frame = some fr) (object : fr.receiver = .object cls r)
      (hv : v ∈ m.store.row r) : Fetches c i m v

/-- The instruction sends a message with `argc` arguments, which `receiver` answers with `code`. -/
inductive Selects (c : Call) (i : Image) (receiver : Value) (code : Code) (argc : Nat) :
    Instruction → Prop where
  | send {count index : UInt16} {selector : String} (arity : count.toNat = argc)
      (named : c.literal index = .ok selector) (found : i.method receiver selector = .ok code) :
      Selects c i receiver code argc (.send count index)
  | sendSuper {count index : UInt16} {selector : String} (arity : count.toNat = argc)
      (named : c.literal index = .ok selector)
      (found : i.superMethod c.code receiver selector = .ok code) :
      Selects c i receiver code argc (.sendSuper count index)

/-- **What an instruction can come to.** -/
inductive Does (c : Call) (i : Image) (m : Memory) : Instruction → Effect → Prop where
  | push {instruction : Instruction} {v : Value} (fetched : c.Fetches i m v) :
      Does c i m instruction (.next (v :: c.stack) m)
  | array {instruction : Instruction} {values : Array Value} {below : List Value}
      (operands : c.stack = values.toList.reverse ++ below) :
      Does c i m instruction (.next ((m.newArray values).2 :: below) (m.newArray values).1)
  | pop {v : Value} {below : List Value} (operands : c.stack = v :: below) :
      Does c i m .pop (.next below m)
  | storeField {index : UInt16} {v : Value} {below : List Value} {row : Ref}
      (operands : c.stack = v :: below) (found : m.fieldRow i c.frame index.toNat = .ok row) :
      Does c i m (.storeField index)
        (.next c.stack { m with store := m.store.set row index.toNat v })
  | storeLocal {depth slot : UInt16} {v : Value} {below : List Value} {holder : FrameId}
      (operands : c.stack = v :: below) (found : m.localFrame c.frame depth slot = .ok holder) :
      Does c i m (.storeLocal depth slot) (.next c.stack (m.setLocal holder slot.toNat v))
  | block {index : UInt16} {closure : Closure Value}
      (made : m.closure c.frame index.toNat = .ok closure) :
      Does c i m (.block index) (.next (.block closure :: c.stack)
        { m with frames := m.frames.pin c.frame, serial := m.serial + 1 })
  | debug (file : UInt16) (position : Position) :
      Does c i m (.debug file position) (.next c.stack
        (m.setPlace c.frame { file := c.code.block.literal? file, position }))
  | finish {v : Value} {below : List Value} (operands : c.stack = v :: below) :
      Does c i m .blockReturn (.finish below v m)
  | escape {v : Value} {below : List Value} (operands : c.stack = v :: below) :
      Does c i m .ret (.escape below v m)
  | send {instruction : Instruction} {receiver : Value} {args below : List Value} {code : Code}
      {m₁ : Memory} {effect : Effect} (selects : c.Selects i receiver code args.length instruction)
      (operands : c.stack = args.reverse ++ receiver :: below) (logged : m.Logs m₁)
      (replies : (invoke i m₁ receiver code args).effect below = effect) :
      Does c i m instruction effect
  | fault {instruction : Instruction} (cause : Cause) :
      Does c i m instruction (.fault c.stack cause m)

variable {c : Call} {i : Image} {m : Memory} {v : Value}

/-! ## Pushes -/

theorem does_push {instruction : Instruction} {x : Checked Value}
    (fetched : ∀ v, x = .ok v → c.Fetches i m v) :
    c.Does i m instruction (.push c.stack m x) := by
  cases x with
  | ok v => exact .push (fetched v rfl)
  | error e => exact .fault e

theorem fetches_self (h : (m.frame c.frame).map (·.receiver) = .ok v) : c.Fetches i m v := by
  obtain ⟨fr, here, rfl⟩ := Memory.receiver_eq_ok h
  exact .self here

theorem fetches_character {code : UInt16} (h : character code = .ok v) : c.Fetches i m v := by
  unfold character at h
  split at h
  · cases h
    exact .simple trivial
  · cases h

theorem fetches_literal {index : UInt16} {id : StringId}
    (h : (c.literal index).map (.string id) = .ok v) : c.Fetches i m v := by
  cases named : c.literal index with
  | error e =>
    rw [named] at h
    cases h
  | ok text =>
    rw [named] at h
    cases h
    exact .simple trivial

theorem global_eq_ok {index : UInt16} (h : c.global i index = .ok v) :
    ∃ name, c.literal index = .ok name ∧ i.lookup name = some v := by
  obtain ⟨name, named, h⟩ := Checked.bind_eq_ok.1 h
  split at h
  · rename_i w found
    cases h
    exact ⟨name, named, found⟩
  · cases h

theorem fetches_global {index : UInt16} (h : c.global i index = .ok v) : c.Fetches i m v := by
  obtain ⟨name, -, found⟩ := global_eq_ok h
  exact .global found

theorem fetches_local {depth slot : UInt16} (h : m.loadLocal c.frame depth slot = .ok v) :
    c.Fetches i m v := by
  obtain ⟨holder, -, h⟩ := Checked.bind_eq_ok.1 h
  obtain ⟨fr, here, h⟩ := Checked.bind_eq_ok.1 h
  split at h
  · rename_i w found
    cases h
    exact .slot (Memory.frame_eq_ok here) (Array.mem_of_getElem? found)
  · cases h

theorem fetches_field {index : Nat} (h : m.loadField i c.frame index = .ok v) :
    c.Fetches i m v := by
  obtain ⟨row, found, h⟩ := Checked.bind_eq_ok.1 h
  cases h
  obtain ⟨fr, cls, here, object, inside⟩ := Memory.fieldRow_eq_ok found
  refine .field here object ?_
  rw [Array.getD_eq_getD_getElem?, Array.getElem?_eq_getElem inside]
  exact Array.getElem_mem inside

/-! ## Other instructions -/

theorem does_array (instruction : Instruction) (count : Nat) :
    c.Does i m instruction (c.buildArray m count) := by
  unfold buildArray
  split
  · exact .fault _
  · refine .array ?_
    rw [List.toList_toArray, List.reverse_reverse, List.take_append_drop]

theorem does_storeField (index : UInt16) :
    c.Does i m (.storeField index) (c.storeField i m index.toNat) := by
  unfold storeField
  split
  · exact .fault _
  · rename_i operands
    split
    · rename_i found
      exact .storeField operands found
    · exact .fault _

theorem does_storeLocal (depth slot : UInt16) :
    c.Does i m (.storeLocal depth slot) (c.storeLocal m depth slot) := by
  unfold storeLocal
  split
  · exact .fault _
  · rename_i operands
    split
    · rename_i found
      exact .storeLocal operands found
    · exact .fault _

theorem does_block (index : UInt16) : c.Does i m (.block index) (c.makeClosure m index.toNat) := by
  unfold makeClosure
  split
  · rename_i made
    exact .block made
  · exact .fault _

theorem does_send {instruction : Instruction} {argc : Nat} {selector : String}
    {find : Value → Checked Code}
    (selects : ∀ receiver code, find receiver = .ok code →
      c.Selects i receiver code argc instruction) :
    c.Does i m instruction (c.send i m argc selector find) := by
  unfold send
  split
  · exact .fault _
  · rename_i receiver below dropped
    split
    · exact .fault _
    · rename_i code found
      have enough : argc < c.stack.length := by
        rw [← (not_congr List.drop_eq_nil_iff).trans Nat.not_le, dropped]
        exact List.cons_ne_nil _ _
      have taken : (c.stack.take argc).reverse.length = argc := by
        rw [List.length_reverse, List.length_take, Nat.min_eq_left (Nat.le_of_lt enough)]
      have operands : c.stack = (c.stack.take argc).reverse.reverse ++ receiver :: below := by
        rw [List.reverse_reverse, ← dropped, List.take_append_drop]
      dsimp only
      generalize htrace : m.trace _ = m₁
      have logged : m.Logs m₁ := htrace ▸ .trace m _
      refine .send (taken.symm ▸ selects receiver code found) operands logged ?_
      cases invoke i m₁ receiver code (c.stack.take argc).reverse <;> rfl

/-- **Every instruction does one of these things.** -/
theorem execute_does (c : Call) (i : Image) (m : Memory) (instruction : Instruction) :
    c.Does i m instruction (c.execute i m instruction) := by
  cases instruction with
  | pushNil | pushTrue | pushFalse | pushInt | pushFloat => exact .push (.simple trivial)
  | pushSelf => exact does_push fun v => fetches_self
  | pushChar code => exact does_push fun v => fetches_character
  | pushArray count => exact does_array _ count.toNat
  | pushLiteral index => exact does_push fun v => fetches_literal
  | pushGlobal index => exact does_push fun v => fetches_global
  | pushField index => exact does_push fun v => fetches_field
  | pushLocal depth slot => exact does_push fun v => fetches_local
  | pop =>
    simp only [execute]
    split
    · exact .fault _
    · rename_i operands
      exact .pop operands
  | storeField index => exact does_storeField index
  | storeLocal depth slot => exact does_storeLocal depth slot
  | ret =>
    simp only [execute]
    split
    · exact .fault _
    · rename_i operands
      exact .escape operands
  | send count index =>
    simp only [execute]
    split
    · rename_i selector named
      exact does_send fun receiver code found => .send rfl named found
    · exact .fault _
  | sendSuper count index =>
    simp only [execute]
    split
    · rename_i selector named
      exact does_send fun receiver code found => .sendSuper rfl named found
    · exact .fault _
  | block index => exact does_block index
  | blockReturn =>
    simp only [execute]
    split
    · exact .fault _
    · rename_i operands
      exact .finish operands
  | debug file position => exact .debug file position

namespace Does

variable {instruction : Instruction} {stack : List Value} {callee : Callee} {cause : Cause}
  {m' : Memory}

/-- Only a send makes a call wait. -/
theorem of_enter (h : c.Does i m instruction (.enter stack callee m')) :
    ∃ receiver args code m₁, c.Selects i receiver code args.length instruction
      ∧ c.stack = args.reverse ++ receiver :: stack ∧ m.Logs m₁
      ∧ invoke i m₁ receiver code args = .enter callee m' := by
  cases h with
  | @send _ receiver args _ code m₁ _ selects operands logged replies =>
    cases reply : invoke i m₁ receiver code args with
    | enter callee m₂ =>
      rw [reply] at replies
      cases replies
      exact ⟨receiver, args, code, m₁, selects, operands, logged, reply⟩
    | answer v m₂ | fault e m₂ =>
      rw [reply] at replies
      cases replies

/-- Only a return ends a call. -/
theorem of_finish (h : c.Does i m instruction (.finish stack v m')) :
    instruction = .blockReturn ∧ m' = m ∧ c.stack = v :: stack := by
  cases h with
  | finish operands => exact ⟨rfl, rfl, operands⟩
  | @send _ receiver args _ code m₁ _ _ _ _ replies =>
    cases hr : invoke i m₁ receiver code args <;> rw [hr] at replies <;> cases replies

theorem of_escape (h : c.Does i m instruction (.escape stack v m')) :
    instruction = .ret ∧ m' = m ∧ c.stack = v :: stack := by
  cases h with
  | escape operands => exact ⟨rfl, rfl, operands⟩
  | @send _ receiver args _ code m₁ _ _ _ _ replies =>
    cases hr : invoke i m₁ receiver code args <;> rw [hr] at replies <;> cases replies

/-- An instruction that fails has changed nothing; it may have taken operands. -/
theorem of_fault (h : c.Does i m instruction (.fault stack cause m')) :
    m.Logs m' ∧ stack <:+ c.stack := by
  cases h with
  | fault => exact ⟨.refl m, List.suffix_refl _⟩
  | @send _ receiver args _ code m₁ _ _ operands logged replies =>
    cases reply : invoke i m₁ receiver code args with
    | answer v m₂ | enter callee m₂ =>
      rw [reply] at replies
      cases replies
    | fault e m₂ =>
      have gives := invoke_gives i m₁ receiver code args
      rw [reply] at gives replies
      cases replies
      obtain ⟨-, -, entered⟩ | gives := gives
      · cases entered
      · cases gives
        refine ⟨logged, ?_⟩
        rw [operands]
        exact (List.suffix_cons _ _).trans (List.suffix_append _ _)

end Does

end Call

end Colloquy
