import Colloquy.Proofs.Renaming.Values
import Colloquy.Proofs.Returns

/-!
# Renamed frames

A machine that has been in use names frames by handles of its own.  Its arena *copies* another one
(`Arena.Copies`) if it has, by the renamed handle, every frame of the other with renamed contents.
Frames that nothing names are of no interest: an arena may have any number of others.

Main statement: an instruction carried out on a renamed call has the renamed effect
(`Call.execute_copies`), if it takes no identity hash of an object.
-/

namespace Colloquy

/-! ## Arenas -/

/-- The second frame is the first one, renamed; by whom it was called, and what it left, does not
matter. -/
structure Frame.Copies (ρ : Renaming) (fr fr' : Frame Value) : Prop where
  code : fr'.code = fr.code
  locals : fr'.locals = fr.locals.map ρ.value
  receiver : fr'.receiver = ρ.value fr.receiver
  enclosing : fr'.enclosing = fr.enclosing.map ρ.frame
  home : fr'.home = ρ.frame fr.home
  returned : fr'.returned = fr.returned
  place : fr'.place = fr.place

/-- The second arena has every frame of the first one, renamed, each in a slot of its own, and keeps
what the first one keeps. -/
structure Arena.Copies (ρ : Renaming) (a a' : Arena Value) : Prop where
  frames : ∀ f fr, a.get? f = some fr →
    ∃ fr', a'.get? (ρ.frame f) = some fr' ∧ fr.Copies ρ fr'
  distinct : ∀ f g fr gr, a.get? f = some fr → a.get? g = some gr →
    ρ.frame f = ρ.frame g → f = g
  keeps : ∀ f, a.Keeps f → a'.Keeps (ρ.frame f)

/-- The second memory is the first one, renamed. -/
structure Memory.Doubles (ρ : Renaming) (m m' : Memory) : Prop where
  data : m.Copies ρ m'
  frames : m.frames.Copies ρ m'.frames

def Renaming.call (ρ : Renaming) (c : Call) : Call :=
  { c with frame := ρ.frame c.frame, stack := c.stack.map ρ.value }

/-- The second effect is the first one, renamed. -/
inductive Effect.Copies (ρ : Renaming) : Effect → Effect → Prop where
  | next (stack : List Value) {m m' : Memory} (hm : m.Doubles ρ m') :
      Copies ρ (.next stack m) (.next (stack.map ρ.value) m')
  | enter (stack : List Value) (callee : Callee) {m m' : Memory} (hm : m.Doubles ρ m') :
      Copies ρ (.enter stack callee m) (.enter (stack.map ρ.value) (ρ.callee callee) m')
  | finish (stack : List Value) (v : Value) {m m' : Memory} (hm : m.Doubles ρ m') :
      Copies ρ (.finish stack v m) (.finish (stack.map ρ.value) (ρ.value v) m')
  | escape (stack : List Value) (v : Value) {m m' : Memory} (hm : m.Doubles ρ m') :
      Copies ρ (.escape stack v m) (.escape (stack.map ρ.value) (ρ.value v) m')
  | fault (stack : List Value) (cause : Cause) {m m' : Memory} (hm : m.Doubles ρ m') :
      Copies ρ (.fault stack cause m) (.fault (stack.map ρ.value) cause m')

variable {ρ : Renaming} {a a' : Arena Value} {m m' : Memory} {f g : FrameId}
  {fr : Frame Value} {v : Value}

namespace Arena.Copies

/-- A frame that is there is changed in both. -/
theorem modify (h : a.Copies ρ a') (there : a.get? f = some fr) {u u' : Frame Value → Frame Value}
    (hu : ∀ fr fr', fr.Copies ρ fr' → (u fr).Copies ρ (u' fr'))
    (links : ∀ fr, (u fr).enclosing = fr.enclosing)
    (links' : ∀ fr, (u' fr).enclosing = fr.enclosing) :
    (a.modify f u).Copies ρ (a'.modify (ρ.frame f) u') := by
  have before {g : FrameId} {gr : Frame Value} (hg : (a.modify f u).get? g = some gr) :
      ∃ old, a.get? g = some old ∧ (g = f ∧ gr = u old ∨ g ≠ f ∧ gr = old) := by
    rw [get?_modify] at hg
    split at hg
    · subst g
      rw [there] at hg ⊢
      exact ⟨fr, rfl, .inl ⟨rfl, (Option.some.inj hg).symm⟩⟩
    · exact ⟨gr, hg, .inr ⟨‹_›, rfl⟩⟩
  refine ⟨fun g gr hg => ?_, fun g k gr kr hg hk => ?_, fun g hg => ?_⟩
  · obtain ⟨old, hold, ⟨rfl, rfl⟩ | ⟨other, rfl⟩⟩ := before hg
    · obtain ⟨old', hold', copies⟩ := h.frames g old hold
      refine ⟨u' old', ?_, hu old old' copies⟩
      rw [get?_modify, if_pos rfl, hold']
      rfl
    · obtain ⟨old', hold', copies⟩ := h.frames g gr hold
      refine ⟨old', ?_, copies⟩
      rw [get?_modify, if_neg fun same => other (h.distinct g f gr fr hold there same), hold']
  · obtain ⟨old, hold, -⟩ := before hg
    obtain ⟨old', hold', -⟩ := before hk
    exact h.distinct g k old old' hold hold'
  · rw [keeps_modify links] at hg
    rw [keeps_modify links']
    exact h.keeps g hg

/-- A frame that is there is pinned in both. -/
theorem pin (h : a.Copies ρ a') (balanced : a'.Balanced) (there : a.get? f = some fr) :
    (a.pin f).Copies ρ (a'.pin (ρ.frame f)) := by
  refine ⟨fun g gr hg => ?_, fun g k gr kr hg hk => ?_, fun g hg => ?_⟩
  · rw [get?_pin] at hg ⊢
    exact h.frames g gr hg
  · rw [get?_pin] at hg hk
    exact h.distinct g k gr kr hg hk
  · by_cases same : g = f
    · obtain ⟨fr', there', -⟩ := h.frames f fr there
      obtain ⟨slot, hs, -⟩ := get?_eq_some_iff.1 there'
      rw [same]
      exact balanced.keeps_pin hs
    · rw [Keeps, enclosed_pin, pinCount_pin, if_neg (fun both => same both.1)] at hg
      exact (retains_pin.keeps (h.keeps g hg)).1

end Arena.Copies

/-- In a coherent arena the frame around a frame is there. -/
theorem Arena.Coherent.get?_enclosing {Q : Closure Value → Prop} {R : Ref → Prop}
    {calls : List Call} (h : a.Coherent Q R calls) (here : a.get? f = some fr) {e : FrameId}
    (inside : fr.enclosing = some e) : ∃ outer, a.get? e = some outer :=
  ((h.frames f fr here).2.keeps_enclosing here inside).exists_frame

/-- In a coherent arena the home of a frame is there. -/
theorem Arena.Coherent.get?_home {Q : Closure Value → Prop} {R : Ref → Prop} {calls : List Call}
    (h : a.Coherent Q R calls) (here : a.get? f = some fr) : ∃ home, a.get? fr.home = some home :=
  (h.frames f fr here).2.anchored_home.imp fun _ h => h.1

namespace Memory.Doubles

variable {Q : Closure Value → Prop} {R : Ref → Prop} {calls : List Call}

/-- The logs may be others. -/
theorem relog {m₁ m₁' : Memory} (h : m.Doubles ρ m') (logs : m.Logs m₁) (logs' : m'.Logs m₁') :
    m₁.Doubles ρ m₁' := by
  refine ⟨h.data.congr logs.data logs'.data, ?_⟩
  rw [logs.frames, logs'.frames]
  exact h.frames

theorem trace (h : m.Doubles ρ m') (line line' : Memory → String) :
    (m.trace line).Doubles ρ (m'.trace line') :=
  h.relog (.trace m line) (.trace m' line')

/-- The frame that a handle names, in both. -/
theorem frame (h : m.Doubles ρ m') (here : m.frames.get? f = some fr) :
    m.frame f = .ok fr ∧ ∃ fr', m'.frames.get? (ρ.frame f) = some fr'
      ∧ m'.frame (ρ.frame f) = .ok fr' ∧ fr.Copies ρ fr' := by
  obtain ⟨fr', here', copies⟩ := h.frames.frames f fr here
  exact ⟨frame_of_get? here, fr', here', frame_of_get? here', copies⟩

/-- **Following enclosing frames** leads to the same frame, renamed, and it is there. -/
theorem outward (h : m.Doubles ρ m') (coherent : m.frames.Coherent Q R calls) (depth : UInt16)
    (hops : Nat) (here : m.frames.get? f = some fr) :
    m'.outward depth hops (ρ.frame f) = (m.outward depth hops f).map ρ.frame
      ∧ ∀ g, m.outward depth hops f = .ok g → ∃ gr, m.frames.get? g = some gr := by
  induction hops generalizing f fr with
  | zero =>
    refine ⟨rfl, fun g found => ?_⟩
    cases found
    exact ⟨fr, here⟩
  | succ hops ih =>
    obtain ⟨found, fr', here', found', copies⟩ := h.frame here
    cases inside : fr.enclosing with
    | none =>
      have inside' : fr'.enclosing = none := by rw [copies.enclosing, inside, Option.map_none]
      have opened : m.outward depth (hops + 1) f = .error (.noEnclosing depth) := by
        simp only [Memory.outward, found, bind, Except.bind, inside]
        rfl
      have opened' : m'.outward depth (hops + 1) (ρ.frame f) = .error (.noEnclosing depth) := by
        simp only [Memory.outward, found', bind, Except.bind, inside']
        rfl
      rw [opened, opened']
      exact ⟨rfl, fun g none => by cases none⟩
    | some e =>
      have inside' : fr'.enclosing = some (ρ.frame e) := by
        rw [copies.enclosing, inside, Option.map_some]
      obtain ⟨outer, hout⟩ := coherent.get?_enclosing here inside
      rw [outward_succ here inside, outward_succ here' inside']
      exact ih hout

theorem loadLocal (h : m.Doubles ρ m') (coherent : m.frames.Coherent Q R calls)
    (here : m.frames.get? f = some fr) (depth slot : UInt16) :
    m'.loadLocal (ρ.frame f) depth slot = (m.loadLocal f depth slot).map ρ.value := by
  obtain ⟨same, present⟩ := h.outward coherent depth depth.toNat here
  simp only [Memory.loadLocal, Memory.context, same]
  cases holder : m.outward depth depth.toNat f with
  | error e => rfl
  | ok g =>
    obtain ⟨gr, hg⟩ := present g holder
    obtain ⟨found, gr', -, found', copies⟩ := h.frame hg
    simp only [Except.map, bind, Except.bind, found, found', copies.locals, Array.getElem?_map]
    cases gr.locals[slot.toNat]? <;> rfl

/-- The frame that holds a variable, in both, and it is there. -/
theorem localFrame (h : m.Doubles ρ m') (coherent : m.frames.Coherent Q R calls)
    (here : m.frames.get? f = some fr) (depth slot : UInt16) :
    m'.localFrame (ρ.frame f) depth slot = (m.localFrame f depth slot).map ρ.frame
      ∧ ∀ g, m.localFrame f depth slot = .ok g → ∃ gr, m.frames.get? g = some gr := by
  obtain ⟨same, present⟩ := h.outward coherent depth depth.toNat here
  simp only [Memory.localFrame, Memory.context, same]
  cases holder : m.outward depth depth.toNat f with
  | error e => exact ⟨rfl, fun g none => by cases none⟩
  | ok g =>
    obtain ⟨gr, hg⟩ := present g holder
    obtain ⟨found, gr', -, found', copies⟩ := h.frame hg
    simp only [Except.map, bind, Except.bind, found, found', copies.locals, Array.size_map]
    split
    · refine ⟨rfl, fun k hk => ?_⟩
      cases hk
      exact ⟨gr, hg⟩
    · exact ⟨rfl, fun k none => by cases none⟩

theorem setLocal (h : m.Doubles ρ m') (there : m.frames.get? f = some fr) (slot : Nat)
    (v : Value) : (m.setLocal f slot v).Doubles ρ (m'.setLocal (ρ.frame f) slot (ρ.value v)) := by
  refine ⟨⟨h.data.store, h.data.serial, h.data.transcript⟩, h.frames.modify there
    (fun fr fr' same => ?_) (fun _ => rfl) fun _ => rfl⟩
  refine ⟨same.code, ?_, same.receiver, same.enclosing, same.home, same.returned, same.place⟩
  dsimp only
  rw [same.locals, Array.map_setIfInBounds]

theorem setPlace (h : m.Doubles ρ m') (there : m.frames.get? f = some fr) (place : Place) :
    (m.setPlace f place).Doubles ρ (m'.setPlace (ρ.frame f) place) := by
  refine ⟨⟨h.data.store, h.data.serial, h.data.transcript⟩, h.frames.modify there
    (fun fr fr' same => ?_) (fun _ => rfl) fun _ => rfl⟩
  exact ⟨same.code, same.locals, same.receiver, same.enclosing, same.home, same.returned, rfl⟩

theorem fieldRow (h : m.Doubles ρ m') (here : m.frames.get? f = some fr) (i : Image)
    (index : Nat) : m'.fieldRow i (ρ.frame f) index = (m.fieldRow i f index).map ρ.row := by
  obtain ⟨found, fr', -, found', copies⟩ := h.frame here
  have name := ρ.className_value i fr.receiver
  simp only [Memory.fieldRow, bind, Except.bind, found, found', copies.receiver]
  cases self : fr.receiver with
  | object cls r =>
    simp only [Renaming.value, h.data.store.size_row]
    split <;> rfl
  | _ =>
    rw [self] at name
    exact congrArg (Except.error ∘ Cause.noFields) name

theorem loadField (h : m.Doubles ρ m') (here : m.frames.get? f = some fr) (i : Image)
    (index : Nat) : m'.loadField i (ρ.frame f) index = (m.loadField i f index).map ρ.value := by
  simp only [Memory.loadField, h.fieldRow here]
  cases m.fieldRow i f index with
  | error e => rfl
  | ok r => exact congrArg Except.ok (h.data.store.getD r index)

/-- **A closure over the same block**, of the renamed frame. -/
theorem closure (h : m.Doubles ρ m') (coherent : m.frames.Coherent Q R calls)
    (here : m.frames.get? f = some fr) (index : Nat) :
    m'.closure (ρ.frame f) index = (m.closure f index).map ρ.closure := by
  obtain ⟨found, fr', -, found', copies⟩ := h.frame here
  obtain ⟨home, hhome⟩ := coherent.get?_home here
  obtain ⟨foundHome, home', -, foundHome', copiesHome⟩ := h.frame hhome
  simp only [Memory.closure, bind, Except.bind, found, found', copies.home, foundHome, foundHome',
    copiesHome.code, copies.receiver, h.data.serial]
  cases home.code.nested? index <;> rfl

/-- **Calling a method** comes to the same, renamed, if it takes no identity hash of an object. -/
theorem invoke (h : m.Doubles ρ m') (i : Image) (receiver : Value) (code : Code)
    (args : List Value) (quiet : ¬ code.Hashes receiver args) :
    (∃ v m₁ m₁', invoke i m receiver code args = .answer v m₁
      ∧ invoke i m' (ρ.value receiver) code (args.map ρ.value) = .answer (ρ.value v) m₁'
      ∧ m₁.Doubles ρ m₁')
    ∨ (∃ callee, invoke i m receiver code args = .enter callee m
      ∧ invoke i m' (ρ.value receiver) code (args.map ρ.value) = .enter (ρ.callee callee) m')
    ∨ ∃ cause, invoke i m receiver code args = .fault cause m
      ∧ invoke i m' (ρ.value receiver) code (args.map ρ.value) = .fault cause m' := by
  have reply := invoke_copies h.data i receiver code args quiet
  have spared := invoke_spares i m receiver code args
  have spared' := invoke_spares i m' (ρ.value receiver) code (args.map ρ.value)
  generalize Colloquy.invoke i m receiver code args = r at reply spared
  generalize Colloquy.invoke i m' (ρ.value receiver) code (args.map ρ.value) = r' at reply spared'
  cases reply with
  | @answer v m₁ m₁' data =>
    refine .inl ⟨v, m₁, m₁', rfl, rfl, data, ?_⟩
    have frames : m₁.frames = m.frames := spared
    have frames' : m₁'.frames = m'.frames := spared'
    rw [frames, frames']
    exact h.frames
  | enter callee =>
    obtain ⟨rfl, -⟩ := spared
    obtain ⟨rfl, -⟩ := spared'
    exact .inr (.inl ⟨callee, rfl, rfl⟩)
  | fault cause =>
    cases spared
    cases spared'
    exact .inr (.inr ⟨cause, rfl, rfl⟩)

end Memory.Doubles

/-! ## Instructions -/

/-- A value is pushed, or the instruction fails. -/
theorem Effect.push_copies (hm : m.Doubles ρ m') (stack : List Value) {x x' : Checked Value}
    (hx : x' = x.map ρ.value) :
    Effect.Copies ρ (.push stack m x) (.push (stack.map ρ.value) m' x') := by
  subst hx
  cases x with
  | ok v => exact .next (v :: stack) hm
  | error e => exact .fault stack e hm

/-- Global names stand for classes and for the transcript, whose row is the same in both. -/
theorem Renaming.lookup_value {i : Image} {cls : Class} (shared : i.transcript = .object cls 0)
    {name : String} (found : i.lookup name = some v) : ρ.value v = v := by
  obtain rfl | rfl | ⟨c, -, rfl⟩ := Image.lookup_cases found
  · rfl
  · rw [shared]
    rfl
  · rfl

namespace Call

variable {Q : Closure Value → Prop} {R : Ref → Prop} {i : Image} {c : Call}
  {rest : List Call} {host : List Value}

theorem global_call {cls : Class} (shared : i.transcript = .object cls 0) (index : UInt16) :
    (ρ.call c).global i index = (c.global i index).map ρ.value := by
  show c.global i index = _
  cases value : c.global i index with
  | error e => rfl
  | ok v =>
    obtain ⟨name, -, found⟩ := global_eq_ok value
    exact congrArg Except.ok (Renaming.lookup_value shared found).symm

theorem buildArray_copies (hm : m.Doubles ρ m') (c : Call) (count : Nat) :
    Effect.Copies ρ (c.buildArray m count) ((ρ.call c).buildArray m' count) := by
  simp only [buildArray, Renaming.call, List.length_map]
  split
  · exact .fault c.stack _ hm
  · obtain ⟨store, number⟩ := hm.data.store.add (c.stack.take count).reverse.toArray
    have operands : ((c.stack.map ρ.value).take count).reverse.toArray
        = (c.stack.take count).reverse.toArray.map ρ.value := by
      simp only [List.map_take, List.map_reverse, List.map_toArray]
    rw [operands, ← List.map_drop]
    have made : (m'.newArray ((c.stack.take count).reverse.toArray.map ρ.value)).2
        = ρ.value (m.newArray (c.stack.take count).reverse.toArray).2 :=
      congrArg Value.array number
    rw [made]
    exact .next (_ :: c.stack.drop count) ⟨⟨store, hm.data.serial, hm.data.transcript⟩, hm.frames⟩

theorem storeLocal_copies (hm : m.Doubles ρ m') (coherent : m.frames.Coherent Q R calls)
    (here : m.frames.get? c.frame = some fr) (depth slot : UInt16) :
    Effect.Copies ρ (c.storeLocal m depth slot) ((ρ.call c).storeLocal m' depth slot) := by
  obtain ⟨same, present⟩ := hm.localFrame coherent here depth slot
  unfold storeLocal
  cases top : c.stack with
  | nil =>
    simp only [Renaming.call, top]
    exact .fault [] _ hm
  | cons v below =>
    simp only [Renaming.call, top, List.map_cons, same]
    cases holder : m.localFrame c.frame depth slot with
    | error e => exact .fault (v :: below) e hm
    | ok g =>
      obtain ⟨gr, hg⟩ := present g holder
      exact .next (v :: below) (hm.setLocal hg slot.toNat v)

theorem storeField_copies (hm : m.Doubles ρ m') (here : m.frames.get? c.frame = some fr)
    (i : Image) (index : Nat) :
    Effect.Copies ρ (c.storeField i m index) ((ρ.call c).storeField i m' index) := by
  unfold storeField
  cases top : c.stack with
  | nil =>
    simp only [Renaming.call, top]
    exact .fault [] _ hm
  | cons v below =>
    simp only [Renaming.call, top, List.map_cons, hm.fieldRow here]
    cases m.fieldRow i c.frame index with
    | error e => exact .fault (v :: below) e hm
    | ok r =>
      exact .next (v :: below)
        ⟨⟨hm.data.store.set r index v, hm.data.serial, hm.data.transcript⟩, hm.frames⟩

theorem makeClosure_copies (hm : m.Doubles ρ m') (coherent : m.frames.Coherent Q R calls)
    (balanced : m'.frames.Balanced) (here : m.frames.get? c.frame = some fr) (index : Nat) :
    Effect.Copies ρ (c.makeClosure m index) ((ρ.call c).makeClosure m' index) := by
  simp only [makeClosure, Renaming.call, hm.closure coherent here]
  cases m.closure c.frame index with
  | error e => exact .fault c.stack e hm
  | ok closure =>
    have pinned := hm.frames.pin balanced here
    have serial : m'.serial + 1 = m.serial + 1 + ρ.serials := by
      rw [hm.data.serial, Nat.add_right_comm]
    simp only [Except.map]
    rw [← ρ.value_block]
    exact .next (.block closure :: c.stack)
      ⟨⟨hm.data.store, serial, hm.data.transcript⟩, pinned⟩

/-- **A send that does not take the identity hash of an object.** -/
theorem send_copies (hm : m.Doubles ρ m') (i : Image) (c : Call) (argc : Nat) (selector : String)
    {find : Value → Checked Code} (finds : ∀ v, find (ρ.value v) = find v)
    (quiet : ¬ (ρ.call c).SendHashes argc find) :
    Effect.Copies ρ (c.send i m argc selector find) ((ρ.call c).send i m' argc selector find) := by
  have dropped : (ρ.call c).stack.drop argc = (c.stack.drop argc).map ρ.value :=
    List.map_drop.symm
  have args : ((ρ.call c).stack.take argc).reverse = (c.stack.take argc).reverse.map ρ.value := by
    simp only [Renaming.call, List.map_take, List.map_reverse]
  unfold send
  rw [dropped, args]
  cases operands : c.stack.drop argc with
  | nil => exact .fault c.stack _ hm
  | cons receiver below =>
    simp only [List.map_cons, finds]
    cases found : find receiver with
    | error e => exact .fault c.stack e hm
    | ok code =>
      have hash : ¬ code.Hashes receiver (c.stack.take argc).reverse := by
        rintro ⟨primitive, none, identity⟩
        refine quiet ⟨ρ.value receiver, below.map ρ.value, code, ?_, ?_, primitive, ?_, ?_⟩
        · rw [dropped, operands, List.map_cons]
        · rw [finds, found]
        · rw [args, none, List.map_nil]
        · exact (ρ.hasIdentity_value receiver).2 identity
      dsimp only
      have traced := hm.trace (fun m => "send " ++ selector ++ " to " ++ receiver.inspect m.store
          ++ " -> " ++ code.block.qualified)
        (fun m => "send " ++ selector ++ " to " ++ (ρ.value receiver).inspect m.store
          ++ " -> " ++ code.block.qualified)
      rcases traced.invoke i receiver code (c.stack.take argc).reverse hash with
        ⟨v, m₁, m₁', answer, answer', later⟩ | ⟨callee, enter, enter'⟩ | ⟨cause, fault, fault'⟩
      · rw [answer, answer']
        exact .next (v :: below) later
      · rw [enter, enter']
        exact .enter below callee traced
      · rw [fault, fault']
        exact .fault below cause traced

/-- **An instruction on a renamed call has the renamed effect**, if no identity hash of an object is
taken. -/
theorem execute_copies (hm : m.Doubles ρ m') (coherent : m.frames.Coherent Q R (c :: rest))
    (balanced : m'.frames.Balanced) {cls : Class} (shared : i.transcript = .object cls 0)
    (j : Instruction) (quiet : ¬ (ρ.call c).Hashes i j) :
    Effect.Copies ρ (c.execute i m j) ((ρ.call c).execute i m' j) := by
  obtain ⟨fr, here, -⟩ := coherent.call_frame List.mem_cons_self
  obtain ⟨found, fr', -, found', copies⟩ := hm.frame here
  have push {x x' : Checked Value} (hx : x' = x.map ρ.value) :
      Effect.Copies ρ (.push c.stack m x) (.push (ρ.call c).stack m' x') :=
    Effect.push_copies hm c.stack hx
  cases j with
  | pushNil => exact .next (.nil :: c.stack) hm
  | pushSelf =>
    refine push ?_
    rw [Renaming.call, found, found']
    exact congrArg Except.ok copies.receiver
  | pushTrue => exact .next (.bool true :: c.stack) hm
  | pushFalse => exact .next (.bool false :: c.stack) hm
  | pushChar code =>
    refine push ?_
    unfold character
    split <;> rfl
  | pushInt n => exact .next (.int n :: c.stack) hm
  | pushFloat x => exact .next (.float x :: c.stack) hm
  | pushArray count => exact buildArray_copies hm c count.toNat
  | pushLiteral index =>
    refine push ?_
    show (c.literal index).map _ = _
    cases c.literal index <;> rfl
  | pushGlobal index => exact push (global_call shared index)
  | pushField index => exact push (hm.loadField here i index.toNat)
  | pushLocal depth slot => exact push (hm.loadLocal coherent here depth slot)
  | pop | ret | blockReturn =>
    cases top : c.stack with
    | nil =>
      simp only [execute, Renaming.call, top]
      exact .fault [] _ hm
    | cons v below =>
      simp only [execute, Renaming.call, top, List.map_cons]
      first
        | exact .next below hm
        | exact .escape below v hm
        | exact .finish below v hm
  | storeField index => exact storeField_copies hm here i index.toNat
  | storeLocal depth slot => exact storeLocal_copies hm coherent here depth slot
  | send argc index =>
    have same : (ρ.call c).literal index = c.literal index := rfl
    simp only [execute, same]
    cases named : c.literal index with
    | error e => exact .fault c.stack e hm
    | ok selector =>
      refine send_copies hm i c argc.toNat selector (fun v => ρ.method_value i v selector)
        fun hashes => quiet ⟨selector, ?_, hashes⟩
      rw [same, named]
  | sendSuper argc index =>
    have same : (ρ.call c).literal index = c.literal index := rfl
    simp only [execute, same]
    cases named : c.literal index with
    | error e => exact .fault c.stack e hm
    | ok selector =>
      refine send_copies hm i c argc.toNat selector
        (fun v => ρ.superMethod_value i v c.code selector)
        fun hashes => quiet ⟨selector, ?_, hashes⟩
      rw [same, named]
  | block index => exact makeClosure_copies hm coherent balanced here index.toNat
  | debug file position => exact .next c.stack (hm.setPlace here _)

end Call

end Colloquy
