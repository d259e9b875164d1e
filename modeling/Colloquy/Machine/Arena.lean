import Colloquy.Machine.Frame

/-!
# The frame arena

Frames live in numbered slots.  A frame that is popped off the call stack is recycled as soon as
nothing pins it: a pin is held by every closure that the frame created, and by every frame of such a
closure.  A recycled slot counts one generation more and is used again for a new frame, the slot
that became free last being the first to be used.

The last pin on a frame puts its handle on a queue when it goes; the queue is worked off, last in
first out, whenever a frame is created or released and when frames are counted.

Main statement: working off the queue ends (`Arena.collect`), since every frame that it recycles is
one frame less.
-/

namespace Colloquy

/-- The handles that a value keeps pinned, in the order in which they are let go with it. -/
class Pinning (V : Type) where
  pins : V → List FrameId

namespace Frame

variable {V : Type} [Pinning V]

/-- The pins that a frame holds: those of its values, and one on the frame around it. -/
def pins (f : Frame V) : List FrameId :=
  f.left.reverse.flatMap Pinning.pins ++ f.locals.toList.flatMap Pinning.pins
    ++ Pinning.pins f.receiver ++ f.enclosing.toList

end Frame

/-- A place for one frame at a time. -/
structure Slot (V : Type) where
  /-- How often the slot has been recycled, modulo `2 ^ 32`. -/
  generation : UInt32 := 0
  frame : Option (Frame V) := none
  /-- Whether the frame has left the call stack. -/
  popped : Bool := false
  /-- How many pins are held on the frame. -/
  pinned : Nat := 0

namespace Slot

variable {V : Type}

instance : Inhabited (Slot V) := ⟨{}⟩

/-- Whether the slot holds the frame of generation `g`. -/
def holds (s : Slot V) (g : UInt32) : Bool := s.generation = g && s.frame.isSome

/-- Whether the frame of generation `g` is in the slot and no longer needed. -/
def spent (s : Slot V) (g : UInt32) : Bool := s.holds g && s.popped && s.pinned = 0

/-- The slot after its frame is gone. -/
def emptied (s : Slot V) : Slot V := { generation := s.generation + 1 }

end Slot

/-- All frames, and what is needed to find room for the next one. -/
structure Arena (V : Type) where
  slots : Array (Slot V) := #[]
  /-- Slots without a frame; the first is used next. -/
  free : List Nat := []
  /-- How many slots hold a frame. -/
  live : Nat := 0
  /-- Frames whose last pin has gone; the first is looked at next. -/
  unpinned : List FrameId := []
  /-- The generation that a new slot starts with. -/
  birth : UInt32 := 0

namespace Arena

variable {V : Type}

instance : Inhabited (Arena V) := ⟨{}⟩

/-- The frame that a handle names, while it is there. -/
def get? (a : Arena V) (id : FrameId) : Option (Frame V) :=
  match a.slots[id.index]? with
  | some s => if s.generation = id.generation then s.frame else none
  | none => none

def contains (a : Arena V) (id : FrameId) : Bool := (a.get? id).isSome

/-- Changes the slot that a handle names, while its frame is there. -/
def modifySlot (a : Arena V) (id : FrameId) (f : Slot V → Slot V) : Arena V :=
  if h : id.index < a.slots.size then
    let s := a.slots[id.index]
    if s.holds id.generation then { a with slots := a.slots.set id.index (f s) } else a
  else a

/-- Changes the frame that a handle names. -/
def modify (a : Arena V) (id : FrameId) (f : Frame V → Frame V) : Arena V :=
  a.modifySlot id fun s => { s with frame := s.frame.map f }

/-- Takes one more pin on a frame. -/
def pin (a : Arena V) (id : FrameId) : Arena V :=
  a.modifySlot id fun s => { s with pinned := s.pinned + 1 }

/-- The number of pins held on a frame. -/
def pinCount (a : Arena V) (id : FrameId) : Nat :=
  match a.slots[id.index]? with
  | some s => if s.holds id.generation then s.pinned else 0
  | none => 0

/-- Lets one pin on a frame go; the last one queues the frame. -/
def unpin (a : Arena V) (id : FrameId) : Arena V :=
  let last := a.contains id && a.pinCount id ≤ 1
  let a := a.modifySlot id fun s => { s with pinned := s.pinned - 1 }
  if last then { a with unpinned := id :: a.unpinned } else a

/-- The number of slots with a frame, counted. -/
def occupied (a : Arena V) : Nat := a.slots.countP (·.frame.isSome)

theorem occupied_modifySlot (a : Arena V) (id : FrameId) (f : Slot V → Slot V)
    (hf : ∀ s, (f s).frame.isSome = s.frame.isSome) :
    (a.modifySlot id f).occupied = a.occupied := by
  unfold modifySlot occupied
  split
  · rename_i h
    dsimp only
    split
    · have hpos : a.slots[id.index].frame.isSome = true →
          0 < a.slots.countP (·.frame.isSome) := fun hs =>
        Array.countP_pos_iff.2 ⟨_, Array.getElem_mem h, hs⟩
      rw [Array.countP_set, hf]
      split
      · have := hpos ‹_›
        omega
      · omega
    · rfl
  · rfl

/-- Lets go of pins one after another. -/
def unpinAll (a : Arena V) : List FrameId → Arena V
  | [] => a
  | id :: rest => (a.unpin id).unpinAll rest

theorem occupied_unpin (a : Arena V) (id : FrameId) : (a.unpin id).occupied = a.occupied := by
  unfold unpin
  have := occupied_modifySlot a id (fun s => { s with pinned := s.pinned - 1 }) fun _ => rfl
  dsimp only
  split <;> exact this

theorem occupied_unpinAll (a : Arena V) (ids : List FrameId) :
    (a.unpinAll ids).occupied = a.occupied := by
  induction ids generalizing a with
  | nil => rfl
  | cons id rest ih => rw [unpinAll, ih, occupied_unpin]

variable [Pinning V]

/-- Empties a slot: its number goes to the free slots, and the pins of its frame go last, since
they may queue other frames. -/
def recycle (a : Arena V) (i : Nat) : Arena V :=
  match a.slots[i]? with
  | none => a
  | some s =>
    match s.frame with
    | none => a
    | some f =>
      let emptied : Arena V :=
        { a with
          slots := a.slots.setIfInBounds i s.emptied
          free := i :: a.free
          live := a.live - 1 }
      emptied.unpinAll f.pins

theorem occupied_recycle {a : Arena V} {i : Nat} {s : Slot V} (hs : a.slots[i]? = some s)
    (hf : s.frame.isSome) : (a.recycle i).occupied < a.occupied := by
  obtain ⟨f, hf⟩ := Option.isSome_iff_exists.1 hf
  obtain ⟨hi, rfl⟩ := Array.getElem?_eq_some_iff.1 hs
  have hpos : 0 < a.slots.countP (·.frame.isSome) :=
    Array.countP_pos_iff.2 ⟨_, Array.getElem_mem hi, by simp [hf]⟩
  simp only [recycle, hs, hf]
  rw [occupied_unpinAll]
  have hset : (a.slots.setIfInBounds i a.slots[i].emptied).countP (·.frame.isSome)
      = a.slots.countP (·.frame.isSome) - 1 := by
    rw [Array.setIfInBounds, dif_pos hi, Array.countP_set, hf]
    rfl
  show (a.slots.setIfInBounds i a.slots[i].emptied).countP (·.frame.isSome) < _
  rw [hset]
  exact Nat.sub_lt hpos Nat.one_pos

/-- Works off the queue of unpinned frames, recycling those that are popped and not pinned again.
Recycling may add to the queue. -/
def collect (a : Arena V) : Arena V :=
  match _queue : a.unpinned with
  | [] => a
  | id :: rest =>
    match _slot : a.slots[id.index]? with
    | none => collect { a with unpinned := rest }
    | some s =>
      if _spent : s.spent id.generation then collect (recycle { a with unpinned := rest } id.index)
      else collect { a with unpinned := rest }
termination_by (a.occupied, a.unpinned.length)
decreasing_by
  · simp [_queue, Prod.lex_def, occupied]
  · apply Prod.Lex.left
    have : s.frame.isSome := by
      simp only [Slot.spent, Slot.holds, Bool.and_eq_true] at _spent
      exact _spent.1.1.2
    exact occupied_recycle (a := { a with unpinned := rest }) _slot this
  · simp [_queue, Prod.lex_def, occupied]

/-- Puts a new frame into a slot.  `make` is told the frame's own handle. -/
def alloc (a : Arena V) (make : FrameId → Frame V) : Arena V × FrameId :=
  let a := a.collect
  let (a, index) : Arena V × Nat :=
    match a.free with
    | i :: rest => ({ a with free := rest }, i)
    | [] =>
      let i := a.slots.size
      ({ a with slots := a.slots.push { generation := a.birth } }, i)
  let generation := (a.slots.getD index {}).generation
  let id : FrameId := { index, generation }
  let frame := make id
  let a : Arena V :=
    { a with
      slots := a.slots.setIfInBounds index { generation, frame := some frame }
      live := a.live + 1 }
  (frame.pins.foldl pin a, id)

/-- A frame for a method. -/
def method (a : Arena V) (nil : V) (code : Code) (receiver : V) (args : List V)
    (invoking : Option FrameId) : Arena V × FrameId :=
  a.alloc (Frame.ofMethod nil code receiver args invoking)

/-- A frame for a closure. -/
def block (a : Arena V) (nil : V) (c : Closure V) (args : List V) (invoking : Option FrameId) :
    Arena V × FrameId :=
  a.alloc fun _ => Frame.ofClosure nil c args invoking

/-- Pops a frame off the call stack.  It is recycled now, or later when its last pin goes. -/
def release (a : Arena V) (id : FrameId) : Arena V :=
  if a.contains id then
    let a := a.modifySlot id ({ · with popped := true })
    let a := if a.pinCount id = 0 then a.recycle id.index else a
    a.collect
  else a

/-- Takes the pins that go with holding a value. -/
def hold (a : Arena V) (v : V) : Arena V := (Pinning.pins v).foldl pin a

/-- Lets go of the pins that went with holding a value. -/
def letGo (a : Arena V) (v : V) : Arena V := a.unpinAll (Pinning.pins v)

/-- Puts a value into a slot of a frame in place of the one there; nothing if there is no such
slot. -/
def put? (a : Arena V) (id : FrameId) (slot : Nat) (v : V) : Option (Arena V) :=
  match (a.get? id).bind (·.locals[slot]?) with
  | none => none
  | some old =>
    let a := (a.hold v).modify id fun f => { f with locals := f.locals.setIfInBounds slot v }
    some (a.letGo old)

/-- Lets go of every pin on the given frames, and recycles those that are popped. -/
def abandonPins (a : Arena V) (ids : List FrameId) : Arena V :=
  let a := ids.foldl (fun a id => a.modifySlot id ({ · with pinned := 0 })) a
  ({ a with unpinned := ids ++ a.unpinned } : Arena V).collect

end Arena

end Colloquy
