import Mathlib.Logic.Relation
import Mathlib.Logic.Function.Basic
import Colloquy.Machine.Cell
import Colloquy.Proofs.Arena.Accounts

/-!
# An arena in use

An arena is used by somebody who holds pins and closures, makes frames, changes what is in them and
releases them, in any order (`Custody.Move`).  The books of such a use say which handles have been
issued and released and what is in the frame of each handle.

Main statement: the books are right (`Custody.safe_and_precise`).  A handle names its own frame or
nothing; a frame is there until it is released, and after that for as long as anybody holds a pin
on it; and when the queue has been worked off, every other released frame is gone.

A slot counts its generations modulo `2 ^ 32`, so all this is said of uses in which no slot is
recycled as often as that.
-/

namespace Colloquy

/-- An arena, what its user holds, and the books of the use so far. -/
structure Custody where
  arena : Arena Cell
  /-- The pins that the user holds. -/
  pins : List FrameId := []
  /-- The values that the user holds. -/
  values : List Cell := []
  /-- The handles of all frames that have been made, the last one first. -/
  issued : List FrameId := []
  released : List FrameId := []
  /-- The frame that was made under a handle, with all changes made to it since. -/
  made : FrameId → Option (Frame Cell) := fun _ => none

namespace Custody

variable {x y : Custody}

/-- Nothing has been done yet. -/
def start (birth : UInt32) : Custody := { arena := { birth } }

/-- All pins that are held outside the arena. -/
def outside (x : Custody) : List FrameId := x.pins ++ x.values.flatMap Pinning.pins

/-- All pins of the value are held outside the arena. -/
def Owns (x : Custody) (v : Cell) : Prop := ∀ p ∈ Pinning.pins v, p ∈ x.outside

/-- A pin on the frame is held, outside the arena or by a frame. -/
def Pinned (x : Custody) (id : FrameId) : Prop :=
  id ∈ x.outside ∨ ∃ f fr, x.arena.get? f = some fr ∧ id ∈ fr.pins

/-- Every pin of the value is held by somebody. -/
def Has (x : Custody) (v : Cell) : Prop := ∀ p ∈ Pinning.pins v, x.Pinned p

/-- How often slot `i` has been recycled: as often as a frame has been put into it, but for the
one that is in it. -/
def recycled (x : Custody) (i : Nat) : Nat :=
  x.issued.countP (·.index = i) - if x.arena.slots[i]?.any (·.frame.isSome) then 1 else 0

/-- A new frame is entered into the books. -/
def enter (x : Custody) (make : FrameId → Frame Cell) (made : Arena Cell × FrameId) : Custody :=
  { x with
    arena := made.1
    issued := made.2 :: x.issued
    made := Function.update x.made made.2 (some (make made.2)) }

/-- A change of a frame is entered into the books. -/
def amend (x : Custody) (id : FrameId) (g : Frame Cell → Frame Cell) (arena : Arena Cell) :
    Custody :=
  { x with arena, made := Function.update x.made id ((x.made id).map g) }

/-- The queue is worked off, as it is when the frames are counted. -/
def live (x : Custody) : Custody := { x with arena := x.arena.collect }

/-- What can be done with an arena.  Making a frame works off the queue first, so the values for a
new frame have to be held outside; any other value that is used is held by somebody. -/
inductive Move : Custody → Custody → Prop
  | method {x : Custody} (code : Code) (receiver : Cell) (args : List Cell)
      (invoking : Option FrameId) (own : ∀ v ∈ receiver :: args, x.Owns v) :
      Move x (x.enter (.ofMethod .nil code receiver args invoking)
        (x.arena.method .nil code receiver args invoking))
  | block {x : Custody} (c : Closure Cell) (args : List Cell) (invoking : Option FrameId)
      (own : ∀ v ∈ .block c :: args, x.Owns v) :
      Move x (x.enter (fun _ => .ofClosure .nil c args invoking)
        (x.arena.block .nil c args invoking))
  | pin {x : Custody} {id : FrameId} (here : x.arena.contains id = true) :
      Move x { x with arena := x.arena.pin id, pins := id :: x.pins }
  | unpin {x : Custody} {id : FrameId} {rest : List FrameId} (held : x.pins.Perm (id :: rest)) :
      Move x { x with arena := x.arena.unpin id, pins := rest }
  | close {x : Custody} {frame : FrameId} {code : Code} {home : Option FrameId} {receiver : Cell}
      {arena : Arena Cell} {c : Closure Cell} (held : x.Has receiver)
      (closed : Cell.close? x.arena frame code home receiver = some (arena, c)) :
      Move x { x with arena, values := .block c :: x.values }
  | copy {x : Custody} {v : Cell} (held : x.Has v) :
      Move x { x with arena := x.arena.hold v, values := v :: x.values }
  | letGo {x : Custody} {v : Cell} {rest : List Cell} (held : x.values.Perm (v :: rest)) :
      Move x { x with arena := x.arena.letGo v, values := rest }
  | put {x : Custody} {id : FrameId} {slot : Nat} {v : Cell} {arena : Arena Cell}
      (held : x.Has v) (done : x.arena.put? id slot v = some arena) :
      Move x (x.amend id (fun f => { f with locals := f.locals.setIfInBounds slot v }) arena)
  | rewrite {x : Custody} {id : FrameId} {old new : Frame Cell} (here : x.arena.get? id = some old)
      (held : ∀ p ∈ new.pins, x.Pinned p) :
      Move x (x.amend id (fun _ => new)
        (((new.pins.foldl Arena.pin x.arena).modify id fun _ => new).unpinAll old.pins))
  | release {x : Custody} {id : FrameId} (known : id ∈ x.issued) :
      Move x { x with arena := x.arena.release id, released := id :: x.released }
  | live {x : Custody} : Move x x.live

/-- Something is done, and still no slot has been recycled too often. -/
def Step (x y : Custody) : Prop := Move x y ∧ ∀ i, y.recycled i < 2 ^ 32

/-- One thing is done after another. -/
def Reaches : Custody → Custody → Prop := Relation.ReflTransGen Step

/-- All but the last frame of a slot have been recycled. -/
theorem countP_issued_le (x : Custody) (i : Nat) :
    x.issued.countP (·.index = i) ≤ x.recycled i + 1 := by
  unfold recycled
  split <;> omega

theorem recycled_le (x : Custody) (i : Nat) : x.recycled i ≤ x.issued.length :=
  Nat.le_trans (Nat.sub_le _ _) List.countP_le_length

/-! ## Generations -/

/-- The frames of every slot have been given one generation after another. -/
def Serial (birth : UInt32) : List FrameId → Prop
  | [] => True
  | id :: earlier =>
    id.generation = birth + .ofNat (earlier.countP (·.index = id.index)) ∧ Serial birth earlier

theorem Serial.exists_lt {birth : UInt32} {ids : List FrameId} (h : Serial birth ids)
    {id : FrameId} (hid : id ∈ ids) :
    ∃ n < ids.countP (·.index = id.index), id.generation = birth + .ofNat n := by
  induction ids with
  | nil => simp at hid
  | cons first earlier ih =>
    rw [List.countP_cons]
    rcases List.mem_cons.1 hid with rfl | hmem
    · exact ⟨_, by simp, h.1⟩
    · obtain ⟨n, hn, generation⟩ := ih h.2 hmem
      exact ⟨n, by omega, generation⟩

/-- The next handle on a slot is a new one, unless all generations have been used. -/
theorem Serial.notMem {birth : UInt32} {ids : List FrameId} (h : Serial birth ids) {id : FrameId}
    (next : id.generation = birth + .ofNat (ids.countP (·.index = id.index)))
    (few : ids.countP (·.index = id.index) < 2 ^ 32) : id ∉ ids := by
  intro hid
  obtain ⟨n, hn, generation⟩ := h.exists_lt hid
  have same := (UInt32.add_right_inj birth).1 (next.symm.trans generation)
  have values := congrArg UInt32.toNat same
  rw [UInt32.toNat_ofNat', UInt32.toNat_ofNat', Nat.mod_eq_of_lt few,
    Nat.mod_eq_of_lt (Nat.lt_trans hn few)] at values
  omega

/-! ## The books -/

/-- The books agree with the arena. -/
structure Recorded (x : Custody) : Prop where
  nodup : x.issued.Nodup
  serial : Serial x.arena.birth x.issued
  turn : ∀ i, x.arena.turn i = x.arena.birth + .ofNat (x.issued.countP (·.index = i))
  known : ∀ {f s}, x.arena.slotOf? f = some s →
    x.made f = s.frame ∧ f ∈ x.issued ∧ (s.popped = true ↔ f ∈ x.released)
  stays : ∀ {f}, f ∈ x.issued → f ∉ x.released → x.arena.Active f
  released : ∀ {f}, f ∈ x.released → f ∈ x.issued

namespace Recorded

theorem start (birth : UInt32) : (start birth).Recorded where
  nodup := List.nodup_nil
  serial := trivial
  turn i := by simp [Custody.start, Arena.turn]
  known h := by simp [Custody.start, Arena.slotOf?] at h
  stays h := by simp [Custody.start] at h
  released h := by simp [Custody.start] at h

/-- The user's own pins and values are not in the books, and frames that are shed stay in them. -/
theorem sheds (h : x.Recorded) {b : Arena Cell} (hs : x.arena.Sheds b) (pins : List FrameId)
    (values : List Cell) : ({ x with arena := b, pins, values } : Custody).Recorded where
  nodup := h.nodup
  serial := by simpa only [hs.birth] using h.serial
  turn i := by simpa only [hs.birth, hs.turn] using h.turn i
  known {f t} ht := by
    obtain ⟨s, hs, frame, popped⟩ := hs.before ht
    obtain ⟨made, issued, released⟩ := h.known hs
    exact ⟨made.trans frame, issued, popped ▸ released⟩
  stays issued released := hs.stays (h.stays issued released)
  released := h.released

theorem amend (h : x.Recorded) (id : FrameId) (g : Frame Cell → Frame Cell) :
    (x.amend id g (x.arena.modify id g)).Recorded where
  nodup := h.nodup
  serial := by
    have birth : (x.arena.modify id g).birth = x.arena.birth := Arena.birth_modifySlot _ _ _
    simpa only [Custody.amend, birth] using h.serial
  turn i := by
    have birth : (x.arena.modify id g).birth = x.arena.birth := Arena.birth_modifySlot _ _ _
    have turn : (x.arena.modify id g).turn i = x.arena.turn i :=
      Arena.turn_modifySlot (Arena.steady_frame g) i
    simpa only [Custody.amend, birth, turn] using h.turn i
  known {f t} ht := by
    simp only [Custody.amend, Arena.slotOf?_modify] at ht ⊢
    split at ht
    · subst f
      obtain ⟨s, hs, rfl⟩ := Option.map_eq_some_iff.1 ht
      obtain ⟨made, rest⟩ := h.known hs
      exact ⟨by rw [Function.update_self, made], rest⟩
    · obtain ⟨made, rest⟩ := h.known ht
      exact ⟨by rwa [Function.update_of_ne ‹_›], rest⟩
  stays issued released := Arena.active_modify.2 (h.stays issued released)
  released := h.released

theorem release (h : x.Recorded) {id : FrameId} (known : id ∈ x.issued) :
    ({ x with arena := x.arena.release id, released := id :: x.released } : Custody).Recorded := by
  have popped : ({ x with
      arena := x.arena.modifySlot id fun s => { s with popped := true }
      released := id :: x.released } : Custody).Recorded := by
    refine ⟨h.nodup, ?_, fun i => ?_, fun {f t} ht => ?_, fun {f} issued released => ?_,
      fun mem => ?_⟩
    · simpa only [Arena.birth_modifySlot] using h.serial
    · simpa only [Arena.birth_modifySlot, Arena.turn_modifySlot Arena.steady_popped] using h.turn i
    · simp only [Arena.slotOf?_modifySlot Arena.steady_popped] at ht
      split at ht
      · subst f
        obtain ⟨s, hs, rfl⟩ := Option.map_eq_some_iff.1 ht
        exact ⟨(h.known hs).1, known, by simp⟩
      · obtain ⟨made, issued, released⟩ := h.known ht
        exact ⟨made, issued, by simpa [‹f ≠ id›] using released⟩
    · obtain ⟨hne, notReleased⟩ : f ≠ id ∧ f ∉ x.released := by simpa using released
      obtain ⟨s, hs, hp⟩ := h.stays issued notReleased
      exact ⟨s, by rw [Arena.slotOf?_modifySlot Arena.steady_popped, if_neg hne, hs], hp⟩
    · rcases List.mem_cons.1 mem with rfl | mem
      · exact known
      · exact h.released mem
  exact popped.sheds (Arena.Sheds.release x.arena id) x.pins x.values

/-- **A new frame** gets a handle that has never been issued before. -/
theorem enter (h : x.Recorded) (ht : x.arena.Tidy) {make : FrameId → Frame Cell}
    (few : ∀ i, (x.enter make (x.arena.alloc make)).recycled i < 2 ^ 32) :
    (x.enter make (x.arena.alloc make)).Recorded := by
  obtain ⟨id, base, eq, lodged⟩ := Arena.exists_lodged ht make
  have collected := Arena.Sheds.collect x.arena
  have pinned := Arena.Sheds.pinAll base (make id).pins
  rw [eq] at few ⊢
  have generation : id.generation
      = x.arena.birth + .ofNat (x.issued.countP (·.index = id.index)) := by
    rw [lodged.generation, collected.turn, h.turn]
  -- all frames of the slot but the new one have been recycled, so there are few enough of them
  have count : x.issued.countP (·.index = id.index) < 2 ^ 32 := by
    have bound := few id.index
    have all := countP_issued_le (x.enter make ((make id).pins.foldl Arena.pin base, id)) id.index
    simp only [Custody.enter, List.countP_cons, decide_true, if_true] at all bound
    omega
  have fresh : id ∉ x.issued := h.serial.notMem generation count
  have birth : base.birth = x.arena.birth := lodged.birth.trans collected.birth
  have entered : (x.enter make (base, id)).Recorded := by
    refine ⟨List.nodup_cons.2 ⟨fresh, h.nodup⟩, ?_, fun i => ?_, fun {f t} ht => ?_,
      fun {f} issued released => ?_, fun {f} mem => List.mem_cons_of_mem id (h.released mem)⟩
    · show Serial base.birth (id :: x.issued)
      rw [birth]
      exact ⟨generation, h.serial⟩
    · simp only [Custody.enter, lodged.turn, collected.turn, h.turn, birth, List.countP_cons]
      by_cases hi : i = id.index
      · subst hi
        simp [UInt32.ofNat_add, UInt32.add_assoc]
      · simp [hi, Ne.symm hi]
    · simp only [Custody.enter, lodged.slotOf?] at ht ⊢
      split at ht
      · subst f
        cases ht
        refine ⟨Function.update_self _ _ _, List.mem_cons_self, ?_⟩
        simpa using fun mem => fresh (h.released mem)
      · obtain ⟨s, hs, frame, popped⟩ := collected.before ht
        obtain ⟨made, issued, released⟩ := h.known hs
        exact ⟨by rw [Function.update_of_ne ‹_›, made, frame], List.mem_cons_of_mem id issued,
          popped ▸ released⟩
    · rw [Arena.Active]
      simp only [Custody.enter, lodged.slotOf?]
      split
      · exact ⟨_, rfl, rfl⟩
      · exact collected.stays (h.stays ((List.mem_cons.1 issued).resolve_left ‹_›) released)
  exact entered.sheds pinned x.pins x.values

end Recorded

/-! ## What every use keeps -/

/-- A frame on which a pin is held is there. -/
theorem exists_slot (h : x.arena.Orderly x.outside) {id : FrameId} (held : x.Pinned id) :
    ∃ s, x.arena.slotOf? id = some s := by
  refine h.accounts.exists_slot ?_
  rcases held with mem | ⟨f, fr, hf, mem⟩
  · exact .inl mem
  · exact .inr (Arena.gripped_pos hf mem)

/-- The user gets a value whose pins can be taken. -/
theorem orderly_hold (h : x.arena.Orderly x.outside) {v : Cell}
    (here : ∀ p ∈ Pinning.pins v, ∃ s, x.arena.slotOf? p = some s) :
    (x.arena.hold v).Orderly
      ({ x with arena := x.arena.hold v, values := v :: x.values } : Custody).outside :=
  (h.pinAll here).perm (List.perm_append_comm_assoc _ _ _)

theorem orderly_letGo (h : x.arena.Orderly x.outside) {v : Cell} {rest : List Cell}
    (held : x.values.Perm (v :: rest)) :
    (x.arena.letGo v).Orderly
      ({ x with arena := x.arena.letGo v, values := rest } : Custody).outside := by
  have split : x.outside.Perm (Pinning.pins v ++ (x.pins ++ rest.flatMap Pinning.pins)) :=
    (List.Perm.append_left x.pins (held.flatMap_right Pinning.pins)).trans
      (List.perm_append_comm_assoc _ _ _)
  exact (h.perm split).unpinAll

/-- The pins of a new frame are those of the values that it is given. -/
theorem mem_pins_slots {code : Code} {args : List Cell} {p : FrameId}
    (h : p ∈ (Frame.slots .nil code args).toList.flatMap Pinning.pins) :
    ∃ v ∈ args, p ∈ Pinning.pins v := by
  obtain ⟨v, hv, hp⟩ := List.mem_flatMap.1 h
  simp only [Frame.slots, Array.toList_append, Array.toList_replicate, List.mem_append,
    List.mem_replicate] at hv
  rcases hv with hv | ⟨-, rfl⟩
  · exact ⟨v, by simpa using hv, hp⟩
  · simp [Pinning.pins, Cell.pins] at hp

theorem count_pins_put {fr : Frame Cell} {slot : Nat} {old v : Cell}
    (here : fr.locals[slot]? = some old) (p : FrameId) :
    ({ fr with locals := fr.locals.setIfInBounds slot v } : Frame Cell).pins.count p
        + (Pinning.pins old).count p
      = fr.pins.count p + (Pinning.pins v).count p := by
  have change := Arena.sum_map_set (List.count p ∘ Pinning.pins) (l := fr.locals.toList) (i := slot)
    (x := old) (by rwa [Array.getElem?_toList]) v
  simp only [Frame.pins, List.count_append, List.count_flatMap, Array.toList_setIfInBounds,
    Function.comp_apply] at change ⊢
  omega

/-- **Whatever is done keeps the arena in order**, also in a slot that has been recycled so often
that its generations have come round. -/
theorem Move.orderly (hm : Move x y) (h : x.arena.Orderly x.outside) :
    y.arena.Orderly y.outside := by
  cases hm with
  | method code receiver args invoking own =>
    refine h.alloc fun id p hp => ?_
    simp only [Frame.pins, Frame.ofMethod, List.reverse_nil, List.flatMap_nil, List.nil_append,
      Option.toList_none, List.append_nil, List.mem_append] at hp
    rcases hp with hp | hp
    · obtain ⟨v, hv, hp⟩ := mem_pins_slots hp
      exact own v (List.mem_cons_of_mem receiver hv) p hp
    · exact own receiver List.mem_cons_self p hp
  | block c args invoking own =>
    show (x.arena.alloc fun _ => .ofClosure .nil c args invoking).1.Orderly x.outside
    refine h.alloc fun id p hp => ?_
    have closure : p ∈ Pinning.pins c.receiver ∨ p = c.enclosing →
        p ∈ Pinning.pins (Cell.block c) := by
      obtain ⟨_, _, _, _, _⟩ := c
      simp [Pinning.pins, Cell.pins]
    simp only [Frame.pins, Frame.ofClosure, List.reverse_nil, List.flatMap_nil, List.nil_append,
      Option.toList_some, List.mem_append, List.mem_singleton, or_assoc] at hp
    rcases hp with hp | hp
    · obtain ⟨v, hv, hp⟩ := mem_pins_slots hp
      exact own v (List.mem_cons_of_mem (.block c) hv) p hp
    · exact own (.block c) List.mem_cons_self p (closure hp)
  | @pin id here =>
    have there : ∀ p ∈ [id], ∃ s, x.arena.slotOf? p = some s := by
      simpa using Arena.contains_iff.1 here
    exact h.pinAll there
  | @unpin id rest held =>
    have split : x.outside.Perm ([id] ++ (rest ++ x.values.flatMap Pinning.pins)) :=
      held.append_right _
    exact (h.perm split).unpinAll
  | @close frame code home receiver arena c held closed =>
    obtain ⟨fr, hfr, made⟩ := Option.map_eq_some_iff.1 closed
    cases made
    refine orderly_hold h fun p hp => ?_
    rcases List.mem_append.1 hp with hp | hp
    · exact exists_slot h (held p hp)
    · cases List.mem_singleton.1 hp
      exact Arena.contains_iff.1 (by simp [Arena.contains, hfr])
  | copy held => exact orderly_hold h fun p hp => exists_slot h (held p hp)
  | letGo held => exact orderly_letGo h held
  | @put id slot v arena held done =>
    obtain ⟨old, hold, rfl⟩ := Arena.put?_eq_some_iff.1 done
    obtain ⟨fr, hfr, here⟩ := Option.bind_eq_some_iff.1 hold
    exact h.exchange hfr (count_pins_put here) fun p hp => exists_slot h (held p hp)
  | rewrite here held =>
    exact h.exchange here (fun p => Nat.add_comm _ _) fun p hp => exists_slot h (held p hp)
  | release known => exact h.release _
  | live => exact h.collect

/-- A change of a frame, with the pins that are taken before and let go after it. -/
theorem Recorded.exchange (h : x.Recorded) (id : FrameId) (g : Frame Cell → Frame Cell)
    (gained lost : List FrameId) :
    (x.amend id g (((gained.foldl Arena.pin x.arena).modify id g).unpinAll lost)).Recorded :=
  ((h.sheds (.pinAll x.arena gained) x.pins x.values).amend id g).sheds (.unpinAll _ lost) x.pins
    x.values

/-- **Whatever is done keeps the books right**, as long as no slot is recycled too often. -/
theorem Recorded.step (h : x.Recorded) (ht : x.arena.Tidy) (hs : Step x y) : y.Recorded := by
  obtain ⟨hm, few⟩ := hs
  cases hm with
  | method => exact h.enter ht few
  | block => exact h.enter ht few
  | pin => exact h.sheds (.pin x.arena _) _ x.values
  | @unpin id rest => exact h.sheds (.unpin x.arena id) rest x.values
  | close _ closed =>
    obtain ⟨fr, -, made⟩ := Option.map_eq_some_iff.1 closed
    cases made
    exact h.sheds (.pinAll _ _) x.pins _
  | copy => exact h.sheds (.pinAll _ _) x.pins _
  | letGo => exact h.sheds (.unpinAll _ _) x.pins _
  | @put id slot v arena _ done =>
    obtain ⟨old, -, rfl⟩ := Arena.put?_eq_some_iff.1 done
    exact h.exchange id _ _ _
  | @rewrite id => exact h.exchange id _ _ _
  | release known => exact h.release known
  | live => exact h.sheds (.collect x.arena) x.pins x.values

/-- The arena is in order, and the books agree with it. -/
structure Sound (x : Custody) : Prop where
  orderly : x.arena.Orderly x.outside
  recorded : x.Recorded

theorem Sound.start (birth : UInt32) : (start birth).Sound := ⟨.empty birth, .start birth⟩

theorem Sound.step (h : x.Sound) (hs : Step x y) : y.Sound :=
  ⟨hs.1.orderly h.orderly, h.recorded.step h.orderly.tidy hs⟩

theorem Sound.live (h : x.Sound) : x.live.Sound :=
  ⟨h.orderly.collect, h.recorded.sheds (.collect x.arena) x.pins x.values⟩

theorem Sound.reaches (h : x.Sound) (hr : Reaches x y) : y.Sound := by
  induction hr with
  | refl => exact h
  | tail _ hs ih => exact ih.step hs

theorem Move.mem_issued (hm : Move x y) {f : FrameId} (hf : f ∈ x.issued) : f ∈ y.issued := by
  cases hm <;> first | exact hf | exact List.mem_cons_of_mem _ hf

/-- A frame is there because it was there before, or because it is the one just made. -/
theorem Move.before (hm : Move x y) (ht : x.arena.Tidy) {f : FrameId}
    (hf : y.arena.contains f = true) : x.arena.contains f = true ∨ y.issued = f :: x.issued := by
  have made {make : FrameId → Frame Cell}
      (hf : (x.arena.alloc make).1.contains f = true) :
      x.arena.contains f = true ∨ (x.arena.alloc make).2 :: x.issued = f :: x.issued := by
    obtain ⟨id, base, eq, lodged⟩ := Arena.exists_lodged ht make
    rw [eq] at hf ⊢
    obtain ⟨s, hs⟩ := Arena.contains_iff.1 ((Arena.Sheds.pinAll base (make id).pins).contains hf)
    rw [lodged.slotOf?] at hs
    split at hs
    · exact .inr (by rw [‹f = id›])
    · exact .inl ((Arena.Sheds.collect x.arena).contains (Arena.contains_iff.2 ⟨s, hs⟩))
  have changed {id : FrameId} {g : Frame Cell → Frame Cell} {gained lost : List FrameId}
      (hf : (((gained.foldl Arena.pin x.arena).modify id g).unpinAll lost).contains f = true) :
      x.arena.contains f = true := by
    have left := (Arena.Sheds.unpinAll _ lost).contains hf
    rw [Arena.contains_modify] at left
    exact (Arena.Sheds.pinAll x.arena gained).contains left
  cases hm with
  | method => exact made hf
  | block => exact made hf
  | pin => exact .inl ((Arena.Sheds.pin x.arena _).contains hf)
  | unpin => exact .inl ((Arena.Sheds.unpin x.arena _).contains hf)
  | close _ closed =>
    obtain ⟨fr, -, done⟩ := Option.map_eq_some_iff.1 closed
    cases done
    exact .inl ((Arena.Sheds.pinAll x.arena _).contains hf)
  | copy => exact .inl ((Arena.Sheds.pinAll x.arena _).contains hf)
  | letGo => exact .inl ((Arena.Sheds.unpinAll x.arena _).contains hf)
  | put _ done =>
    obtain ⟨old, -, rfl⟩ := Arena.put?_eq_some_iff.1 done
    exact .inl (changed hf)
  | rewrite => exact .inl (changed hf)
  | @release id =>
    have left := (Arena.Sheds.release x.arena id).contains hf
    exact .inl (by rwa [Arena.contains_pop] at left)
  | live => exact .inl ((Arena.Sheds.collect x.arena).contains hf)

/-- **A handle that names nothing any more never will again.** -/
theorem Sound.gone (h : x.Sound) (hr : Reaches x y) {f : FrameId} (hf : f ∈ x.issued)
    (gone : x.arena.contains f = false) : f ∈ y.issued ∧ y.arena.contains f = false := by
  induction hr with
  | refl => exact ⟨hf, gone⟩
  | @tail y z hy hs ih =>
    have sound := h.reaches hy
    refine ⟨hs.1.mem_issued ih.1, ?_⟩
    rw [Bool.eq_false_iff]
    intro there
    -- it could come back only as a new frame, and its handle is not new
    rcases hs.1.before sound.orderly.tidy there with before | new
    · rw [ih.2] at before
      simp at before
    · have nodup := (sound.step hs).recorded.nodup
      rw [new] at nodup
      exact (List.nodup_cons.1 nodup).1 ih.1

/-- The frames that are there are those whose handles have been issued and name something. -/
theorem Sound.length_issued (h : x.Sound) :
    (x.issued.filter x.arena.contains).length = x.arena.live := by
  have same : (x.issued.filter x.arena.contains).Perm x.arena.handles := by
    refine (List.perm_ext_iff_of_nodup (h.recorded.nodup.filter _) x.arena.nodup_handles).2
      fun f => ?_
    rw [Arena.mem_handles_iff, ← Arena.contains_iff, List.mem_filter]
    refine and_iff_right_of_imp fun there => ?_
    obtain ⟨s, hs⟩ := Arena.contains_iff.1 there
    exact (h.recorded.known hs).2.1
  rw [same.length_eq, Arena.length_handles, h.orderly.counted]

/-- **Handles are safe and frames are kept exactly as long as they are needed.**  However an arena
has been used:
no handle has been issued twice; a handle names the frame made under it, or nothing, and then it
does so for ever;
a frame that has not been released is there;
a frame on which a pin is held, outside or by a frame that is there, is there;
and when the queue has been worked off, a released frame on which no pin is held is gone, and the
arena counts the handles that still name a frame. -/
theorem safe_and_precise {birth : UInt32} (hx : Reaches (start birth) x) (hy : Reaches x y) :
    x.issued.Nodup
      ∧ (∀ id ∈ x.issued,
        (x.arena.get? id = x.made id ∨ x.arena.get? id = none)
          ∧ (x.arena.get? id = none → y.arena.get? id = none))
      ∧ (∀ id ∈ x.issued, id ∉ x.released → (x.arena.get? id).isSome)
      ∧ (∀ id, x.Pinned id → (x.arena.get? id).isSome)
      ∧ (∀ id ∈ x.released, ¬ x.live.Pinned id → x.live.arena.get? id = none)
      ∧ x.live.arena.live = (x.issued.filter x.live.arena.contains).length := by
  have sound := (Sound.start birth).reaches hx
  have after := sound.live
  refine ⟨sound.recorded.nodup, fun id hid => ⟨?_, fun gone => ?_⟩, fun id hid kept => ?_,
    fun id held => ?_, fun id released free => ?_, after.length_issued.symm⟩
  · cases hs : x.arena.slotOf? id with
    | none => exact .inr (by rw [Arena.get?_eq, hs]; rfl)
    | some s => exact .inl (by rw [Arena.get?_eq, hs, (sound.recorded.known hs).1]; rfl)
  · have none := (sound.gone hy hid (by simp [Arena.contains, gone])).2
    simpa [Arena.contains] using none
  · obtain ⟨fr, hfr⟩ := (sound.recorded.stays hid kept).exists_frame
    simp [hfr]
  · exact Arena.contains_iff.2 (exists_slot sound.orderly held)
  · cases hs : x.live.arena.slotOf? id with
    | none => rw [Arena.get?_eq, hs]; rfl
    | some s =>
      have popped := (after.recorded.known hs).2.2.2 released
      have pos := after.orderly.queued.pinned_of_unpinned (Arena.unpinned_collect x.arena) hs popped
      exact absurd (after.orderly.accounts.held_of_pinned hs pos) free

/-- A method frame is made, a closure is made in it, and it is released: the closure keeps it. -/
theorem safe_and_precise_closure :
    ∃ x id, Reaches (start 0) x ∧ x.issued = [id] ∧ x.released = [id] ∧ x.pins = []
      ∧ (x.arena.get? id).isSome := by
  have few (x : Custody) (short : x.issued.length ≤ 1) (i : Nat) : x.recycled i < 2 ^ 32 :=
    Nat.lt_of_le_of_lt (Nat.le_trans (x.recycled_le i) short) (by decide)
  let x := (start 0).enter (.ofMethod .nil default .nil [] none)
    ((start 0).arena.method .nil default .nil [] none)
  let id := ((start 0).arena.method .nil default .nil [] none).2
  have called : Step (start 0) x := ⟨.method default .nil [] none
    (by simp [Owns, Pinning.pins, Cell.pins]), few x (Nat.le_refl 1)⟩
  obtain ⟨fr, hfr⟩ := (((Sound.start 0).step called).recorded.stays (f := id) List.mem_cons_self
    List.not_mem_nil).exists_frame
  let c : Closure Cell := ⟨0, default, id, fr.home, .nil⟩
  let y : Custody := { x with arena := x.arena.hold (.block c), values := [.block c] }
  have made : Cell.close? x.arena id default none .nil = some (y.arena, c) := by
    rw [Cell.close?, hfr]
    rfl
  have closed : Step x y :=
    ⟨.close (by simp [Has, Pinning.pins, Cell.pins]) made, few y (Nat.le_refl 1)⟩
  let z : Custody := { y with arena := y.arena.release id, released := [id] }
  have released : Step y z := ⟨.release List.mem_cons_self, few z (Nat.le_refl 1)⟩
  have reached : Reaches (start 0) z :=
    ((Relation.ReflTransGen.single called).tail closed).tail released
  have pinned : z.Pinned id := .inl
    (by simp [z, y, x, outside, start, enter, c, Pinning.pins, Cell.pins])
  exact ⟨z, id, reached, rfl, rfl, rfl, (safe_and_precise reached .refl).2.2.2.1 id pinned⟩

end Custody

end Colloquy
