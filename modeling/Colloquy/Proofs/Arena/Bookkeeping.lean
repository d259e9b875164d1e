import Mathlib.Data.List.Perm.Subperm
import Colloquy.Proofs.Arena.Custody

/-!
# The bookkeeping of an arena

The arena lists its free slots and counts its frames (`Arena.Booked`).  Both change together: a
frame that is recycled makes one slot free, and a new frame takes one, so there is a new slot only
if every slot has a frame.

Recycling happens on the way: a frame that is released is recycled at once if it has no pins, and
working off the queue recycles frames turn by turn (`Arena.Turn`), which may put more frames into
the queue.  Each of them was pinned by a frame that is gone, so the turns are no more than the
handles in the queue and the pins of all frames (`Arena.Turns.le_backlog`).

Nothing here depends on how often a slot has been recycled: a handle whose generation has come round
names another frame, but the books stay right.  So these uses are more than those of `Custody.Step`.

Main statement: `Custody.bookkeeping_is_exact`.
-/

namespace Colloquy

namespace Arena

variable {V : Type} {a b c : Arena V} {id : FrameId} {s : Slot V} {i k n : Nat}

/-- Every free slot is listed once, and nothing else; the slots are the frames and the free ones. -/
structure Booked (a : Arena V) : Prop where
  nodup : a.free.Nodup
  mem_free_iff : ∀ i, i ∈ a.free ↔ ∃ s, a.slots[i]? = some s ∧ s.frame = none
  total : a.live + a.free.length = a.slots.size

theorem Booked.start (birth : UInt32) : ({ birth } : Arena V).Booked :=
  ⟨List.nodup_nil, by simp, rfl⟩

/-- While some slot has a frame, frames are counted. -/
theorem Booked.live_pos (h : a.Booked) (here : a.slots[i]? = some s) (frame : s.frame.isSome) :
    0 < a.live := by
  have taken : i ∉ a.free := fun free => by
    obtain ⟨t, there, empty⟩ := (h.mem_free_iff i).1 free
    cases here.symm.trans there
    simp [empty] at frame
  have within : i :: a.free ⊆ List.range a.slots.size := by
    refine List.cons_subset.2
      ⟨List.mem_range.2 (Array.getElem?_eq_some_iff.1 here).1, fun j hj => ?_⟩
    obtain ⟨t, there, -⟩ := (h.mem_free_iff j).1 hj
    exact List.mem_range.2 (Array.getElem?_eq_some_iff.1 there).1
  have few := (List.subperm_of_subset (List.nodup_cons.2 ⟨taken, h.nodup⟩) within).length_le
  rw [List.length_cons, List.length_range, ← h.total] at few
  omega

/-! ## What is done on occupied slots -/

/-- The same slots have frames. -/
structure SameSlots (a b : Arena V) : Prop where
  free : b.free = a.free
  live : b.live = a.live
  occupied : b.slots.map (·.frame.isSome) = a.slots.map (·.frame.isSome)

namespace SameSlots

theorem refl (a : Arena V) : a.SameSlots a := ⟨rfl, rfl, rfl⟩

theorem trans (h : a.SameSlots b) (h' : b.SameSlots c) : a.SameSlots c :=
  ⟨h'.free.trans h.free, h'.live.trans h.live, h'.occupied.trans h.occupied⟩

theorem size (h : a.SameSlots b) : b.slots.size = a.slots.size := by
  simpa using congrArg Array.size h.occupied

theorem booked (h : a.SameSlots b) (booked : a.Booked) : b.Booked := by
  have empty (c : Arena V) (i : Nat) : (∃ s, c.slots[i]? = some s ∧ s.frame = none)
      ↔ (c.slots.map (·.frame.isSome))[i]? = some false := by
    simp [Array.getElem?_map]
  refine ⟨h.free ▸ booked.nodup, fun i => ?_, by rw [h.free, h.live, h.size, booked.total]⟩
  rw [h.free, booked.mem_free_iff, empty, empty, h.occupied]

theorem modifySlot (a : Arena V) (id : FrameId) {g : Slot V → Slot V} (hg : Steady g) :
    a.SameSlots (a.modifySlot id g) := by
  unfold Arena.modifySlot
  split
  · rename_i within
    dsimp only
    split
    · refine ⟨rfl, rfl, Array.ext (by simp) fun j hj _ => ?_⟩
      simp only [Array.getElem_map, Array.getElem_set]
      split
      · subst j
        exact hg.frame _
      · rfl
    · exact refl a
  · exact refl a

theorem of_unpinned (a : Arena V) (queue : List FrameId) :
    a.SameSlots { a with unpinned := queue } := ⟨rfl, rfl, rfl⟩

theorem unpin (a : Arena V) (id : FrameId) : a.SameSlots (a.unpin id) := by
  unfold Arena.unpin
  dsimp only
  split
  · exact (modifySlot a id (steady_pinned fun s => s.pinned - 1)).trans (of_unpinned _ _)
  · exact modifySlot a id (steady_pinned fun s => s.pinned - 1)

theorem unpinAll (a : Arena V) (ids : List FrameId) : a.SameSlots (a.unpinAll ids) := by
  induction ids generalizing a with
  | nil => exact refl a
  | cons id rest ih => exact (unpin a id).trans (ih _)

theorem pin (a : Arena V) (id : FrameId) : a.SameSlots (a.pin id) :=
  modifySlot a id (steady_pinned _)

theorem pinAll (a : Arena V) (ids : List FrameId) : a.SameSlots (ids.foldl Arena.pin a) := by
  induction ids generalizing a with
  | nil => exact refl a
  | cons id rest ih => exact (pin a id).trans (ih _)

/-- A change of a frame, with the pins that are taken before and let go after it. -/
theorem exchange (a : Arena V) (id : FrameId) (g : Frame V → Frame V) (gained lost : List FrameId) :
    a.SameSlots (((gained.foldl Arena.pin a).modify id g).unpinAll lost) :=
  ((pinAll a gained).trans (modifySlot _ id (steady_frame g))).trans (unpinAll _ lost)

end SameSlots

/-! ## The queue -/

theorem slotOf?_of_spent (here : a.slots[id.index]? = some s)
    (spent : s.spent id.generation = true) : a.slotOf? id = some s :=
  slotOf?_eq_some_iff.2 ⟨here, (Slot.spent_iff.1 spent).1⟩

theorem length_unpinned_unpin_le (a : Arena V) (id : FrameId) :
    (a.unpin id).unpinned.length ≤ a.unpinned.length + 1 := by
  unfold unpin
  dsimp only
  split
  · simp only [unpinned_modifySlot, List.length_cons, Nat.le_refl]
  · simp only [unpinned_modifySlot, Nat.le_succ]

theorem length_unpinned_unpinAll_le (a : Arena V) (ids : List FrameId) :
    (a.unpinAll ids).unpinned.length ≤ a.unpinned.length + ids.length := by
  induction ids generalizing a with
  | nil => exact Nat.le_refl _
  | cons id rest ih =>
    have one := length_unpinned_unpin_le a id
    have more := ih (a.unpin id)
    rw [List.length_cons]
    exact Nat.le_trans more (by omega)

variable [Pinning V]

/-! ## Recycling, turn by turn -/

/-- One turn of working off the queue: its first handle is passed over, or the frame recycled. -/
inductive Turn : Arena V → Arena V → Prop
  | skip {a : Arena V} {id : FrameId} {rest : List FrameId} (queue : a.unpinned = id :: rest)
      (needed : ∀ s, a.slots[id.index]? = some s → s.spent id.generation = false) :
      Turn a { a with unpinned := rest }
  | recycle {a : Arena V} {id : FrameId} {rest : List FrameId} {s : Slot V}
      (queue : a.unpinned = id :: rest) (here : a.slots[id.index]? = some s)
      (spent : s.spent id.generation = true) :
      Turn a (Arena.recycle { a with unpinned := rest } id.index)

/-- A number of turns, one after another. -/
inductive Turns : Nat → Arena V → Arena V → Prop
  | done (a : Arena V) : Turns 0 a a
  | turn {n : Nat} {a b c : Arena V} (first : Turn a b) (later : Turns n b c) : Turns (n + 1) a c

/-- What the arena is while something is done with it: as before, with a frame popped, with that
frame recycled because it has no pins, and after each turn of working off the queue. -/
inductive Working (a : Arena V) : Arena V → Prop
  | idle : Working a a
  | pop {id : FrameId} (here : a.contains id = true) :
      Working a (a.modifySlot id ({ · with popped := true }))
  | recycle {id : FrameId} (here : a.contains id = true)
      (free : (a.modifySlot id ({ · with popped := true })).pinCount id = 0) :
      Working a ((a.modifySlot id ({ · with popped := true })).recycle id.index)
  | turn {b c : Arena V} (before : Working a b) (turn : Turn b c) : Working a c

/-- The handles in the queue, and the pins that could put more handles there. -/
def backlog (a : Arena V) : Nat := a.unpinned.length + a.weigh (·.pins.length)

theorem turns_collect (a : Arena V) : ∃ n, Turns n a a.collect := by
  fun_induction collect a with
  | case1 a => exact ⟨0, .done a⟩
  | case2 a id rest queue missing ih =>
    obtain ⟨n, later⟩ := ih
    exact ⟨n + 1, .turn (.skip queue fun s here => by cases missing.symm.trans here) later⟩
  | case3 a id rest queue s here spent ih =>
    obtain ⟨n, later⟩ := ih
    exact ⟨n + 1, .turn (.recycle queue here spent) later⟩
  | case4 a id rest queue s here needed ih =>
    obtain ⟨n, later⟩ := ih
    refine ⟨n + 1, .turn (.skip queue fun t there => ?_) later⟩
    cases here.symm.trans there
    exact Bool.eq_false_iff.2 needed

/-- **Every turn takes something off the backlog**: what a recycled frame puts into the queue, it
had pinned before. -/
theorem Turn.backlog_lt (h : Turn a b) : b.backlog < a.backlog := by
  cases h with
  | @skip id rest queue =>
    rw [backlog, backlog, queue, List.length_cons]
    show rest.length + a.weigh _ < _
    omega
  | @recycle id rest s queue here spent =>
    have hs : ({ a with unpinned := rest } : Arena V).slotOf? id = some s :=
      slotOf?_of_spent here spent
    obtain ⟨fr, frame, hfr⟩ := exists_frame_of_slotOf? hs
    have lighter := weigh_recycle (w := fun fr => fr.pins.length) hfr
    have same : ({ a with unpinned := rest } : Arena V).weigh (fun fr => fr.pins.length)
        = a.weigh fun fr => fr.pins.length := rfl
    have longer : (Arena.recycle { a with unpinned := rest } id.index).unpinned.length
        ≤ rest.length + fr.pins.length := by
      rw [recycle_eq hs frame]
      exact length_unpinned_unpinAll_le _ fr.pins
    rw [backlog, backlog, queue, List.length_cons]
    omega

/-- **Working off the queue ends**, whatever is in it: there are not more turns than the backlog. -/
theorem Turns.le_backlog (h : Turns n a b) : n + b.backlog ≤ a.backlog := by
  induction h with
  | done a => exact Nat.le_of_eq (Nat.zero_add _)
  | turn first later ih =>
    have := first.backlog_lt
    omega

theorem Working.turns (h : Working a b) (more : Turns n b c) : Working a c := by
  induction more with
  | done => exact h
  | turn first _ ih => exact ih (h.turn first)

theorem Working.collect (h : Working a b) : Working a b.collect := by
  obtain ⟨n, turns⟩ := turns_collect b
  exact h.turns turns

theorem working_release (a : Arena V) (id : FrameId) : Working a (a.release id) := by
  unfold release
  dsimp only
  split
  · rename_i here
    refine Working.collect ?_
    split
    · exact .recycle here ‹_›
    · exact .pop here
  · exact .idle

/-! ## The books -/

/-- A frame that is recycled is one less and makes its slot free. -/
theorem Booked.recycle (h : a.Booked) (hs : a.slotOf? id = some s) :
    (a.recycle id.index).Booked ∧ (a.recycle id.index).live + 1 = a.live
      ∧ (a.recycle id.index).slots.size = a.slots.size := by
  obtain ⟨here, holds⟩ := slotOf?_eq_some_iff.1 hs
  obtain ⟨-, fr, frame⟩ := Slot.holds_iff.1 holds
  have some : s.frame.isSome := by simp [frame]
  have counted := h.live_pos here some
  have within := (Array.getElem?_eq_some_iff.1 here).1
  rw [recycle_eq hs frame]
  have same := SameSlots.unpinAll ({ a with
    slots := a.slots.setIfInBounds id.index s.emptied
    free := id.index :: a.free
    live := a.live - 1 } : Arena V) fr.pins
  refine ⟨same.booked ⟨List.nodup_cons.2 ⟨fun free => ?_, h.nodup⟩, fun i => ?_, ?_⟩, ?_, ?_⟩
  · obtain ⟨t, there, empty⟩ := (h.mem_free_iff _).1 free
    cases here.symm.trans there
    simp [empty] at some
  · rw [List.mem_cons, h.mem_free_iff, Array.getElem?_setIfInBounds]
    by_cases hi : id.index = i
    · simp [← hi, within, Slot.emptied]
    · simp [hi, Ne.symm hi]
  · have := h.total
    simp only [List.length_cons, Array.size_setIfInBounds]
    omega
  · rw [same.live]
    exact Nat.sub_add_cancel counted
  · rw [same.size, Array.size_setIfInBounds]

theorem Turn.booked (h : Turn a b) (booked : a.Booked) :
    b.Booked ∧ b.slots.size = a.slots.size := by
  cases h with
  | skip => exact ⟨(SameSlots.of_unpinned a _).booked booked, rfl⟩
  | @recycle id rest s queue here spent =>
    have hs : ({ a with unpinned := rest } : Arena V).slotOf? id = some s :=
      slotOf?_of_spent here spent
    obtain ⟨booked, -, size⟩ := ((SameSlots.of_unpinned a rest).booked booked).recycle hs
    exact ⟨booked, size⟩

/-- **The books are right at every moment**, and no slot is added. -/
theorem Working.booked (h : Working a b) (booked : a.Booked) :
    b.Booked ∧ b.slots.size = a.slots.size := by
  induction h with
  | idle => exact ⟨booked, rfl⟩
  | @pop id =>
    have same := SameSlots.modifySlot a id (steady_popped (V := V))
    exact ⟨same.booked booked, same.size⟩
  | @recycle id here =>
    have same := SameSlots.modifySlot a id (steady_popped (V := V))
    obtain ⟨s, hs⟩ := contains_iff.1 here
    have popped : (a.modifySlot id ({ · with popped := true })).slotOf? id
        = some { s with popped := true } := by
      rw [slotOf?_modifySlot steady_popped, if_pos rfl, hs]
      rfl
    obtain ⟨booked, -, size⟩ := (same.booked booked).recycle popped
    exact ⟨booked, size.trans same.size⟩
  | turn _ turn ih =>
    obtain ⟨booked, size⟩ := turn.booked ih.1
    exact ⟨booked, size.trans ih.2⟩

/-- A new frame goes into a slot that is empty but not listed as free any more. -/
theorem booked_fill (nodup : a.free.Nodup) (room : k < a.slots.size)
    (others : ∀ i, i ∈ a.free ↔ i ≠ k ∧ ∃ s, a.slots[i]? = some s ∧ s.frame = none)
    (total : a.live + a.free.length + 1 = a.slots.size) (make : FrameId → Frame V) :
    (a.fill k make).1.Booked ∧ (a.fill k make).1.slots.size = a.slots.size
      ∧ (a.fill k make).1.live = a.live + 1 := by
  have same := SameSlots.pinAll ({ a with
    slots := a.slots.setIfInBounds k
      { generation := (a.slots.getD k {}).generation
        frame := some (make ⟨k, (a.slots.getD k {}).generation⟩) }
    live := a.live + 1 } : Arena V) (make ⟨k, (a.slots.getD k {}).generation⟩).pins
  refine ⟨same.booked ⟨nodup, fun i => ?_, ?_⟩, ?_, same.live⟩
  · rw [others, Array.getElem?_setIfInBounds]
    by_cases hi : k = i
    · simp [← hi, room]
    · simp [hi, Ne.symm hi]
  · rw [Array.size_setIfInBounds]
    show a.live + 1 + a.free.length = _
    omega
  · exact same.size.trans Array.size_setIfInBounds

/-- **A new frame takes a free slot**, and a new one only if there is none. -/
theorem Booked.alloc (h : a.Booked) (make : FrameId → Frame V) :
    (a.alloc make).1.Booked
      ∧ (a.alloc make).1.slots.size = max a.slots.size (a.alloc make).1.live := by
  obtain ⟨hb, size⟩ := (Working.idle (a := a)).collect.booked h
  rw [alloc_eq, ← size]
  generalize a.collect = b at hb
  have total := hb.total
  cases free : b.free with
  | cons k rest =>
    have first := hb.mem_free_iff k
    rw [free] at total first
    obtain ⟨notin, nodup⟩ := List.nodup_cons.1 (free ▸ hb.nodup)
    obtain ⟨s, here, -⟩ := first.1 List.mem_cons_self
    rw [List.length_cons] at total
    obtain ⟨booked, size, live⟩ := booked_fill (a := { b with free := rest }) nodup
      (Array.getElem?_eq_some_iff.1 here).1 (fun i => by
        rw [← hb.mem_free_iff, free, List.mem_cons]
        exact ⟨fun hi => ⟨fun eq => notin (eq ▸ hi), .inr hi⟩, fun hi => hi.2.resolve_left hi.1⟩)
      total make
    refine ⟨booked, ?_⟩
    rw [size, live]
    show b.slots.size = max b.slots.size (b.live + 1)
    omega
  | nil =>
    rw [free, List.length_nil] at total
    obtain ⟨booked, size, live⟩ := booked_fill (k := b.slots.size)
      (a := { b with slots := b.slots.push { generation := b.birth } }) hb.nodup (by simp)
      (fun i => by
        rw [hb.mem_free_iff, Array.getElem?_push]
        by_cases hi : i = b.slots.size
        · simp [hi]
        · simp [hi])
      (by simp [free, total]) make
    refine ⟨booked, ?_⟩
    rw [size, live, Array.size_push]
    show b.slots.size + 1 = max b.slots.size (b.live + 1)
    omega

end Arena

namespace Custody

variable {x y : Custody} {birth : UInt32} {most : Nat}

/-- What can be done with an arena at all: also releasing a frame by a handle that was not issued
for it, but in another arena. -/
inductive Deed : Custody → Custody → Prop
  | move {x y : Custody} (hm : Move x y) : Deed x y
  | release {x : Custody} (id : FrameId) : Deed x { x with arena := x.arena.release id }

/-- An arena in use from its start, and the most frames that it has had when one had just been made.
A frame has been made if another handle has been issued. -/
inductive Used (birth : UInt32) : Custody → Nat → Prop
  | start : Used birth (start birth) 0
  | make {x y : Custody} {most : Nat} (before : Used birth x most) (hd : Deed x y)
      (made : y.issued ≠ x.issued) : Used birth y (max most y.arena.live)
  | other {x y : Custody} {most : Nat} (before : Used birth x most) (hd : Deed x y)
      (same : y.issued = x.issued) : Used birth y most

/-- The books are right, and there is a new slot only for a frame that has just been made. -/
structure Files (x y : Custody) : Prop where
  booked : y.arena.Booked
  kept : y.issued = x.issued → y.arena.slots.size = x.arena.slots.size
  made : y.issued ≠ x.issued → y.arena.slots.size = max x.arena.slots.size y.arena.live

/-- Nothing has been made. -/
theorem Files.of_issued (issued : y.issued = x.issued)
    (h : y.arena.Booked ∧ y.arena.slots.size = x.arena.slots.size) : Files x y :=
  ⟨h.1, fun _ => h.2, fun made => absurd issued made⟩

theorem Files.of_same (issued : y.issued = x.issued) (booked : x.arena.Booked)
    (same : x.arena.SameSlots y.arena) : Files x y :=
  .of_issued issued ⟨same.booked booked, same.size⟩

theorem Files.enter (h : x.arena.Booked) (make : FrameId → Frame Cell) :
    Files x (x.enter make (x.arena.alloc make)) :=
  ⟨(h.alloc make).1, fun same => absurd same (List.cons_ne_self _ _), fun _ => (h.alloc make).2⟩

/-- **Whatever is done, the books stay right.** -/
theorem Move.files (hm : Move x y) (h : x.arena.Booked) : Files x y := by
  cases hm with
  | method => exact .enter h _
  | block => exact .enter h _
  | @pin id => exact .of_same rfl h (.pin x.arena id)
  | @unpin id => exact .of_same rfl h (.unpin x.arena id)
  | close _ closed =>
    obtain ⟨fr, -, made⟩ := Option.map_eq_some_iff.1 closed
    cases made
    exact .of_same rfl h (.pinAll x.arena _)
  | copy => exact .of_same rfl h (.pinAll x.arena _)
  | letGo => exact .of_same rfl h (.unpinAll x.arena _)
  | put _ done =>
    obtain ⟨old, -, rfl⟩ := Arena.put?_eq_some_iff.1 done
    exact .of_same rfl h (.exchange x.arena _ _ _ _)
  | rewrite => exact .of_same rfl h (.exchange x.arena _ _ _ _)
  | @release id => exact .of_issued rfl ((Arena.working_release x.arena id).booked h)
  | live => exact .of_issued rfl (Arena.Working.idle.collect.booked h)

theorem Deed.files (hd : Deed x y) (h : x.arena.Booked) : Files x y := by
  cases hd with
  | move hm => exact hm.files h
  | release id => exact .of_issued rfl ((Arena.working_release x.arena id).booked h)

theorem Deed.orderly (hd : Deed x y) (h : x.arena.Orderly x.outside) :
    y.arena.Orderly y.outside := by
  cases hd with
  | move hm => exact hm.orderly h
  | release id => exact h.release id

/-- **Slots are added only when all are taken**, so they are as many as frames were at most. -/
theorem Used.kept (h : Used birth x most) :
    x.arena.Booked ∧ x.arena.slots.size = most ∧ x.arena.Orderly x.outside := by
  induction h with
  | start => exact ⟨.start birth, rfl, .empty birth⟩
  | make _ hd made ih =>
    have files := hd.files ih.1
    exact ⟨files.booked, by rw [files.made made, ih.2.1], hd.orderly ih.2.2⟩
  | other _ hd same ih =>
    have files := hd.files ih.1
    exact ⟨files.booked, by rw [files.kept same, ih.2.1], hd.orderly ih.2.2⟩

/-- **The books of an arena are exact, and working off the queue ends.**  However an arena has been
used, also for so long that generations have come round:
the free slots are listed once each, and they are the slots without a frame;
the frames and the free slots are all slots;
at every moment of what is done next, the count of frames goes down by one with every frame that is
recycled;
there are as many slots as there were frames at most when one had just been made;
and a popped frame on which no pin is held is in the queue, under the generation of its slot.
Working off the queue of any arena takes no more turns than there are handles in the queue and pins
held by frames, and leaves an empty queue. -/
theorem bookkeeping_is_exact (used : Used birth x most) :
    x.arena.free.Nodup
      ∧ (∀ i, i ∈ x.arena.free ↔ ∃ s, x.arena.slots[i]? = some s ∧ s.frame = none)
      ∧ x.arena.live + x.arena.free.length = x.arena.slots.size
      ∧ (∀ b, x.arena.Working b → ∀ i s, b.slots[i]? = some s → s.frame.isSome →
        (b.recycle i).live + 1 = b.live)
      ∧ x.arena.slots.size = most
      ∧ (∀ i s, x.arena.slots[i]? = some s → s.frame.isSome → s.popped = true →
        ¬ x.Pinned ⟨i, s.generation⟩ → ⟨i, s.generation⟩ ∈ x.arena.unpinned)
      ∧ ∀ a : Arena Cell, (∃ n, Arena.Turns n a a.collect) ∧ a.collect.unpinned = []
        ∧ ∀ n b, Arena.Turns n a b → n ≤ a.unpinned.length + a.weigh (·.pins.length) := by
  obtain ⟨booked, size, orderly⟩ := used.kept
  have named {b : Arena Cell} {i : Nat} {s : Slot Cell} (here : b.slots[i]? = some s)
      (frame : s.frame.isSome) : b.slotOf? ⟨i, s.generation⟩ = some s :=
    Arena.slotOf?_eq_some_iff.2 ⟨here, by simpa [Slot.holds] using frame⟩
  refine ⟨booked.nodup, booked.mem_free_iff, booked.total, fun b working i s here frame => ?_, size,
    fun i s here frame popped free => ?_, fun a => ?_⟩
  · exact ((working.booked booked).1.recycle (named here frame)).2.1
  · refine orderly.queued _ s (named here frame) popped ?_
    refine Nat.eq_zero_of_not_pos fun pinned => free ?_
    exact orderly.accounts.held_of_pinned (named here frame) pinned
  · exact ⟨Arena.turns_collect a, Arena.unpinned_collect a,
      fun n b turns => Nat.le_trans (Nat.le_add_right _ _) turns.le_backlog⟩

/-- An arena with a single frame, that of a method, and the first closure that is made in it. -/
def single (popped : Bool) (pinned : Nat) (unpinned : List FrameId) : Arena Cell × Closure Cell :=
  let id : FrameId := ⟨0, 0⟩
  let frame := Frame.ofMethod .nil default .nil [] none id
  ({ slots := #[{ generation := 0, frame := some frame, popped, pinned }], live := 1, unpinned },
    ⟨0, default, id, id, .nil⟩)

/-- A method frame is made, a closure is made in it, the frame is released, and the closure let go.
Then the frame waits in the queue. -/
theorem bookkeeping_is_exact_closure : ∃ x, Used 0 x 1 ∧ x.arena.slots.size = 1
    ∧ x.arena.live + x.arena.free.length = 1 ∧ ⟨0, 0⟩ ∈ x.arena.unpinned := by
  have called : (start 0).arena.method .nil default .nil [] none
      = ((single false 0 []).1, ⟨0, 0⟩) := by cbv
  have closed : Cell.close? (single false 0 []).1 ⟨0, 0⟩ default none .nil
      = some ((single false 1 []).1, (single false 0 []).2) := rfl
  have popped : (single false 1 []).1.release ⟨0, 0⟩ = (single true 1 []).1 := by cbv
  have dropped : (single true 1 []).1.letGo (.block (single false 0 []).2)
      = (single true 0 [⟨0, 0⟩]).1 := rfl
  have bare : (single true 0 [⟨0, 0⟩]).1.weigh (fun fr => fr.pins.length) = 0 := by cbv
  have made : Move (start 0)
      ((start 0).enter (.ofMethod .nil default .nil [] none) ((single false 0 []).1, ⟨0, 0⟩)) :=
    called ▸ .method default .nil [] none (by simp [Owns, Pinning.pins, Cell.pins])
  let x := (start 0).enter (.ofMethod .nil default .nil [] none) ((single false 0 []).1, ⟨0, 0⟩)
  let c : Cell := .block (single false 0 []).2
  have hx : Used 0 x 1 := .make .start (.move made) (List.cons_ne_self _ _)
  have hy : Used 0 { x with arena := (single false 1 []).1, values := [c] } 1 :=
    .other hx (.move (.close (by simp [Has, Pinning.pins, Cell.pins]) closed)) rfl
  have hz : Used 0
      { x with arena := (single true 1 []).1, values := [c], released := [⟨0, 0⟩] } 1 :=
    .other hy (.move (popped ▸ .release List.mem_cons_self)) rfl
  have hw : Used 0
      { x with arena := (single true 0 [⟨0, 0⟩]).1, values := [], released := [⟨0, 0⟩] } 1 :=
    .other hz (.move (dropped ▸ .letGo (List.Perm.refl [c]))) rfl
  obtain ⟨-, -, total, -, size, queued, -⟩ := bookkeeping_is_exact hw
  refine ⟨_, hw, size, total.trans size, queued 0 _ rfl rfl rfl ?_⟩
  rintro (mem | ⟨f, fr, hf, mem⟩)
  · exact List.not_mem_nil mem
  · have few := Arena.le_weigh (w := fun fr => fr.pins.length) hf
    rw [bare, Nat.le_zero, List.length_eq_zero_iff] at few
    rw [few] at mem
    exact List.not_mem_nil mem

end Custody

end Colloquy
