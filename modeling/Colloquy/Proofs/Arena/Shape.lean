import Colloquy.Proofs.Arena.Slots
import Colloquy.Proofs.Likeness

/-!
# Arenas of one shape

Where frames go and when they are given up depends on their pins only, not on anything else that
they hold.  Two arenas are of one shape if they agree slot by slot, with frames that may differ as
`F` says (`Arena.Alike`), where `F` relates frames with the same pins.

Main statements: arenas of one shape stay so when a frame is made (`Arena.Alike.alloc`), which gets
the same handle in both, and when one is given up (`Arena.Alike.release`).
-/

namespace Colloquy

variable {V : Type} {F : Frame V → Frame V → Prop}

/-- The slots are the same but for their frames, which `F` relates. -/
structure Slot.Alike (F : Frame V → Frame V → Prop) (s s' : Slot V) : Prop where
  generation : s'.generation = s.generation
  frame : Option.Rel F s.frame s'.frame
  popped : s'.popped = s.popped
  pinned : s'.pinned = s.pinned

theorem isSome_of_rel {α β : Type} {T : α → β → Prop} {o : Option α} {o' : Option β}
    (h : Option.Rel T o o') : o'.isSome = o.isSome := by
  cases h <;> rfl

namespace Slot.Alike

variable {s s' : Slot V}

theorem holds (h : s.Alike F s') (g : UInt32) : s'.holds g = s.holds g :=
  Slot.holds_congr h.generation (isSome_of_rel h.frame) g

theorem spent (h : s.Alike F s') (g : UInt32) : s'.spent g = s.spent g := by
  simp only [Slot.spent, h.holds, h.popped, h.pinned]

theorem emptied (h : s.Alike F s') : s.emptied.Alike F s'.emptied :=
  ⟨congrArg (· + 1) h.generation, .none, rfl, rfl⟩

end Slot.Alike

namespace Arena

/-- The arenas agree slot by slot. -/
structure Alike (F : Frame V → Frame V → Prop) (a a' : Arena V) : Prop where
  slots : List.Forall₂ (Slot.Alike F) a.slots.toList a'.slots.toList
  free : a'.free = a.free
  live : a'.live = a.live
  unpinned : a'.unpinned = a.unpinned
  birth : a'.birth = a.birth

/-- The first frame of the queue is looked at. -/
theorem collect_cons [Pinning V] {a : Arena V} {id : FrameId} {rest : List FrameId}
    (h : a.unpinned = id :: rest) :
    a.collect =
      if (a.slots[id.index]?).any (·.spent id.generation) then
        (({ a with unpinned := rest } : Arena V).recycle id.index).collect
      else ({ a with unpinned := rest } : Arena V).collect := by
  rw [collect]
  split
  · rename_i h'
    rw [h] at h'
    cases h'
  · rename_i h'
    rw [h] at h'
    cases h'
    split
    · rename_i gone
      rw [gone]
      rfl
    · rename_i here
      rw [here, Option.any_some]
      split <;> rfl

namespace Alike

variable {a a' : Arena V}

theorem slot (h : a.Alike F a') (k : Nat) :
    Option.Rel (Slot.Alike F) a.slots[k]? a'.slots[k]? := by
  have entry := forall₂_getElem? h.slots k
  rwa [Array.getElem?_toList, Array.getElem?_toList] at entry

theorem slotOf? (h : a.Alike F a') (id : FrameId) :
    Option.Rel (Slot.Alike F) (a.slotOf? id) (a'.slotOf? id) := by
  have entry := h.slot id.index
  unfold Arena.slotOf?
  generalize a.slots[id.index]? = o at entry
  generalize a'.slots[id.index]? = o' at entry
  cases entry with
  | none => exact .none
  | some alike =>
    simp only [Option.filter, alike.holds]
    split
    · exact .some alike
    · exact .none

theorem get? (h : a.Alike F a') (id : FrameId) : Option.Rel F (a.get? id) (a'.get? id) := by
  have here := h.slotOf? id
  rw [get?_eq, get?_eq]
  generalize a.slotOf? id = o at here
  generalize a'.slotOf? id = o' at here
  cases here with
  | none => exact .none
  | some alike => exact alike.frame

theorem contains (h : a.Alike F a') (id : FrameId) : a'.contains id = a.contains id :=
  isSome_of_rel (h.get? id)

theorem pinCount (h : a.Alike F a') (id : FrameId) : a'.pinCount id = a.pinCount id := by
  have here := h.slotOf? id
  rw [pinCount_eq, pinCount_eq]
  generalize a.slotOf? id = o at here
  generalize a'.slotOf? id = o' at here
  cases here with
  | none => rfl
  | some alike => exact alike.pinned

theorem set {s s' : Slot V} (h : a.Alike F a') (k : Nat) (hs : s.Alike F s') :
    ({ a with slots := a.slots.setIfInBounds k s } : Arena V).Alike F
      { a' with slots := a'.slots.setIfInBounds k s' } := by
  refine ⟨?_, h.free, h.live, h.unpinned, h.birth⟩
  rw [Array.toList_setIfInBounds, Array.toList_setIfInBounds]
  exact forall₂_set h.slots k hs

theorem modifySlot {f f' : Slot V → Slot V} (h : a.Alike F a') (id : FrameId)
    (hf : ∀ s s' : Slot V, s.Alike F s' → (f s).Alike F (f' s')) :
    (a.modifySlot id f).Alike F (a'.modifySlot id f') := by
  have here := h.slotOf? id
  cases hs : a.slotOf? id with
  | none =>
    cases hs' : a'.slotOf? id with
    | none =>
      rw [modifySlot_of_none hs, modifySlot_of_none hs']
      exact h
    | some s' =>
      rw [hs, hs'] at here
      cases here
  | some s =>
    cases hs' : a'.slotOf? id with
    | none =>
      rw [hs, hs'] at here
      cases here
    | some s' =>
      rw [hs, hs'] at here
      cases here with
      | some alike =>
        rw [modifySlot_of_slotOf? hs, modifySlot_of_slotOf? hs']
        exact h.set id.index (hf s s' alike)

/-- A frame is changed in both. -/
theorem modify {f f' : Frame V → Frame V} (h : a.Alike F a') (id : FrameId)
    (hf : ∀ fr fr', F fr fr' → F (f fr) (f' fr')) : (a.modify id f).Alike F (a'.modify id f') :=
  h.modifySlot id fun s s' hs => ⟨hs.generation, by
    have frame := hs.frame
    generalize s.frame = o at frame
    generalize s'.frame = o' at frame
    cases frame with
    | none => exact .none
    | some hfr => exact .some (hf _ _ hfr), hs.popped, hs.pinned⟩

/-- A frame is changed in the first arena only. -/
theorem modify_left {f : Frame V → Frame V} (h : a.Alike F a') (id : FrameId)
    (hf : ∀ fr fr', F fr fr' → F (f fr) fr') : (a.modify id f).Alike F a' := by
  have unchanged : a'.modify id (fun fr => fr) = a' := by
    cases hs : a'.slotOf? id with
    | none => exact modifySlot_of_none hs
    | some s =>
      obtain ⟨hi, rfl⟩ := Array.getElem?_eq_some_iff.1 (slotOf?_eq_some_iff.1 hs).1
      rw [Arena.modify, modifySlot_of_slotOf? hs]
      simp only [Option.map_id', Array.setIfInBounds, hi, dif_pos]
      exact congrArg (fun slots => ({ a' with slots } : Arena V)) (Array.set_getElem_self hi)
  rw [← unchanged]
  exact h.modify id hf

theorem pin (h : a.Alike F a') (id : FrameId) : (a.pin id).Alike F (a'.pin id) :=
  h.modifySlot id fun _ _ hs =>
    ⟨hs.generation, hs.frame, hs.popped, congrArg (· + 1) hs.pinned⟩

theorem pinAll (h : a.Alike F a') (ids : List FrameId) :
    (ids.foldl Arena.pin a).Alike F (ids.foldl Arena.pin a') := by
  induction ids generalizing a a' with
  | nil => exact h
  | cons id rest ih => exact ih (h.pin id)

theorem unpin (h : a.Alike F a') (id : FrameId) : (a.unpin id).Alike F (a'.unpin id) := by
  have lowered := @modifySlot _ _ _ _ (fun s => { s with pinned := s.pinned - 1 })
    (fun s => { s with pinned := s.pinned - 1 }) h id fun _ _ hs =>
      ⟨hs.generation, hs.frame, hs.popped, congrArg (· - 1) hs.pinned⟩
  simp only [Arena.unpin, h.contains, h.pinCount]
  split
  · exact ⟨lowered.slots, lowered.free, lowered.live, congrArg (id :: ·) lowered.unpinned,
      lowered.birth⟩
  · exact lowered

theorem unpinAll (h : a.Alike F a') (ids : List FrameId) :
    (a.unpinAll ids).Alike F (a'.unpinAll ids) := by
  induction ids generalizing a a' with
  | nil => exact h
  | cons id rest ih => exact ih (h.unpin id)

variable [Pinning V]

section Pins

variable (pins : ∀ {fr fr' : Frame V}, F fr fr' → fr'.pins = fr.pins)
include pins

theorem recycle (h : a.Alike F a') (k : Nat) : (a.recycle k).Alike F (a'.recycle k) := by
  have here := h.slot k
  unfold Arena.recycle
  generalize a.slots[k]? = o at here
  generalize a'.slots[k]? = o' at here
  cases here with
  | none => exact h
  | @some s s' alike =>
    have frame := alike.frame
    dsimp only
    generalize s.frame = o at frame
    generalize s'.frame = o' at frame
    cases frame with
    | none => exact h
    | some hfr =>
      dsimp only
      rw [pins hfr]
      refine unpinAll ?_ _
      exact ⟨(h.set k alike.emptied).slots, congrArg (k :: ·) h.free, congrArg (· - 1) h.live,
        h.unpinned, h.birth⟩

/-- **The queue of unpinned frames** is worked off in both alike. -/
theorem collect (h : a.Alike F a') : a.collect.Alike F a'.collect := by
  have shorter {b b' : Arena V} (h : b.Alike F b') (rest : List FrameId) :
      ({ b with unpinned := rest } : Arena V).Alike F { b' with unpinned := rest } :=
    ⟨h.slots, h.free, h.live, rfl, h.birth⟩
  fun_induction Arena.collect a generalizing a' with
  | case1 a queue =>
    rw [collect_nil (h.unpinned.trans queue)]
    exact h
  | case2 a id rest queue gone ih =>
    have here := h.slot id.index
    rw [collect_cons (h.unpinned.trans queue)]
    rw [gone] at here
    cases hs : a'.slots[id.index]? with
    | none => exact ih (shorter h rest)
    | some s' =>
      rw [hs] at here
      cases here
  | case3 a id rest queue s slot spent ih =>
    have here := h.slot id.index
    rw [collect_cons (h.unpinned.trans queue)]
    rw [slot] at here
    generalize a'.slots[id.index]? = o at here
    cases here with
    | some alike =>
      simp only [Option.any_some, alike.spent, spent, if_true]
      exact ih ((shorter h rest).recycle pins id.index)
  | case4 a id rest queue s slot spent ih =>
    have here := h.slot id.index
    rw [collect_cons (h.unpinned.trans queue)]
    rw [slot] at here
    generalize a'.slots[id.index]? = o at here
    cases here with
    | some alike =>
      rw [Option.any_some, alike.spent, if_neg spent]
      exact ih (shorter h rest)

theorem fill (h : a.Alike F a') (k : Nat) {make make' : FrameId → Frame V}
    (hm : ∀ id, F (make id) (make' id)) :
    (a.fill k make).1.Alike F (a'.fill k make').1 ∧ (a'.fill k make').2 = (a.fill k make).2 := by
  have same : (a'.slots.getD k {}).generation = (a.slots.getD k {}).generation := by
    have here := h.slot k
    rw [Array.getD_eq_getD_getElem?, Array.getD_eq_getD_getElem?]
    generalize a.slots[k]? = o at here
    generalize a'.slots[k]? = o' at here
    cases here with
    | none => rfl
    | some alike => exact alike.generation
  simp only [Arena.fill, same, pins (hm _), and_true]
  generalize (a.slots.getD k {}).generation = g
  have filled := h.set k (⟨rfl, .some (hm ⟨k, g⟩), rfl, rfl⟩ :
    Slot.Alike F ⟨g, some (make ⟨k, g⟩), false, 0⟩ ⟨g, some (make' ⟨k, g⟩), false, 0⟩)
  have start : Alike F { a with
      slots := a.slots.setIfInBounds k ⟨g, some (make ⟨k, g⟩), false, 0⟩, live := a.live + 1 }
      { a' with
        slots := a'.slots.setIfInBounds k ⟨g, some (make' ⟨k, g⟩), false, 0⟩
        live := a'.live + 1 } :=
    ⟨filled.slots, h.free, congrArg (· + 1) h.live, h.unpinned, h.birth⟩
  exact start.pinAll _

/-- **A new frame** goes into the same slot of both. -/
theorem alloc (h : a.Alike F a') {make make' : FrameId → Frame V}
    (hm : ∀ id, F (make id) (make' id)) :
    (a.alloc make).1.Alike F (a'.alloc make').1 ∧ (a'.alloc make').2 = (a.alloc make).2 := by
  have collected := h.collect pins
  have count : a'.collect.slots.size = a.collect.slots.size := by
    simpa using collected.slots.length_eq.symm
  rw [alloc_eq, alloc_eq, collected.free]
  split
  · refine fill pins ?_ _ hm
    exact ⟨collected.slots, rfl, collected.live, collected.unpinned, collected.birth⟩
  · rw [count]
    refine fill pins ?_ _ hm
    refine ⟨?_, collected.free, collected.live, collected.unpinned, collected.birth⟩
    rw [Array.toList_push, Array.toList_push, collected.birth]
    exact List.rel_append collected.slots (.cons ⟨rfl, .none, rfl, rfl⟩ .nil)

/-- **A frame that is given up** is given up in both alike. -/
theorem release (h : a.Alike F a') (id : FrameId) : (a.release id).Alike F (a'.release id) := by
  have popped := @modifySlot _ _ _ _ (fun s => { s with popped := true })
    (fun s => { s with popped := true }) h id fun _ _ hs =>
      ⟨hs.generation, hs.frame, rfl, hs.pinned⟩
  simp only [Arena.release, h.contains, popped.pinCount]
  split
  · split
    · exact (popped.recycle pins id.index).collect pins
    · exact popped.collect pins
  · exact h

end Pins

end Alike

end Arena

end Colloquy
