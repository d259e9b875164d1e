import Mathlib.Algebra.GroupWithZero.Nat
import Colloquy.Machine.Arena

/-!
# What the arena's operations do to a handle

`Arena.slotOf?` is the slot that a handle names, as long as its frame is there; `Arena.get?` and
`Arena.pinCount` are read off it.  For every operation there is one equation that says what the
slots of all handles are afterwards.

Working off the queue of unpinned frames is a sequence of two kinds of step, each of which takes one
handle off the queue: passing it over, or recycling the slot that it names (`Arena.collect_induct`).
-/

namespace Colloquy

theorem FrameId.eq_of_index_of_generation {f g : FrameId} (hi : f.index = g.index)
    (hg : f.generation = g.generation) : f = g := by
  cases f
  cases g
  simp_all

/-- The two frames are of the same activation. -/
structure Frame.SameLinks {V : Type} (fr fr' : Frame V) : Prop where
  code : fr'.code = fr.code
  receiver : fr'.receiver = fr.receiver
  invoking : fr'.invoking = fr.invoking
  enclosing : fr'.enclosing = fr.enclosing
  home : fr'.home = fr.home

theorem Frame.SameLinks.refl {V : Type} (fr : Frame V) : fr.SameLinks fr :=
  ⟨rfl, rfl, rfl, rfl, rfl⟩

theorem Frame.SameLinks.trans {V : Type} {fr gr hr : Frame V} (h : fr.SameLinks gr)
    (h' : gr.SameLinks hr) : fr.SameLinks hr :=
  ⟨h'.code.trans h.code, h'.receiver.trans h.receiver, h'.invoking.trans h.invoking,
    h'.enclosing.trans h.enclosing, h'.home.trans h.home⟩

namespace Slot

variable {V : Type}

theorem holds_iff {s : Slot V} {g : UInt32} :
    s.holds g = true ↔ s.generation = g ∧ ∃ f, s.frame = some f := by
  simp [holds, Option.isSome_iff_exists]

theorem spent_iff {s : Slot V} {g : UInt32} :
    s.spent g = true ↔ s.holds g = true ∧ s.popped = true ∧ s.pinned = 0 := by
  simp [spent, and_assoc]

/-- A change that keeps the frame, or at least the place for one, keeps what the slot holds. -/
theorem holds_congr {s t : Slot V} (hg : t.generation = s.generation)
    (hf : t.frame.isSome = s.frame.isSome) (g : UInt32) : t.holds g = s.holds g := by
  simp [holds, hg, hf]

/-- The generation that the next frame in the slot will have. -/
def turn (s : Slot V) : UInt32 := s.generation + if s.frame.isSome then 1 else 0

@[simp] theorem holds_emptied (s : Slot V) (g : UInt32) : s.emptied.holds g = false := by
  simp [emptied, holds]

end Slot

namespace Arena

variable {V : Type}

/-- The slot that a handle names, while its frame is there. -/
def slotOf? (a : Arena V) (id : FrameId) : Option (Slot V) :=
  a.slots[id.index]?.filter (·.holds id.generation)

theorem slotOf?_eq_some_iff {a : Arena V} {id : FrameId} {s : Slot V} :
    a.slotOf? id = some s ↔ a.slots[id.index]? = some s ∧ s.holds id.generation = true := by
  simp [slotOf?, Option.filter_eq_some_iff]

theorem slotOf?_congr {a b : Arena V} (h : a.slots = b.slots) (id : FrameId) :
    a.slotOf? id = b.slotOf? id := by
  rw [slotOf?, slotOf?, h]

theorem get?_eq (a : Arena V) (id : FrameId) : a.get? id = (a.slotOf? id).bind (·.frame) := by
  unfold get? slotOf?
  cases a.slots[id.index]? with
  | none => rfl
  | some s =>
    by_cases hg : s.generation = id.generation
    · cases hf : s.frame <;> simp [Option.filter, Slot.holds, hg, hf]
    · simp [Option.filter, Slot.holds, hg]

theorem get?_eq_some_iff {a : Arena V} {id : FrameId} {f : Frame V} :
    a.get? id = some f ↔ ∃ s, a.slotOf? id = some s ∧ s.frame = some f := by
  rw [get?_eq, Option.bind_eq_some_iff]

theorem pinCount_eq (a : Arena V) (id : FrameId) :
    a.pinCount id = ((a.slotOf? id).map (·.pinned)).getD 0 := by
  unfold pinCount slotOf?
  cases a.slots[id.index]? with
  | none => rfl
  | some s =>
    by_cases hh : s.holds id.generation = true
    · simp [Option.filter, hh]
    · simp [Option.filter, hh]

theorem pinCount_of_none {a : Arena V} {f : FrameId} (h : a.slotOf? f = none) :
    a.pinCount f = 0 := by
  rw [pinCount_eq, h]
  rfl

theorem pinCount_of_some {a : Arena V} {f : FrameId} {s : Slot V} (h : a.slotOf? f = some s) :
    a.pinCount f = s.pinned := by
  rw [pinCount_eq, h]
  rfl

theorem contains_iff {a : Arena V} {id : FrameId} :
    a.contains id = true ↔ ∃ s, a.slotOf? id = some s := by
  rw [contains, Option.isSome_iff_exists]
  constructor
  · rintro ⟨f, hf⟩
    obtain ⟨s, hs, -⟩ := get?_eq_some_iff.1 hf
    exact ⟨s, hs⟩
  · rintro ⟨s, hs⟩
    obtain ⟨f, hf⟩ := (Slot.holds_iff.1 (slotOf?_eq_some_iff.1 hs).2).2
    exact ⟨f, get?_eq_some_iff.2 ⟨s, hs, hf⟩⟩

/-- A handle whose frame is there has a frame in its slot. -/
theorem exists_frame_of_slotOf? {a : Arena V} {id : FrameId} {s : Slot V}
    (h : a.slotOf? id = some s) : ∃ f, s.frame = some f ∧ a.get? id = some f := by
  obtain ⟨f, hf⟩ := (Slot.holds_iff.1 (slotOf?_eq_some_iff.1 h).2).2
  exact ⟨f, hf, get?_eq_some_iff.2 ⟨s, h, hf⟩⟩

/-- The frame is there and has not been popped. -/
def Active (a : Arena V) (f : FrameId) : Prop := ∃ s, a.slotOf? f = some s ∧ s.popped = false

theorem Active.exists_frame {a : Arena V} {f : FrameId} (h : a.Active f) :
    ∃ fr, a.get? f = some fr := by
  obtain ⟨s, hs, -⟩ := h
  obtain ⟨fr, -, hfr⟩ := exists_frame_of_slotOf? hs
  exact ⟨fr, hfr⟩

/-! ## Changing one slot -/

section Modify

variable {a : Arena V} {id id' : FrameId} {f : Slot V → Slot V}

/-- A change of slots that keeps what they hold. -/
structure Steady (f : Slot V → Slot V) : Prop where
  generation : ∀ s, (f s).generation = s.generation
  frame : ∀ s, (f s).frame.isSome = s.frame.isSome

theorem modifySlot_of_slotOf? {s : Slot V} (h : a.slotOf? id = some s) :
    a.modifySlot id f = { a with slots := a.slots.setIfInBounds id.index (f s) } := by
  obtain ⟨hs, hh⟩ := slotOf?_eq_some_iff.1 h
  obtain ⟨hi, rfl⟩ := Array.getElem?_eq_some_iff.1 hs
  simp [modifySlot, hi, hh, Array.setIfInBounds]

theorem modifySlot_of_none (h : a.slotOf? id = none) : a.modifySlot id f = a := by
  unfold modifySlot
  split
  · rename_i hi
    dsimp only
    split
    · rename_i hh
      have := slotOf?_eq_some_iff.2 ⟨Array.getElem?_eq_getElem hi, hh⟩
      rw [h] at this
      simp at this
    · rfl
  · rfl

theorem slotOf?_modifySlot (hf : Steady f) :
    (a.modifySlot id f).slotOf? id' =
      if id' = id then (a.slotOf? id).map f else a.slotOf? id' := by
  cases h : a.slotOf? id with
  | none =>
    rw [modifySlot_of_none h]
    split
    · subst id'
      simpa using h
    · rfl
  | some s =>
    rw [modifySlot_of_slotOf? h]
    obtain ⟨hs, hh⟩ := slotOf?_eq_some_iff.1 h
    have hi := (Array.getElem?_eq_some_iff.1 hs).1
    have hkeep : ∀ g, (f s).holds g = s.holds g :=
      Slot.holds_congr (hf.generation s) (hf.frame s)
    split
    · subst id'
      simp [slotOf?, hi, Option.filter, hkeep, hh]
    · rename_i hne
      simp only [slotOf?, Array.getElem?_setIfInBounds]
      split
      · rename_i hidx
        -- one slot, two generations: neither before nor after does it hold the other handle
        have hg : s.holds id'.generation = false := by
          rw [Bool.eq_false_iff]
          intro hh'
          exact hne (FrameId.eq_of_index_of_generation hidx.symm
            ((Slot.holds_iff.1 hh').1.symm.trans (Slot.holds_iff.1 hh).1))
        rw [← hidx, hs]
        simp [Option.filter, hkeep, hg]
      · rfl

theorem steady_pinned (n : Slot V → Nat) : Steady fun s : Slot V => { s with pinned := n s } :=
  ⟨fun _ => rfl, fun _ => rfl⟩

theorem steady_popped : Steady fun s : Slot V => { s with popped := true } :=
  ⟨fun _ => rfl, fun _ => rfl⟩

theorem pinCount_pop {f : FrameId} :
    (a.modifySlot id fun s => { s with popped := true }).pinCount f = a.pinCount f := by
  rw [pinCount_eq, slotOf?_modifySlot steady_popped, pinCount_eq]
  split
  · subst f
    cases a.slotOf? id <;> rfl
  · rfl

theorem get?_pop {f : FrameId} :
    (a.modifySlot id fun s => { s with popped := true }).get? f = a.get? f := by
  rw [get?_eq, slotOf?_modifySlot steady_popped, get?_eq]
  split
  · subst f
    cases a.slotOf? id <;> rfl
  · rfl

theorem contains_pop {f : FrameId} :
    (a.modifySlot id fun s => { s with popped := true }).contains f = a.contains f := by
  rw [contains, contains, get?_pop]

theorem active_pop {f : FrameId} :
    (a.modifySlot id fun s => { s with popped := true }).Active f ↔ f ≠ id ∧ a.Active f := by
  rw [Active, Active, slotOf?_modifySlot steady_popped]
  by_cases h : f = id
  · subst h
    cases a.slotOf? f <;> simp
  · simp [h]

theorem steady_frame (g : Frame V → Frame V) :
    Steady fun s : Slot V => { s with frame := s.frame.map g } :=
  ⟨fun _ => rfl, fun _ => by simp⟩

theorem slotOf?_modify (g : Frame V → Frame V) :
    (a.modify id g).slotOf? id' =
      if id' = id then (a.slotOf? id).map fun s => { s with frame := s.frame.map g }
      else a.slotOf? id' :=
  slotOf?_modifySlot (steady_frame g)

theorem get?_modify (g : Frame V → Frame V) :
    (a.modify id g).get? id' = if id' = id then (a.get? id).map g else a.get? id' := by
  rw [get?_eq, slotOf?_modify]
  split
  · rw [get?_eq]
    cases a.slotOf? id <;> simp
  · rw [get?_eq]

theorem contains_modify (g : Frame V → Frame V) {f : FrameId} :
    (a.modify id g).contains f = a.contains f := by
  rw [contains, get?_modify, contains]
  split
  · subst f
    simp
  · rfl

theorem pinCount_modify {g : Frame V → Frame V} {f : FrameId} :
    (a.modify id g).pinCount f = a.pinCount f := by
  rw [pinCount_eq, slotOf?_modify, pinCount_eq]
  split
  · subst f
    cases a.slotOf? id <;> rfl
  · rfl

theorem active_modify {g : Frame V → Frame V} {f : FrameId} :
    (a.modify id g).Active f ↔ a.Active f := by
  rw [Active, Active, slotOf?_modify]
  split
  · subst f
    cases a.slotOf? id <;> simp
  · rfl

theorem slotOf?_pin :
    (a.pin id).slotOf? id' =
      if id' = id then (a.slotOf? id).map fun s => { s with pinned := s.pinned + 1 }
      else a.slotOf? id' :=
  slotOf?_modifySlot (steady_pinned _)

theorem pinCount_pin {f : FrameId} : (a.pin id).pinCount f =
    a.pinCount f + if f = id ∧ (a.slotOf? id).isSome then 1 else 0 := by
  rw [pinCount_eq, slotOf?_pin, pinCount_eq]
  by_cases h : f = id
  · subst h
    cases a.slotOf? f <;> simp
  · simp [h]

theorem get?_pin {f : FrameId} : (a.pin id).get? f = a.get? f := by
  rw [get?_eq, slotOf?_pin, get?_eq]
  split
  · subst f
    cases a.slotOf? id <;> rfl
  · rfl

theorem get?_pinAll (ids : List FrameId) {f : FrameId} : (ids.foldl pin a).get? f = a.get? f := by
  induction ids generalizing a with
  | nil => rfl
  | cons id rest ih => exact ih.trans get?_pin

theorem active_pin {f : FrameId} : (a.pin id).Active f ↔ a.Active f := by
  rw [Active, Active, slotOf?_pin]
  split
  · subst f
    cases a.slotOf? id <;> simp
  · rfl

theorem slotOf?_unpin :
    (a.unpin id).slotOf? id' =
      if id' = id then (a.slotOf? id).map fun s => { s with pinned := s.pinned - 1 }
      else a.slotOf? id' := by
  unfold unpin
  rw [← slotOf?_modifySlot (steady_pinned fun s => s.pinned - 1)]
  dsimp only
  split <;> rfl

theorem get?_unpin {f : FrameId} : (a.unpin id).get? f = a.get? f := by
  rw [get?_eq, slotOf?_unpin, get?_eq]
  split
  · subst f
    cases a.slotOf? id <;> rfl
  · rfl

theorem pinCount_unpin {f : FrameId} :
    (a.unpin id).pinCount f = a.pinCount f - if f = id then 1 else 0 := by
  rw [pinCount_eq, slotOf?_unpin, pinCount_eq]
  split
  · subst f
    cases a.slotOf? id <;> simp
  · rfl

end Modify

/-! ## Recycling -/

section Recycle

variable {a : Arena V} {id id' : FrameId}

/-- The handle of an emptied slot names nothing, and no other handle is touched. -/
theorem slotOf?_emptied {s : Slot V} (h : a.slotOf? id = some s) (free : List Nat) (live : Nat) :
    ({ a with
        slots := a.slots.setIfInBounds id.index s.emptied, free, live } : Arena V).slotOf? id' =
      if id' = id then none else a.slotOf? id' := by
  obtain ⟨hs, hh⟩ := slotOf?_eq_some_iff.1 h
  have hi := (Array.getElem?_eq_some_iff.1 hs).1
  simp only [slotOf?, Array.getElem?_setIfInBounds]
  by_cases hidx : id.index = id'.index
  · have hnone : a.slots[id'.index]?.filter (·.holds id'.generation) = none ∨ id' = id := by
      by_cases hg : s.holds id'.generation = true
      · exact .inr (FrameId.eq_of_index_of_generation hidx.symm
          ((Slot.holds_iff.1 hg).1.symm.trans (Slot.holds_iff.1 hh).1))
      · exact .inl (by simp [← hidx, hs, Option.filter, hg])
    rw [if_pos hidx, if_pos hi]
    split
    · simp [Option.filter]
    · rw [hnone.resolve_right ‹_›]
      simp [Option.filter]
  · have hne : id' ≠ id := fun h => hidx (h ▸ rfl)
    rw [if_neg hidx, if_neg hne]

variable [Pinning V]

theorem recycle_eq {s : Slot V} {f : Frame V} (h : a.slotOf? id = some s) (hf : s.frame = some f) :
    a.recycle id.index =
      ({ a with
          slots := a.slots.setIfInBounds id.index s.emptied
          free := id.index :: a.free
          live := a.live - 1 } : Arena V).unpinAll f.pins := by
  have hs := (slotOf?_eq_some_iff.1 h).1
  simp only [recycle, hs, hf]

end Recycle

/-! ## The free slots -/

/-- The free slots are empty, and none is listed twice. -/
structure Tidy (a : Arena V) : Prop where
  nodup : a.free.Nodup
  empty : ∀ i ∈ a.free, ∃ s, a.slots[i]? = some s ∧ s.frame = none

theorem tidy_empty (birth : UInt32) : ({ birth } : Arena V).Tidy :=
  ⟨List.nodup_nil, by simp⟩

namespace Tidy

variable {a : Arena V}

/-- A change that leaves the list of free slots and what is empty. -/
theorem of_slots {b : Arena V} (h : a.Tidy) (hfree : b.free = a.free)
    (hempty : ∀ (i : Nat) (s : Slot V), a.slots[i]? = some s → s.frame = none →
      ∃ t : Slot V, b.slots[i]? = some t ∧ t.frame = none) : b.Tidy := by
  refine ⟨hfree ▸ h.nodup, fun i hi => ?_⟩
  obtain ⟨s, hs, hf⟩ := h.empty i (hfree ▸ hi)
  exact hempty i s hs hf

theorem modifySlot (h : a.Tidy) (id : FrameId) (f : Slot V → Slot V) :
    (a.modifySlot id f).Tidy := by
  cases hid : a.slotOf? id with
  | none => rwa [modifySlot_of_none hid]
  | some s =>
    rw [modifySlot_of_slotOf? hid]
    obtain ⟨g, hg, -⟩ := exists_frame_of_slotOf? hid
    refine h.of_slots rfl fun i t ht hf => ⟨t, ?_, hf⟩
    rw [Array.getElem?_setIfInBounds_ne ?_, ht]
    rintro rfl
    rw [(slotOf?_eq_some_iff.1 hid).1, Option.some.injEq] at ht
    rw [ht, hf] at hg
    simp at hg

theorem modify (h : a.Tidy) (id : FrameId) (f : Frame V → Frame V) : (a.modify id f).Tidy :=
  h.modifySlot id _

theorem pin (h : a.Tidy) (id : FrameId) : (a.pin id).Tidy := h.modifySlot id _

theorem of_unpinned (h : a.Tidy) (queue : List FrameId) :
    ({ a with unpinned := queue } : Arena V).Tidy := ⟨h.nodup, h.empty⟩

theorem unpin (h : a.Tidy) (id : FrameId) : (a.unpin id).Tidy := by
  unfold Arena.unpin
  dsimp only
  split
  · exact (h.modifySlot id _).of_unpinned _
  · exact h.modifySlot id _

theorem pinAll (h : a.Tidy) (ids : List FrameId) : (ids.foldl Arena.pin a).Tidy := by
  induction ids generalizing a with
  | nil => exact h
  | cons id rest ih => exact ih (h.pin id)

theorem unpinAll (h : a.Tidy) (ids : List FrameId) : (a.unpinAll ids).Tidy := by
  induction ids generalizing a with
  | nil => exact h
  | cons id rest ih => exact ih (h.unpin id)

theorem recycle [Pinning V] (h : a.Tidy) {id : FrameId} {s : Slot V}
    (hid : a.slotOf? id = some s) : (a.recycle id.index).Tidy := by
  obtain ⟨f, hf, -⟩ := exists_frame_of_slotOf? hid
  rw [recycle_eq hid hf]
  refine Tidy.unpinAll ⟨List.nodup_cons.2 ⟨fun hmem => ?_, h.nodup⟩, fun i hi => ?_⟩ _
  · obtain ⟨t, ht, hnone⟩ := h.empty _ hmem
    rw [(slotOf?_eq_some_iff.1 hid).1, Option.some.injEq] at ht
    rw [ht, hnone] at hf
    simp at hf
  · have hlt := (Array.getElem?_eq_some_iff.1 (slotOf?_eq_some_iff.1 hid).1).1
    simp only [Array.getElem?_setIfInBounds]
    by_cases hidx : id.index = i
    · exact ⟨s.emptied, by simp [hidx, hidx ▸ hlt], rfl⟩
    · rw [if_neg hidx]
      exact h.empty i ((List.mem_cons.1 hi).resolve_left (Ne.symm hidx))

end Tidy

/-! ## Working off the queue -/

/-- **Whatever passing over a queued handle keeps, and recycling a spent frame keeps, working off
the whole queue keeps.** -/
theorem collect_induct [Pinning V] {P : Arena V → Prop} {a : Arena V}
    (skip : ∀ (b : Arena V) id rest, b.unpinned = id :: rest →
      (∀ s, b.slotOf? id = some s → s.popped = true → s.pinned ≠ 0) → P b →
      P { b with unpinned := rest })
    (recycle : ∀ (b c : Arena V) id rest s, b.unpinned = id :: rest →
      c = { b with unpinned := rest } → c.slotOf? id = some s → s.popped = true → s.pinned = 0 →
      P b → P (c.recycle id.index))
    (h : P a) : P a.collect := by
  fun_induction collect a with
  | case1 a => exact h
  | case2 a id rest hq hs ih =>
    refine ih (skip a id rest hq (fun s hs' => ?_) h)
    rw [(slotOf?_eq_some_iff.1 hs').1] at hs
    simp at hs
  | case3 a id rest hq s hs hspent ih =>
    obtain ⟨hh, hp, hz⟩ := Slot.spent_iff.1 hspent
    exact ih (recycle a _ id rest s hq rfl (slotOf?_eq_some_iff.2 ⟨hs, hh⟩) hp hz h)
  | case4 a id rest hq s hs hspent ih =>
    refine ih (skip a id rest hq (fun t ht hp hz => hspent ?_) h)
    obtain ⟨ht', hh⟩ := slotOf?_eq_some_iff.1 ht
    rw [hs, Option.some.injEq] at ht'
    subst ht'
    exact Slot.spent_iff.2 ⟨hh, hp, hz⟩

/-- The queue is empty once it has been worked off. -/
theorem unpinned_collect [Pinning V] (a : Arena V) : a.collect.unpinned = [] := by
  fun_induction collect a with
  | case1 a hq => exact hq
  | case2 a id rest hq hs ih => exact ih
  | case3 a id rest hq s hs hspent ih => exact ih
  | case4 a id rest hq s hs hspent ih => exact ih

theorem Tidy.collect [Pinning V] {a : Arena V} (h : a.Tidy) : a.collect.Tidy :=
  collect_induct (fun _ _ rest _ _ hb => hb.of_unpinned rest)
    (fun _ _ _ rest _ _ hc hs _ _ hb => (hc ▸ hb.of_unpinned rest).recycle hs) h

theorem unpinned_modifySlot (a : Arena V) (id : FrameId) (f : Slot V → Slot V) :
    (a.modifySlot id f).unpinned = a.unpinned := by
  unfold modifySlot
  split
  · dsimp only
    split <;> rfl
  · rfl

theorem mem_unpinned_unpin {a : Arena V} {id u : FrameId} (h : u ∈ a.unpinned) :
    u ∈ (a.unpin id).unpinned := by
  unfold unpin
  dsimp only
  split
  · rw [unpinned_modifySlot]
    exact List.mem_cons_of_mem id h
  · rwa [unpinned_modifySlot]

theorem mem_unpinned_unpinAll {a : Arena V} {ids : List FrameId} {u : FrameId}
    (h : u ∈ a.unpinned) : u ∈ (a.unpinAll ids).unpinned := by
  induction ids generalizing a with
  | nil => exact h
  | cons id rest ih => exact ih (mem_unpinned_unpin h)

/-- Recycling a frame keeps the queue, and may add to it. -/
theorem mem_unpinned_recycle [Pinning V] {a : Arena V} {f u : FrameId} {fr : Frame V}
    (hf : a.get? f = some fr) (h : u ∈ a.unpinned) : u ∈ (a.recycle f.index).unpinned := by
  obtain ⟨s, hs, hfr⟩ := get?_eq_some_iff.1 hf
  rw [recycle_eq hs hfr]
  exact mem_unpinned_unpinAll h

/-- A queue that is empty is worked off. -/
theorem collect_nil [Pinning V] {a : Arena V} (h : a.unpinned = []) : a.collect = a := by
  rw [collect]
  split
  · rfl
  · rename_i h'
    rw [h] at h'
    cases h'

/-! ## Weighing and counting frames -/

/-- One entry more or less in a sum. -/
theorem sum_map_set {α : Type} (w : α → Nat) {l : List α} {i : Nat} {x : α} (h : l[i]? = some x)
    (y : α) : ((l.set i y).map w).sum + w x = (l.map w).sum + w y := by
  induction l generalizing i with
  | nil => simp at h
  | cons z l ih =>
    cases i with
    | zero =>
      simp only [List.getElem?_cons_zero, Option.some.injEq] at h
      subst h
      simp only [List.set_cons_zero, List.map_cons, List.sum_cons]
      omega
    | succ i =>
      have rest := ih (i := i) (by simpa using h)
      simp only [List.set_cons_succ, List.map_cons, List.sum_cons]
      omega

/-- The sum of the weights of all frames. -/
def weigh (a : Arena V) (w : Frame V → Nat) : Nat :=
  (a.slots.toList.map fun s => s.frame.elim 0 w).sum

/-- The number of frames with a property. -/
def tally (a : Arena V) (p : Frame V → Bool) : Nat := a.slots.countP (·.frame.any p)

section Weigh

variable {a : Arena V} {w : Frame V → Nat} {p : Frame V → Bool}

theorem tally_eq_weigh (a : Arena V) (p : Frame V → Bool) :
    a.tally p = a.weigh fun f => if p f then 1 else 0 := by
  rw [tally, weigh, ← Array.countP_toList]
  induction a.slots.toList with
  | nil => rfl
  | cons s l ih =>
    rw [List.countP_cons, List.map_cons, List.sum_cons, ih, Nat.add_comm]
    cases s.frame <;> simp

theorem weigh_set {i : Nat} {s t : Slot V} (hs : a.slots[i]? = some s) (free : List Nat)
    (live : Nat) :
    ({ a with slots := a.slots.setIfInBounds i t, free, live } : Arena V).weigh w
        + s.frame.elim 0 w
      = a.weigh w + t.frame.elim 0 w := by
  simp only [weigh, Array.toList_setIfInBounds]
  have here : a.slots.toList[i]? = some s := by rwa [Array.getElem?_toList]
  exact sum_map_set (fun s => s.frame.elim 0 w) here t

theorem weigh_modifySlot {id : FrameId} {f : Slot V → Slot V}
    (hf : ∀ s, (f s).frame.elim 0 w = s.frame.elim 0 w) :
    (a.modifySlot id f).weigh w = a.weigh w := by
  cases hid : a.slotOf? id with
  | none => rw [modifySlot_of_none hid]
  | some s =>
    rw [modifySlot_of_slotOf? hid]
    have := weigh_set (w := w) (t := f s) (slotOf?_eq_some_iff.1 hid).1 a.free a.live
    rw [hf s] at this
    exact Nat.add_right_cancel this

@[simp] theorem weigh_pin {id : FrameId} : (a.pin id).weigh w = a.weigh w :=
  weigh_modifySlot fun _ => rfl

@[simp] theorem weigh_unpin {id : FrameId} : (a.unpin id).weigh w = a.weigh w := by
  have same : (a.modifySlot id fun s => { s with pinned := s.pinned - 1 }).weigh w = a.weigh w :=
    weigh_modifySlot fun _ => rfl
  rw [← same]
  unfold unpin
  dsimp only
  split <;> rfl

@[simp] theorem weigh_unpinAll {ids : List FrameId} : (a.unpinAll ids).weigh w = a.weigh w := by
  induction ids generalizing a with
  | nil => rfl
  | cons id rest ih => rw [unpinAll, ih, weigh_unpin]

/-- A frame that is there is weighed. -/
theorem le_weigh {id : FrameId} {f : Frame V} (h : a.get? id = some f) : w f ≤ a.weigh w := by
  obtain ⟨s, hs, hf⟩ := get?_eq_some_iff.1 h
  have gone := weigh_set (w := w) (t := s.emptied) (slotOf?_eq_some_iff.1 hs).1 a.free a.live
  simp only [hf, Option.elim_some, Slot.emptied, Option.elim_none, Nat.add_zero] at gone
  omega

/-- Some frame has the weight. -/
theorem exists_of_weigh_pos (h : 0 < a.weigh w) : ∃ id f, a.get? id = some f ∧ 0 < w f := by
  have some_pos : ∃ s ∈ a.slots.toList, 0 < s.frame.elim 0 w := by
    refine Classical.byContradiction fun none => Nat.ne_of_gt h ?_
    refine List.sum_eq_zero_iff_forall_eq_nat.2 fun n hn => ?_
    obtain ⟨s, hs, rfl⟩ := List.mem_map.1 hn
    exact Nat.eq_zero_of_not_pos fun pos => none ⟨s, hs, pos⟩
  obtain ⟨s, hs, pos⟩ := some_pos
  obtain ⟨i, hi, rfl⟩ := Array.getElem_of_mem (Array.mem_toList_iff.1 hs)
  cases hf : a.slots[i].frame with
  | none => simp [hf] at pos
  | some f =>
    refine ⟨⟨i, a.slots[i].generation⟩, f, get?_eq_some_iff.2 ⟨a.slots[i], ?_, hf⟩, ?_⟩
    · exact slotOf?_eq_some_iff.2 ⟨Array.getElem?_eq_getElem hi, Slot.holds_iff.2 ⟨rfl, f, hf⟩⟩
    · simpa [hf] using pos

theorem weigh_recycle [Pinning V] {id : FrameId} {f : Frame V} (h : a.get? id = some f) :
    (a.recycle id.index).weigh w + w f = a.weigh w := by
  obtain ⟨s, hs, hf⟩ := get?_eq_some_iff.1 h
  rw [recycle_eq hs hf, weigh_unpinAll]
  have := weigh_set (w := w) (t := s.emptied) (slotOf?_eq_some_iff.1 hs).1
    (id.index :: a.free) (a.live - 1)
  simpa [hf, Slot.emptied] using this

theorem tally_modifySlot {id : FrameId} {f : Slot V → Slot V}
    (hf : ∀ s, (f s).frame.any p = s.frame.any p) : (a.modifySlot id f).tally p = a.tally p := by
  rw [tally_eq_weigh, tally_eq_weigh]
  refine weigh_modifySlot fun s => ?_
  have same := hf s
  revert same
  cases (f s).frame <;> cases s.frame <;> simp +contextual

theorem tally_modify {id : FrameId} {f : Frame V → Frame V} (hf : ∀ g, p (f g) = p g) :
    (a.modify id f).tally p = a.tally p :=
  tally_modifySlot fun s => by cases s.frame <;> simp [hf]

@[simp] theorem tally_pin {id : FrameId} : (a.pin id).tally p = a.tally p :=
  tally_modifySlot fun _ => rfl

theorem tally_pos {id : FrameId} {f : Frame V} (h : a.get? id = some f) (hp : p f = true) :
    0 < a.tally p := by
  rw [tally_eq_weigh]
  exact Nat.lt_of_lt_of_le (by simp [hp]) (le_weigh (w := fun f => if p f then 1 else 0) h)

theorem exists_of_tally_pos (h : 0 < a.tally p) : ∃ id f, a.get? id = some f ∧ p f = true := by
  rw [tally_eq_weigh] at h
  obtain ⟨id, f, hf, pos⟩ := exists_of_weigh_pos h
  refine ⟨id, f, hf, Classical.byContradiction fun hp => ?_⟩
  simp [hp] at pos

theorem tally_recycle [Pinning V] {id : FrameId} {f : Frame V} (h : a.get? id = some f) :
    (a.recycle id.index).tally p + (if p f then 1 else 0) = a.tally p := by
  rw [tally_eq_weigh, tally_eq_weigh]
  exact weigh_recycle h

end Weigh

/-! ## Creating and releasing frames -/

/-- The generation that the next frame in slot `i` will have. -/
def turn (a : Arena V) (i : Nat) : UInt32 := a.slots[i]?.elim a.birth Slot.turn

/-- The arena `b` is `a` with a frame put under the handle `id`, whose pins are still to be
taken. -/
structure Lodged (a b : Arena V) (id : FrameId) (fr : Frame V) : Prop where
  fresh : a.slotOf? id = none
  tidy : b.Tidy
  unpinned : b.unpinned = a.unpinned
  slotOf? : ∀ f, b.slotOf? f =
    if f = id then some { generation := id.generation, frame := some fr } else a.slotOf? f
  weigh : ∀ w, b.weigh w = a.weigh w + w fr
  live : b.live = a.live + 1
  birth : b.birth = a.birth
  generation : id.generation = a.turn id.index
  turn : ∀ i, b.turn i = a.turn i + if i = id.index then 1 else 0

namespace Lodged

variable {a b : Arena V} {id : FrameId} {fr : Frame V}

theorem get? (h : a.Lodged b id fr) (f : FrameId) :
    b.get? f = if f = id then some fr else a.get? f := by
  rw [get?_eq, h.slotOf?, get?_eq]
  split <;> rfl

/-- The new frame has no pins yet, and its handle had none before. -/
theorem pinCount (h : a.Lodged b id fr) (f : FrameId) : b.pinCount f = a.pinCount f := by
  rw [pinCount_eq, h.slotOf?, pinCount_eq]
  split
  · subst f
    rw [h.fresh]
    rfl
  · rfl

theorem active_iff (h : a.Lodged b id fr) {f : FrameId} : b.Active f ↔ f = id ∨ a.Active f := by
  rw [Active, h.slotOf?]
  split
  · exact ⟨fun _ => .inl ‹_›, fun _ => ⟨_, rfl, rfl⟩⟩
  · exact ⟨.inr, fun ha => ha.resolve_left ‹_›⟩

end Lodged

section Create

variable {a : Arena V}

/-- A frame goes into an empty slot that is not listed as free. -/
theorem lodged_set (ht : a.Tidy) {k : Nat} {s : Slot V} (hs : a.slots[k]? = some s)
    (hnone : s.frame = none) (hk : k ∉ a.free) (fr : Frame V) :
    a.Lodged
      { a with
        slots := a.slots.setIfInBounds k { generation := s.generation, frame := some fr }
        live := a.live + 1 }
      ⟨k, s.generation⟩ fr := by
  have hlt := (Array.getElem?_eq_some_iff.1 hs).1
  refine ⟨?_, ⟨ht.nodup, fun j hj => ?_⟩, rfl, fun f => ?_, fun w => ?_, rfl, rfl, ?_, fun i => ?_⟩
  · simp [Arena.slotOf?, hs, Option.filter, Slot.holds, hnone]
  · have hne : k ≠ j := fun h => hk (h ▸ hj)
    rw [Array.getElem?_setIfInBounds_ne hne]
    exact ht.empty j hj
  · simp only [Arena.slotOf?, Array.getElem?_setIfInBounds]
    by_cases hidx : k = f.index
    · by_cases hg : s.generation = f.generation
      · have heq : f = ⟨k, s.generation⟩ := FrameId.eq_of_index_of_generation hidx.symm hg.symm
        simp [heq, hlt, Option.filter, Slot.holds]
      · have hne : f ≠ ⟨k, s.generation⟩ := fun h => hg (congrArg FrameId.generation h).symm
        rw [if_pos hidx, if_pos hlt, if_neg hne, ← hidx, hs]
        simp [Option.filter, Slot.holds, hg]
    · have hne : f ≠ ⟨k, s.generation⟩ := fun h => hidx (congrArg FrameId.index h).symm
      rw [if_neg hidx, if_neg hne]
  · have := weigh_set (w := w) (t := { generation := s.generation, frame := some fr }) hs a.free
      (a.live + 1)
    simpa [hnone] using this
  · simp [Arena.turn, hs, Slot.turn, hnone]
  · by_cases hidx : k = i
    · subst hidx
      rw [Arena.turn, Arena.turn, hs]
      simp [hlt, Slot.turn, hnone]
    · simp [Arena.turn, Array.getElem?_setIfInBounds_ne hidx, Ne.symm hidx]

/-- One more empty slot makes no difference. -/
theorem Lodged.of_push {b : Arena V} {id : FrameId} {fr : Frame V}
    (h : ({ a with slots := a.slots.push { generation := a.birth } } : Arena V).Lodged b id fr) :
    a.Lodged b id fr := by
  have slot (f : FrameId) : ({ a with slots := a.slots.push { generation := a.birth } } :
      Arena V).slotOf? f = a.slotOf? f := by
    simp only [Arena.slotOf?, Array.getElem?_push]
    split
    · rename_i hidx
      simp [hidx, Option.filter, Slot.holds]
    · rfl
  have turn (i : Nat) : ({ a with slots := a.slots.push { generation := a.birth } } :
      Arena V).turn i = a.turn i := by
    simp only [Arena.turn, Array.getElem?_push]
    split
    · rename_i hidx
      simp [hidx, Slot.turn]
    · rfl
  have weigh (w : Frame V → Nat) : ({ a with slots := a.slots.push { generation := a.birth } } :
      Arena V).weigh w = a.weigh w := by
    simp [Arena.weigh]
  exact ⟨slot id ▸ h.fresh, h.tidy, h.unpinned, fun f => slot f ▸ h.slotOf? f,
    fun w => weigh w ▸ h.weigh w, h.live, h.birth, turn _ ▸ h.generation,
    fun i => turn i ▸ h.turn i⟩

variable [Pinning V]

/-- Puts a new frame into slot `k`. -/
def fill (a : Arena V) (k : Nat) (make : FrameId → Frame V) : Arena V × FrameId :=
  let generation := (a.slots.getD k {}).generation
  let frame := make ⟨k, generation⟩
  let a : Arena V :=
    { a with
      slots := a.slots.setIfInBounds k { generation, frame := some frame }
      live := a.live + 1 }
  (frame.pins.foldl pin a, ⟨k, generation⟩)

/-- A new frame goes into the first free slot, or into a new one. -/
theorem alloc_eq (a : Arena V) (make : FrameId → Frame V) :
    a.alloc make =
      match a.collect.free with
      | k :: rest => fill { a.collect with free := rest } k make
      | [] =>
        fill { a.collect with slots := a.collect.slots.push { generation := a.collect.birth } }
          a.collect.slots.size make := by
  unfold alloc
  dsimp only
  cases a.collect.free <;> rfl

theorem exists_lodged_fill (ht : a.Tidy) {k : Nat} {s : Slot V} (hs : a.slots[k]? = some s)
    (hnone : s.frame = none) (hk : k ∉ a.free) (make : FrameId → Frame V) :
    ∃ id base, a.fill k make = ((make id).pins.foldl pin base, id)
      ∧ a.Lodged base id (make id) := by
  have here : a.slots.getD k {} = s := by simp [Array.getD_eq_getD_getElem?, hs]
  exact ⟨⟨k, s.generation⟩, _, by rw [fill, here], lodged_set ht hs hnone hk _⟩

/-- **A new frame gets a handle that named nothing before**, and no other handle is touched but by
the pins that the frame takes. -/
theorem exists_lodged (h : a.Tidy) (make : FrameId → Frame V) :
    ∃ id base, a.alloc make = ((make id).pins.foldl pin base, id)
      ∧ a.collect.Lodged base id (make id) := by
  have ht := h.collect
  rw [alloc_eq]
  generalize a.collect = b at ht ⊢
  cases hfree : b.free with
  | cons k rest =>
    obtain ⟨s, hs, hnone⟩ := ht.empty k (by simp [hfree])
    obtain ⟨notin, nodup⟩ := List.nodup_cons.1 (hfree ▸ ht.nodup)
    have tidy : ({ b with free := rest } : Arena V).Tidy :=
      ⟨nodup, fun i hi => ht.empty i (by simp [hfree, hi])⟩
    obtain ⟨id, base, eq, lodged⟩ := exists_lodged_fill tidy hs hnone notin make
    exact ⟨id, base, eq, lodged.fresh, lodged.tidy, lodged.unpinned, lodged.slotOf?, lodged.weigh,
      lodged.live, lodged.birth, lodged.generation, lodged.turn⟩
  | nil =>
    have tidy : ({ b with slots := b.slots.push { generation := b.birth } } : Arena V).Tidy :=
      ⟨ht.nodup, by simp [hfree]⟩
    obtain ⟨id, base, eq, lodged⟩ := exists_lodged_fill tidy (k := b.slots.size)
      (s := { generation := b.birth }) (by simp) rfl (by simp [hfree]) make
    exact ⟨id, base, eq, lodged.of_push⟩

theorem release_of_none {id : FrameId} (h : a.slotOf? id = none) : a.release id = a := by
  have : a.contains id = false := by
    rw [Bool.eq_false_iff]
    intro hc
    obtain ⟨s, hs⟩ := contains_iff.1 hc
    rw [h] at hs
    simp at hs
  simp [release, this]

theorem release_eq {id : FrameId} {s : Slot V} (h : a.slotOf? id = some s) :
    a.release id =
      (if s.pinned = 0 then
          (a.modifySlot id fun s => { s with popped := true }).recycle id.index
        else a.modifySlot id fun s => { s with popped := true }).collect := by
  have hc : a.contains id = true := contains_iff.2 ⟨s, h⟩
  have hp : (a.modifySlot id fun s => { s with popped := true }).pinCount id = s.pinned :=
    pinCount_pop.trans (pinCount_of_some h)
  simp only [release, hc, if_true, hp]

theorem put?_eq_some_iff {id : FrameId} {slot : Nat} {v : V} {b : Arena V} :
    a.put? id slot v = some b ↔
      ∃ old, (a.get? id).bind (·.locals[slot]?) = some old
        ∧ ((a.hold v).modify id fun f =>
          { f with locals := f.locals.setIfInBounds slot v }).letGo old = b := by
  unfold put?
  cases (a.get? id).bind (·.locals[slot]?) <;> simp

/-- **Whatever popping a frame keeps, recycling a spent one keeps, and working off the queue keeps,
releasing a frame keeps.** -/
theorem release_induct {P : Arena V → Prop} {id : FrameId}
    (gone : a.slotOf? id = none → P a)
    (pop : ∀ s, a.slotOf? id = some s → P (a.modifySlot id fun s => { s with popped := true }))
    (recycle : ∀ (b : Arena V) s, b.slotOf? id = some s → s.popped = true → s.pinned = 0 → P b →
      P (b.recycle id.index))
    (collect : ∀ b : Arena V, P b → P b.collect) : P (a.release id) := by
  cases hid : a.slotOf? id with
  | none =>
    rw [release_of_none hid]
    exact gone hid
  | some s =>
    rw [release_eq hid]
    refine collect _ ?_
    split
    · refine recycle _ { s with popped := true } ?_ rfl ‹_› (pop s hid)
      rw [slotOf?_modifySlot steady_popped, if_pos rfl, hid]
      rfl
    · exact pop s hid

theorem Tidy.alloc (h : a.Tidy) (make : FrameId → Frame V) : (a.alloc make).1.Tidy := by
  obtain ⟨id, base, eq, lodged⟩ := exists_lodged h make
  rw [eq]
  exact lodged.tidy.pinAll _

theorem Tidy.release (h : a.Tidy) (id : FrameId) : (a.release id).Tidy :=
  release_induct (fun _ => h) (fun _ _ => h.modifySlot id _) (fun _ _ hs _ _ hb => hb.recycle hs)
    fun _ hb => hb.collect

end Create

end Arena

end Colloquy
