import Colloquy.Machine.Value
import Colloquy.Proofs.Arena.Accounts

/-!
# Which frames are kept

The pins on a frame come from the closures that it made and from the frames that it encloses.  A
frame with more pins than it encloses frames is *kept* by a closure (`Arena.Keeps`): whatever is
recycled, the pins that go with enclosed frames can never be its last ones (`Arena.Spares`).  So a
kept frame stays, and so does a frame on the call stack (`Arena.Active`), through every operation of
the arena (`Arena.Retains`).
-/

namespace Colloquy

/-- The only pin that a frame of values holds is the one on the frame around it. -/
@[simp] theorem Frame.pins_eq (f : Frame Value) : f.pins = f.enclosing.toList := by
  have unpinned (vs : List Value) : vs.flatMap Pinning.pins = [] :=
    List.flatMap_eq_nil_iff.2 fun _ _ => rfl
  rw [Frame.pins, unpinned, unpinned]
  rfl

namespace Arena

variable {a b c : Arena Value} {f id : FrameId}

/-- The number of frames around which frame `e` is. -/
def enclosed (a : Arena Value) (e : FrameId) : Nat := a.tally fun f => f.enclosing = some e

/-- Some pin on the frame is that of a closure. -/
def Keeps (a : Arena Value) (f : FrameId) : Prop := a.enclosed f < a.pinCount f

/-- Every enclosed frame holds a pin. -/
def Balanced (a : Arena Value) : Prop := ∀ e, a.enclosed e ≤ a.pinCount e

/-- Everything kept or active in `a` is so in `b`, unchanged. -/
structure Retains (a b : Arena Value) : Prop where
  keeps : ∀ {f}, a.Keeps f → b.Keeps f ∧ b.get? f = a.get? f
  active : ∀ {f}, a.Active f → b.Active f ∧ b.get? f = a.get? f

/-- A kept frame is there. -/
theorem Keeps.exists_slot (h : a.Keeps f) : ∃ s, a.slotOf? f = some s := by
  cases hs : a.slotOf? f with
  | some s => exact ⟨s, rfl⟩
  | none =>
    rw [Keeps, pinCount_of_none hs] at h
    exact absurd h (Nat.not_lt_zero _)

theorem Keeps.exists_frame (h : a.Keeps f) : ∃ fr, a.get? f = some fr := by
  obtain ⟨s, hs⟩ := h.exists_slot
  obtain ⟨fr, -, hfr⟩ := exists_frame_of_slotOf? hs
  exact ⟨fr, hfr⟩

theorem enclosed_pos {fr : Frame Value} {e : FrameId} (h : a.get? f = some fr)
    (he : fr.enclosing = some e) : 0 < a.enclosed e :=
  tally_pos h (by simp [he])

/-- In a balanced arena the frame around a frame is there. -/
theorem Balanced.exists_enclosing (h : a.Balanced) {fr : Frame Value} {e : FrameId}
    (hf : a.get? f = some fr) (he : fr.enclosing = some e) : 0 < a.pinCount e :=
  Nat.lt_of_lt_of_le (enclosed_pos hf he) (h e)

theorem enclosed_empty (birth : UInt32) (e : FrameId) : ({ birth } : Arena Value).enclosed e = 0 :=
  rfl

theorem balanced_empty (birth : UInt32) : ({ birth } : Arena Value).Balanced := by
  intro e
  rw [enclosed_empty]
  exact Nat.zero_le _

/-! ## Changing a frame -/

section Modify

variable {g : Frame Value → Frame Value}

theorem enclosed_modify (hg : ∀ fr, (g fr).enclosing = fr.enclosing) :
    (a.modify id g).enclosed f = a.enclosed f :=
  tally_modify fun fr => by rw [hg]

theorem keeps_modify (hg : ∀ fr, (g fr).enclosing = fr.enclosing) :
    (a.modify id g).Keeps f ↔ a.Keeps f := by
  rw [Keeps, Keeps, pinCount_modify, enclosed_modify hg]

theorem Balanced.modify (h : a.Balanced) (hg : ∀ fr, (g fr).enclosing = fr.enclosing) :
    (a.modify id g).Balanced := fun e => by
  rw [pinCount_modify, enclosed_modify hg]
  exact h e

end Modify

/-! ## Pins -/

theorem enclosed_pin : (a.pin id).enclosed f = a.enclosed f := tally_pin

theorem retains_pin : a.Retains (a.pin id) where
  keeps {f} h := by
    refine ⟨?_, get?_pin⟩
    rw [Keeps, enclosed_pin, pinCount_pin]
    exact Nat.lt_of_lt_of_le h (Nat.le_add_right _ _)
  active h := ⟨active_pin.2 h, get?_pin⟩

theorem Balanced.pin (h : a.Balanced) : (a.pin id).Balanced := fun e => by
  rw [enclosed_pin, pinCount_pin]
  exact Nat.le_trans (h e) (Nat.le_add_right _ _)

/-- **A pin taken for a closure keeps the frame.** -/
theorem Balanced.keeps_pin (h : a.Balanced) {s : Slot Value} (hs : a.slotOf? id = some s) :
    (a.pin id).Keeps id := by
  rw [Keeps, enclosed_pin, pinCount_pin, if_pos ⟨rfl, by simp [hs]⟩]
  exact Nat.lt_succ_of_le (h id)

/-! ## Recycling -/

section Recycle

variable {fr : Frame Value}

theorem slotOf?_recycle (h : a.get? id = some fr) :
    (a.recycle id.index).slotOf? f =
      if f = id then none
      else if fr.enclosing = some f then
        (a.slotOf? f).map fun s => { s with pinned := s.pinned - 1 }
      else a.slotOf? f := by
  obtain ⟨s, hs, hf⟩ := get?_eq_some_iff.1 h
  rw [recycle_eq hs hf, Frame.pins_eq]
  cases he : fr.enclosing with
  | none =>
    rw [Option.toList_none, unpinAll, slotOf?_emptied hs]
    simp
  | some e =>
    rw [Option.toList_some, unpinAll, unpinAll, slotOf?_unpin, slotOf?_emptied hs,
      slotOf?_emptied hs]
    by_cases hfe : f = e
    · subst hfe
      by_cases hfi : f = id <;> simp [hfi]
    · have : ¬ e = f := fun h => hfe h.symm
      simp [hfe, this]

theorem get?_recycle (h : a.get? id = some fr) :
    (a.recycle id.index).get? f = if f = id then none else a.get? f := by
  rw [get?_eq, slotOf?_recycle h, get?_eq]
  split
  · rfl
  · split
    · cases a.slotOf? f <;> rfl
    · rfl

theorem pinCount_recycle (h : a.get? id = some fr) (hne : f ≠ id) :
    (a.recycle id.index).pinCount f = a.pinCount f - if fr.enclosing = some f then 1 else 0 := by
  rw [pinCount_eq, slotOf?_recycle h, if_neg hne, pinCount_eq]
  split
  · cases a.slotOf? f <;> simp
  · rfl

theorem enclosed_recycle (h : a.get? id = some fr) :
    (a.recycle id.index).enclosed f + (if fr.enclosing = some f then 1 else 0) = a.enclosed f := by
  have := tally_recycle (p := fun g => decide (g.enclosing = some f)) h
  simpa [enclosed] using this

/-- Recycling takes the pins of kept frames along with the frames that they enclose. -/
theorem keeps_recycle (h : a.get? id = some fr) (hne : f ≠ id) :
    (a.recycle id.index).Keeps f ↔ a.Keeps f := by
  have henc := enclosed_recycle (f := f) h
  rw [Keeps, Keeps, pinCount_recycle h hne]
  split at henc <;> split <;> first | contradiction | omega

end Recycle

/-- Only the slots decide what is kept. -/
theorem keeps_congr (h : b.slots = a.slots) : b.Keeps f ↔ a.Keeps f := by
  rw [Keeps, Keeps, pinCount_eq, pinCount_eq, slotOf?_congr h, enclosed, enclosed, tally, tally, h]

/-! ## What recycling spares -/

/-- Frames have gone from `a`, but only such as nothing kept, and each with the pin that it held. -/
structure Spares (a b : Arena Value) : Prop extends a.Sheds b where
  keeps : ∀ {f}, b.Keeps f ↔ a.Keeps f
  balanced : a.Balanced → b.Balanced

namespace Spares

theorem refl (a : Arena Value) : a.Spares a := ⟨.refl a, .rfl, id⟩

theorem trans (hab : a.Spares b) (hbc : b.Spares c) : a.Spares c :=
  ⟨hab.toSheds.trans hbc.toSheds, hbc.keeps.trans hab.keeps, hbc.balanced ∘ hab.balanced⟩

theorem of_unpinned (a : Arena Value) (queue : List FrameId) :
    a.Spares { a with unpinned := queue } :=
  ⟨.of_unpinned a queue, keeps_congr rfl, id⟩

/-- A popped frame without pins can be recycled. -/
theorem recycle {s : Slot Value} (hs : a.slotOf? id = some s) (hpopped : s.popped = true)
    (hpin : s.pinned = 0) : a.Spares (a.recycle id.index) := by
  obtain ⟨fr, -, hfr⟩ := exists_frame_of_slotOf? hs
  have unpinned : a.pinCount id = 0 := (pinCount_of_some hs).trans hpin
  refine ⟨.recycle hs hpopped, fun {f} => ?_, fun balanced e => ?_⟩
  · by_cases hne : f = id
    · subst hne
      have gone : ¬ (a.recycle f.index).Keeps f := fun hk => by
        obtain ⟨t, ht⟩ := hk.exists_frame
        rw [get?_recycle hfr, if_pos rfl] at ht
        simp at ht
      have notKept : ¬ a.Keeps f := by
        rw [Keeps, unpinned]
        exact Nat.not_lt_zero _
      exact iff_of_false gone notKept
    · exact keeps_recycle hfr hne
  · have henc := enclosed_recycle (f := e) hfr
    have hbal := balanced e
    by_cases hne : e = id
    · subst hne
      omega
    · rw [pinCount_recycle hfr hne]
      omega

theorem collect (a : Arena Value) : a.Spares a.collect :=
  collect_induct (fun b _ rest _ _ hb => hb.trans (of_unpinned b rest))
    (fun b _ _ rest _ _ hc hs hp hz hb =>
      (hc ▸ hb.trans (of_unpinned b rest)).trans (recycle hs hp hz)) (refl a)

/-- Once a frame is popped, releasing it is no more than this. -/
theorem release (a : Arena Value) (id : FrameId) :
    (a.modifySlot id fun s => { s with popped := true }).Spares (a.release id) := by
  refine release_induct (fun hid => ?_) (fun _ _ => refl _)
    (fun _ _ hs hp hz hb => hb.trans (recycle hs hp hz)) fun b hb => hb.trans (collect b)
  rw [modifySlot_of_none hid]
  exact refl a

/-- What is spared is as it was. -/
theorem get?_eq (h : a.Spares b) {fr : Frame Value} (hf : b.get? f = some fr) :
    b.get? f = a.get? f :=
  hf.trans (h.toSheds.get? hf).symm

theorem retains (h : a.Spares b) : a.Retains b where
  keeps hk := by
    have hk' := h.keeps.2 hk
    obtain ⟨fr, hfr⟩ := hk'.exists_frame
    exact ⟨hk', h.get?_eq hfr⟩
  active ha := by
    have ha' := h.stays ha
    obtain ⟨fr, hfr⟩ := ha'.exists_frame
    exact ⟨ha', h.get?_eq hfr⟩

end Spares

/-! ## Creating frames -/

/-- What the arena is like after a frame has been made under the handle `id`. -/
structure Created (a b : Arena Value) (id : FrameId) (fr : Frame Value) : Prop where
  retains : a.Retains b
  tidy : b.Tidy
  balanced : b.Balanced
  keeps_of_keeps : ∀ {f}, b.Keeps f → a.Keeps f
  active_of_active : ∀ {f}, b.Active f → f = id ∨ a.Active f
  before : ∀ {f fr'}, b.get? f = some fr' → f = id ∨ a.get? f = some fr'
  fresh : ¬ a.Keeps id ∧ ¬ a.Active id
  active : b.Active id
  get? : b.get? id = some fr

theorem enclosed_pinAll (ids : List FrameId) : (ids.foldl pin a).enclosed f = a.enclosed f := by
  induction ids generalizing a with
  | nil => rfl
  | cons id ids ih => exact ih.trans enclosed_pin

namespace Lodged

variable {fr : Frame Value} (h : a.Lodged b id fr)
include h

theorem enclosed_pinAll : (fr.pins.foldl pin b).enclosed f =
    a.enclosed f + if fr.enclosing = some f then 1 else 0 := by
  rw [Arena.enclosed_pinAll, enclosed, enclosed, tally_eq_weigh, tally_eq_weigh, h.weigh]
  simp

variable (around : ∀ e, fr.enclosing = some e → a.Keeps e)
include around

/-- The pin on the frame around the new one goes with the new frame inside it. -/
theorem pinCount_pinAll : (fr.pins.foldl pin b).pinCount f =
    a.pinCount f + if fr.enclosing = some f then 1 else 0 := by
  rw [Frame.pins_eq]
  cases he : fr.enclosing with
  | none => simp [h.pinCount]
  | some e =>
    obtain ⟨s, hs⟩ := (around e he).exists_slot
    have hne : e ≠ id := by
      rintro rfl
      rw [h.fresh] at hs
      simp at hs
    have here : b.slotOf? e = some s := by rw [h.slotOf?, if_neg hne, hs]
    simp only [Option.toList_some, List.foldl_cons, List.foldl_nil, pinCount_pin, h.pinCount, here,
      Option.isSome_some, and_true, Option.some.injEq, eq_comm (a := e)]

theorem keeps_iff : (fr.pins.foldl pin b).Keeps f ↔ a.Keeps f := by
  rw [Keeps, Keeps, h.pinCount_pinAll around, h.enclosed_pinAll]
  omega

theorem balanced (hb : a.Balanced) : (fr.pins.foldl pin b).Balanced := fun e => by
  rw [h.pinCount_pinAll around, h.enclosed_pinAll]
  have := hb e
  omega

end Lodged

/-- **Creating a frame** whose enclosing frame, if it has one, is kept. -/
theorem created_alloc (ht : a.Tidy) (hb : a.Balanced) {make : FrameId → Frame Value}
    (he : ∀ id e, (make id).enclosing = some e → a.Keeps e) :
    a.Created (a.alloc make).1 (a.alloc make).2 (make (a.alloc make).2) := by
  obtain ⟨id, base, halloc, lodged⟩ := exists_lodged ht make
  rw [halloc]
  have spared := Spares.collect a
  have around (e : FrameId) (h : (make id).enclosing = some e) : a.collect.Keeps e :=
    spared.keeps.2 (he id e h)
  have keeps {f : FrameId} : ((make id).pins.foldl pin base).Keeps f ↔ a.Keeps f :=
    (lodged.keeps_iff around).trans spared.keeps
  have active {f : FrameId} :
      ((make id).pins.foldl pin base).Active f ↔ f = id ∨ a.Active f := by
    rw [(Sheds.pinAll base _).active_iff, lodged.active_iff, spared.active_iff]
  have found (f : FrameId) : ((make id).pins.foldl pin base).get? f =
      if f = id then some (make id) else a.collect.get? f :=
    (get?_pinAll _).trans (lodged.get? f)
  have notKept : ¬ a.Keeps id := fun hk => by
    obtain ⟨s, hs⟩ := (spared.keeps.2 hk).exists_slot
    rw [lodged.fresh] at hs
    simp at hs
  have notActive : ¬ a.Active id := fun ha => by
    obtain ⟨s, hs, -⟩ := spared.stays ha
    rw [lodged.fresh] at hs
    simp at hs
  refine ⟨⟨fun {f} hk => ⟨keeps.2 hk, ?_⟩, fun {f} ha => ⟨active.2 (.inr ha), ?_⟩⟩,
    lodged.tidy.pinAll _, lodged.balanced around (spared.balanced hb), keeps.1, active.1,
    fun {f fr'} hf => ?_, ⟨notKept, notActive⟩, active.2 (.inl rfl), (found id).trans (if_pos rfl)⟩
  · have hne : f ≠ id := fun h => notKept (h ▸ hk)
    rw [found, if_neg hne, (spared.retains.keeps hk).2]
  · have hne : f ≠ id := fun h => notActive (h ▸ ha)
    rw [found, if_neg hne, (spared.retains.active ha).2]
  · refine Classical.or_iff_not_imp_left.2 fun hne => ?_
    rw [found, if_neg hne] at hf
    exact spared.get? hf

/-! ## Releasing frames -/

/-- What the arena is like after a frame has been released. -/
structure Released (a b : Arena Value) (id : FrameId) : Prop where
  tidy : b.Tidy
  balanced : b.Balanced
  keeps : ∀ {f}, a.Keeps f → b.Keeps f ∧ b.get? f = a.get? f
  active : ∀ {f}, f ≠ id → a.Active f → b.Active f ∧ b.get? f = a.get? f
  keeps_of_keeps : ∀ {f}, b.Keeps f → a.Keeps f
  active_of_active : ∀ {f}, b.Active f → f ≠ id ∧ a.Active f
  before : ∀ {f fr}, b.get? f = some fr → a.get? f = some fr
  pinned : ∀ {fr}, b.get? id = some fr → 0 < a.pinCount id

theorem enclosed_pop :
    (a.modifySlot id fun s => { s with popped := true }).enclosed f = a.enclosed f :=
  tally_modifySlot fun _ => rfl

theorem keeps_pop : (a.modifySlot id fun s => { s with popped := true }).Keeps f ↔ a.Keeps f := by
  rw [Keeps, Keeps, pinCount_pop, enclosed_pop]

theorem Balanced.pop (h : a.Balanced) (id : FrameId) :
    (a.modifySlot id fun s => { s with popped := true }).Balanced := fun e => by
  rw [pinCount_pop, enclosed_pop]
  exact h e

/-- A released frame that is still there was pinned. -/
theorem pinned_of_get?_release {fr : Frame Value} (h : (a.release id).get? id = some fr) :
    0 < a.pinCount id := by
  refine Nat.pos_of_ne_zero fun unpinned => ?_
  cases hid : a.slotOf? id with
  | none =>
    rw [release_of_none hid, get?_eq, hid] at h
    simp at h
  | some s =>
    obtain ⟨gr, -, hgr⟩ := exists_frame_of_slotOf? hid
    rw [pinCount_of_some hid] at unpinned
    rw [release_eq hid, if_pos unpinned] at h
    have left := (Sheds.collect _).get? h
    rw [get?_recycle (get?_pop.trans hgr), if_pos rfl] at left
    simp at left

/-- **Releasing a frame** takes nothing but that frame off the call stack. -/
theorem released_release (ht : a.Tidy) (hb : a.Balanced) (id : FrameId) :
    a.Released (a.release id) id := by
  have spared := Spares.release a id
  have retained := spared.retains
  exact {
    tidy := ht.release id
    balanced := spared.balanced (hb.pop id)
    keeps := fun hk =>
      ⟨(retained.keeps (keeps_pop.2 hk)).1,
        (retained.keeps (keeps_pop.2 hk)).2.trans get?_pop⟩
    active := fun hne ha =>
      ⟨(retained.active (active_pop.2 ⟨hne, ha⟩)).1,
        (retained.active (active_pop.2 ⟨hne, ha⟩)).2.trans get?_pop⟩
    keeps_of_keeps := fun hk => keeps_pop.1 (spared.keeps.1 hk)
    active_of_active := fun ha => active_pop.1 (spared.active_iff.1 ha)
    before := fun hf => get?_pop.symm.trans (spared.get? hf)
    pinned := pinned_of_get?_release }

end Arena

end Colloquy
