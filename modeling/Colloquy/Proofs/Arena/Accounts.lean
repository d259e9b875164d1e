import Colloquy.Proofs.Arena.Slots

/-!
# The pins of an arena are accounted for

Every pin on a frame is held by somebody: from outside the arena, or by a frame in it.  The
accounts of an arena are in order if the count of every frame is the number of these holders
(`Arena.Accounts`), and the queue is complete if it has every popped frame without pins
(`Arena.Queued`).  Then working off the queue recycles exactly the popped frames on which nobody
holds a pin.

An operation that only takes pins, lets go of pins and works off the queue leaves every frame as it
is or recycles it, and recycles no frame that is not popped (`Arena.Sheds`).  Only a new frame moves
on the generation of a slot (`Arena.turn`).
-/

namespace Colloquy

namespace Arena

variable {V : Type} {a b c : Arena V} {f id : FrameId}

/-! ## Frames that are shed -/

/-- The arena `b` is what is left of `a`: no frame has changed, and none is gone that had not been
popped. -/
structure Sheds (a b : Arena V) : Prop where
  before : ∀ {f t}, b.slotOf? f = some t →
    ∃ s, a.slotOf? f = some s ∧ s.frame = t.frame ∧ s.popped = t.popped
  stays : ∀ {f}, a.Active f → b.Active f
  turn : ∀ i, b.turn i = a.turn i
  birth : b.birth = a.birth

theorem turn_modifySlot {g : Slot V → Slot V} (hg : Steady g) (i : Nat) :
    (a.modifySlot id g).turn i = a.turn i := by
  cases hid : a.slotOf? id with
  | none => rw [modifySlot_of_none hid]
  | some s =>
    rw [modifySlot_of_slotOf? hid]
    have hs := (slotOf?_eq_some_iff.1 hid).1
    by_cases hi : id.index = i
    · subst hi
      have hlt := (Array.getElem?_eq_some_iff.1 hs).1
      rw [Arena.turn, Arena.turn, hs]
      simp [hlt, Slot.turn, hg.generation s, hg.frame s]
    · simp [Arena.turn, Array.getElem?_setIfInBounds_ne hi]

theorem birth_modifySlot (a : Arena V) (id : FrameId) (g : Slot V → Slot V) :
    (a.modifySlot id g).birth = a.birth := by
  unfold modifySlot
  split
  · dsimp only
    split <;> rfl
  · rfl

namespace Sheds

theorem refl (a : Arena V) : a.Sheds a :=
  ⟨fun {_ t} h => ⟨t, h, rfl, rfl⟩, fun h => h, fun _ => rfl, rfl⟩

theorem trans (hab : a.Sheds b) (hbc : b.Sheds c) : a.Sheds c where
  before h := by
    obtain ⟨s, hs, frame, popped⟩ := hbc.before h
    obtain ⟨r, hr, frame', popped'⟩ := hab.before hs
    exact ⟨r, hr, frame'.trans frame, popped'.trans popped⟩
  stays h := hbc.stays (hab.stays h)
  turn i := (hbc.turn i).trans (hab.turn i)
  birth := hbc.birth.trans hab.birth

theorem of_unpinned (a : Arena V) (queue : List FrameId) :
    a.Sheds { a with unpinned := queue } :=
  ⟨fun {_ t} h => ⟨t, h, rfl, rfl⟩, fun h => h, fun _ => rfl, rfl⟩

/-- What is left is active if it was. -/
theorem active_iff (h : a.Sheds b) : b.Active f ↔ a.Active f := by
  refine ⟨fun ⟨t, ht, hp⟩ => ?_, h.stays⟩
  obtain ⟨s, hs, -, popped⟩ := h.before ht
  exact ⟨s, hs, popped.trans hp⟩

theorem get? (h : a.Sheds b) {fr : Frame V} (hf : b.get? f = some fr) : a.get? f = some fr := by
  obtain ⟨t, ht, frame⟩ := get?_eq_some_iff.1 hf
  obtain ⟨s, hs, same, -⟩ := h.before ht
  exact get?_eq_some_iff.2 ⟨s, hs, same.trans frame⟩

theorem contains (h : a.Sheds b) (hf : b.contains f = true) : a.contains f = true := by
  obtain ⟨t, ht⟩ := contains_iff.1 hf
  obtain ⟨s, hs, -⟩ := h.before ht
  exact contains_iff.2 ⟨s, hs⟩

/-- Pins are counted anew for one frame. -/
theorem repin (a : Arena V) (id : FrameId) (n : Slot V → Nat) :
    a.Sheds (a.modifySlot id fun s => { s with pinned := n s }) := by
  have slot (f : FrameId) : (a.modifySlot id fun s => { s with pinned := n s }).slotOf? f =
      if f = id then (a.slotOf? id).map fun s => { s with pinned := n s } else a.slotOf? f :=
    slotOf?_modifySlot (steady_pinned n)
  refine ⟨fun {f t} h => ?_, fun {f} ⟨s, hs, hp⟩ => ?_, turn_modifySlot (steady_pinned n),
    birth_modifySlot a id _⟩
  · rw [slot] at h
    split at h
    · subst f
      obtain ⟨s, hs, rfl⟩ := Option.map_eq_some_iff.1 h
      exact ⟨s, hs, rfl, rfl⟩
    · exact ⟨t, h, rfl, rfl⟩
  · rw [Active, slot]
    split
    · subst f
      rw [hs]
      exact ⟨_, rfl, hp⟩
    · exact ⟨s, hs, hp⟩

theorem pin (a : Arena V) (id : FrameId) : a.Sheds (a.pin id) := repin a id _

theorem pinAll (a : Arena V) (ids : List FrameId) : a.Sheds (ids.foldl Arena.pin a) := by
  induction ids generalizing a with
  | nil => exact refl a
  | cons id rest ih => exact (pin a id).trans (ih _)

theorem unpin (a : Arena V) (id : FrameId) : a.Sheds (a.unpin id) := by
  unfold Arena.unpin
  dsimp only
  split
  · exact (repin a id _).trans (of_unpinned _ _)
  · exact repin a id _

theorem unpinAll (a : Arena V) (ids : List FrameId) : a.Sheds (a.unpinAll ids) := by
  induction ids generalizing a with
  | nil => exact refl a
  | cons id rest ih => exact (unpin a id).trans (ih _)

/-- The slot of a popped frame is emptied. -/
theorem emptied {s : Slot V} (hs : a.slotOf? id = some s) (hp : s.popped = true) (free : List Nat)
    (live : Nat) :
    a.Sheds { a with slots := a.slots.setIfInBounds id.index s.emptied, free, live } := by
  obtain ⟨fr, hfr, -⟩ := exists_frame_of_slotOf? hs
  have here := (slotOf?_eq_some_iff.1 hs).1
  have hlt := (Array.getElem?_eq_some_iff.1 here).1
  refine ⟨fun {f t} h => ?_, fun {f} ⟨t, ht, hpt⟩ => ?_, fun i => ?_, rfl⟩
  · rw [slotOf?_emptied hs] at h
    split at h
    · simp at h
    · exact ⟨t, h, rfl, rfl⟩
  · rw [Active, slotOf?_emptied hs]
    split
    · subst f
      rw [hs, Option.some.injEq] at ht
      rw [← ht, hp] at hpt
      simp at hpt
    · exact ⟨t, ht, hpt⟩
  · by_cases hi : id.index = i
    · subst hi
      rw [Arena.turn, Arena.turn, here]
      simp [hlt, Slot.turn, Slot.emptied, hfr]
    · simp [Arena.turn, Array.getElem?_setIfInBounds_ne hi]

variable [Pinning V]

theorem recycle {s : Slot V} (hs : a.slotOf? id = some s) (hp : s.popped = true) :
    a.Sheds (a.recycle id.index) := by
  obtain ⟨fr, hfr, -⟩ := exists_frame_of_slotOf? hs
  rw [recycle_eq hs hfr]
  exact (emptied hs hp _ _).trans (unpinAll _ _)

theorem collect (a : Arena V) : a.Sheds a.collect :=
  collect_induct (fun b _ rest _ _ hb => hb.trans (of_unpinned b rest))
    (fun b _ _ rest _ _ hc hs hp _ hb =>
      (hc ▸ hb.trans (of_unpinned b rest)).trans (recycle hs hp)) (refl a)

/-- Once a frame is popped, releasing it is no more than this. -/
theorem release (a : Arena V) (id : FrameId) :
    (a.modifySlot id fun s => { s with popped := true }).Sheds (a.release id) := by
  refine release_induct (fun hid => ?_) (fun _ _ => refl _)
    (fun _ _ hs hp _ hb => hb.trans (recycle hs hp)) fun b hb => hb.trans (collect b)
  rw [modifySlot_of_none hid]
  exact refl a

end Sheds

/-! ## The queue -/

/-- Every popped frame without pins is waiting to be recycled. -/
def Queued (a : Arena V) : Prop :=
  ∀ f s, a.slotOf? f = some s → s.popped = true → s.pinned = 0 → f ∈ a.unpinned

namespace Queued

theorem modify (h : a.Queued) (id : FrameId) (g : Frame V → Frame V) : (a.modify id g).Queued := by
  intro f s hs popped pinned
  rw [Arena.modify, unpinned_modifySlot]
  rw [slotOf?_modify] at hs
  split at hs
  · subst f
    obtain ⟨t, ht, rfl⟩ := Option.map_eq_some_iff.1 hs
    exact h id t ht popped pinned
  · exact h f s hs popped pinned

theorem pin (h : a.Queued) (id : FrameId) : (a.pin id).Queued := by
  intro f s hs popped pinned
  rw [Arena.pin, unpinned_modifySlot]
  rw [slotOf?_pin] at hs
  split at hs
  · obtain ⟨t, -, rfl⟩ := Option.map_eq_some_iff.1 hs
    simp at pinned
  · exact h f s hs popped pinned

theorem pinAll (h : a.Queued) (ids : List FrameId) : (ids.foldl Arena.pin a).Queued := by
  induction ids generalizing a with
  | nil => exact h
  | cons id rest ih => exact ih (h.pin id)

/-- The last pin that goes puts its frame into the queue. -/
theorem unpin (h : a.Queued) (id : FrameId) : (a.unpin id).Queued := by
  intro f s hs popped pinned
  rw [slotOf?_unpin] at hs
  split at hs
  · subst f
    obtain ⟨t, ht, rfl⟩ := Option.map_eq_some_iff.1 hs
    have few : t.pinned ≤ 1 := by
      simp only at pinned
      omega
    have last : (a.contains id && decide (a.pinCount id ≤ 1)) = true := by
      rw [contains_iff.2 ⟨t, ht⟩, pinCount_of_some ht]
      simpa using few
    simp only [Arena.unpin, last, if_true]
    exact List.mem_cons_self
  · exact mem_unpinned_unpin (h f s hs popped pinned)

theorem unpinAll (h : a.Queued) (ids : List FrameId) : (a.unpinAll ids).Queued := by
  induction ids generalizing a with
  | nil => exact h
  | cons id rest ih => exact ih (h.unpin id)

/-- **Whatever popped frame is left when the queue has been worked off is pinned.** -/
theorem pinned_of_unpinned (h : a.Queued) (empty : a.unpinned = []) {s : Slot V}
    (hs : a.slotOf? f = some s) (popped : s.popped = true) : 0 < s.pinned := by
  refine Nat.pos_of_ne_zero fun pinned => ?_
  have := h f s hs popped pinned
  rw [empty] at this
  simp at this

variable [Pinning V]

/-- The frame that is recycled need not be in the queue. -/
theorem recycle {s : Slot V} (hs : a.slotOf? id = some s)
    (h : ∀ f t, f ≠ id → a.slotOf? f = some t → t.popped = true → t.pinned = 0 →
      f ∈ a.unpinned) : (a.recycle id.index).Queued := by
  obtain ⟨fr, hfr, -⟩ := exists_frame_of_slotOf? hs
  rw [recycle_eq hs hfr]
  refine unpinAll (fun f t ht popped pinned => ?_) _
  rw [slotOf?_emptied hs] at ht
  split at ht
  · simp at ht
  · exact h f t ‹_› ht popped pinned

theorem collect (h : a.Queued) : a.collect.Queued := by
  refine collect_induct (fun b id rest hq hskip hb => ?_)
    (fun b c id rest s hq hc hs _ _ hb => ?_) h
  · intro f s hs popped pinned
    refine (List.mem_cons.1 (hq ▸ hb f s hs popped pinned)).resolve_left fun hf => ?_
    exact hskip s (hf ▸ hs) popped pinned
  · subst hc
    refine recycle hs fun f t hne ht popped pinned => ?_
    exact (List.mem_cons.1 (hq ▸ hb f t ht popped pinned)).resolve_left hne

theorem alloc (h : a.Queued) (ht : a.Tidy) (make : FrameId → Frame V) :
    (a.alloc make).1.Queued := by
  obtain ⟨id, base, eq, lodged⟩ := exists_lodged ht make
  rw [eq]
  refine pinAll (fun f s hs popped pinned => ?_) _
  rw [lodged.slotOf?] at hs
  split at hs
  · cases hs
    simp at popped
  · rw [lodged.unpinned]
    exact h.collect f s hs popped pinned

theorem release (h : a.Queued) (id : FrameId) : (a.release id).Queued := by
  cases hid : a.slotOf? id with
  | none => rwa [release_of_none hid]
  | some s =>
    rw [release_eq hid]
    have others (f : FrameId) (t : Slot V) (hne : f ≠ id)
        (ht : (a.modifySlot id fun s => { s with popped := true }).slotOf? f = some t)
        (popped : t.popped = true) (pinned : t.pinned = 0) :
        f ∈ (a.modifySlot id fun s => { s with popped := true }).unpinned := by
      rw [slotOf?_modifySlot steady_popped, if_neg hne] at ht
      rw [unpinned_modifySlot]
      exact h f t ht popped pinned
    have here : (a.modifySlot id fun s => { s with popped := true }).slotOf? id =
        some { s with popped := true } := by
      rw [slotOf?_modifySlot steady_popped, if_pos rfl, hid]
      rfl
    -- without pins the frame is recycled at once, although no queue has it
    refine collect ?_
    split
    · exact recycle here others
    · rename_i hpin
      intro f t ht popped pinned
      refine others f t (fun hf => hpin ?_) ht popped pinned
      rw [hf, here, Option.some.injEq] at ht
      rwa [← ht] at pinned

end Queued

/-! ## The accounts -/

section Pins

theorem pinCount_unpinAll_le (a : Arena V) (ids : List FrameId) (f : FrameId) :
    (a.unpinAll ids).pinCount f ≤ a.pinCount f := by
  induction ids generalizing a with
  | nil => exact Nat.le_refl _
  | cons id rest ih =>
    refine Nat.le_trans (ih (a.unpin id)) ?_
    rw [pinCount_unpin]
    exact Nat.sub_le _ _

theorem pinCount_emptied {s : Slot V} (hs : a.slotOf? id = some s) (free : List Nat) (live : Nat) :
    ({ a with
        slots := a.slots.setIfInBounds id.index s.emptied, free, live } : Arena V).pinCount f =
      if f = id then 0 else a.pinCount f := by
  rw [pinCount_eq, slotOf?_emptied hs, pinCount_eq]
  split <;> rfl

/-- Working off the queue takes no pins. -/
theorem pinCount_collect_le [Pinning V] (a : Arena V) (f : FrameId) :
    a.collect.pinCount f ≤ a.pinCount f := by
  refine collect_induct (P := fun b => b.pinCount f ≤ a.pinCount f) (fun _ _ _ _ _ hb => hb)
    (fun b c id rest s _ hc hs _ _ hb => ?_) (Nat.le_refl _)
  obtain ⟨fr, hfr, -⟩ := exists_frame_of_slotOf? hs
  have same : c.pinCount f = b.pinCount f := hc ▸ rfl
  rw [recycle_eq hs hfr]
  refine Nat.le_trans (pinCount_unpinAll_le _ _ f) ?_
  rw [pinCount_emptied hs, same]
  split
  · exact Nat.zero_le _
  · exact hb

end Pins

section Accounts

variable [Pinning V] {out owed ids : List FrameId}

/-- The number of pins on a frame that frames hold. -/
def gripped (a : Arena V) (id : FrameId) : Nat := a.weigh fun fr => fr.pins.count id

/-- Every pin is held, from outside or by a frame; the pins in `owed` are held but have not been
taken yet. -/
def Accounts (a : Arena V) (out owed : List FrameId) : Prop :=
  ∀ id, out.count id + a.gripped id = a.pinCount id + owed.count id

theorem gripped_pos {fr : Frame V} (hf : a.get? f = some fr) (hid : id ∈ fr.pins) :
    0 < a.gripped id :=
  Nat.lt_of_lt_of_le (List.count_pos_iff.2 hid)
    (le_weigh (w := fun fr => fr.pins.count id) hf)

theorem gripped_modify {p : FrameId} {fr : Frame V} (hf : a.get? id = some fr)
    (g : Frame V → Frame V) :
    (a.modify id g).gripped p + fr.pins.count p = a.gripped p + (g fr).pins.count p := by
  obtain ⟨s, hs, hfr⟩ := get?_eq_some_iff.1 hf
  have change := weigh_set (w := fun fr => fr.pins.count p)
    (t := { s with frame := s.frame.map g }) (slotOf?_eq_some_iff.1 hs).1 a.free a.live
  rw [Arena.modify, modifySlot_of_slotOf? hs]
  simpa [hfr, gripped] using change

namespace Accounts

/-- A frame on which a pin is held is there. -/
theorem exists_slot (h : a.Accounts out []) (held : id ∈ out ∨ 0 < a.gripped id) :
    ∃ s, a.slotOf? id = some s := by
  have pos : 0 < out.count id + a.gripped id := by
    rcases held with mem | pos
    · exact Nat.add_pos_left (List.count_pos_iff.2 mem) _
    · exact Nat.add_pos_right _ pos
  rw [h id] at pos
  cases hs : a.slotOf? id with
  | some s => exact ⟨s, rfl⟩
  | none =>
    rw [pinCount_of_none hs] at pos
    simp at pos

/-- Somebody holds a pin on a frame that is pinned. -/
theorem held_of_pinned (h : a.Accounts out []) {s : Slot V} (hs : a.slotOf? id = some s)
    (pos : 0 < s.pinned) : id ∈ out ∨ ∃ f fr, a.get? f = some fr ∧ id ∈ fr.pins := by
  have total := h id
  rw [pinCount_of_some hs, List.count_nil] at total
  by_cases mem : id ∈ out
  · exact .inl mem
  · rw [List.count_eq_zero.2 mem] at total
    obtain ⟨f, fr, hf, count⟩ := exists_of_weigh_pos (w := fun fr => fr.pins.count id)
      (show 0 < a.gripped id by omega)
    exact .inr ⟨f, fr, hf, List.count_pos_iff.1 count⟩

theorem perm {out' : List FrameId} (h : a.Accounts out owed) (hp : out.Perm out') :
    a.Accounts out' owed := fun id => by
  rw [← hp.count_eq]
  exact h id

theorem of_unpinned (h : a.Accounts out owed) (queue : List FrameId) :
    ({ a with unpinned := queue } : Arena V).Accounts out owed := h

theorem pin (h : a.Accounts out (id :: owed)) {s : Slot V} (hs : a.slotOf? id = some s) :
    (a.pin id).Accounts out owed := by
  intro f
  have total := h f
  have same : (a.pin id).gripped f = a.gripped f := weigh_pin
  rw [pinCount_pin, hs, same]
  rw [List.count_cons] at total
  by_cases hf : f = id
  · subst hf
    simp only [beq_self_eq_true, if_true] at total
    simp only [Option.isSome_some, and_self, if_true]
    omega
  · simp only [beq_iff_eq, Ne.symm hf, if_false] at total
    simp only [hf, false_and, if_false]
    omega

theorem pinAll (h : a.Accounts out (ids ++ owed))
    (here : ∀ id ∈ ids, ∃ s, a.slotOf? id = some s) :
    (ids.foldl Arena.pin a).Accounts out owed := by
  induction ids generalizing a with
  | nil => exact h
  | cons id rest ih =>
    obtain ⟨s, hs⟩ := here id List.mem_cons_self
    refine ih (h.pin hs) fun f hf => ?_
    obtain ⟨t, ht⟩ := here f (List.mem_cons_of_mem id hf)
    rw [slotOf?_pin]
    split
    · exact ⟨_, by rw [hs]; rfl⟩
    · exact ⟨t, ht⟩

theorem unpin (h : a.Accounts (id :: out) []) : (a.unpin id).Accounts out [] := by
  intro f
  have total := h f
  have same : (a.unpin id).gripped f = a.gripped f := weigh_unpin
  rw [pinCount_unpin, same]
  rw [List.count_cons, List.count_nil] at total
  rw [List.count_nil]
  by_cases hf : f = id
  · subst hf
    simp only [beq_self_eq_true, if_true] at total ⊢
    omega
  · simp only [beq_iff_eq, Ne.symm hf, if_false] at total
    simp only [hf, if_false]
    omega

theorem unpinAll (h : a.Accounts (ids ++ out) []) : (a.unpinAll ids).Accounts out [] := by
  induction ids generalizing a with
  | nil => exact h
  | cons id rest ih => exact ih h.unpin

/-- The pins of a frame that goes are held by nobody for a moment, and let go then. -/
theorem recycle (h : a.Accounts out []) {s : Slot V} (hs : a.slotOf? id = some s)
    (hpin : s.pinned = 0) : (a.recycle id.index).Accounts out [] := by
  obtain ⟨fr, hfr, -⟩ := exists_frame_of_slotOf? hs
  rw [recycle_eq hs hfr]
  refine unpinAll fun f => ?_
  have total := h f
  have less := weigh_set (w := fun fr => fr.pins.count f) (t := s.emptied)
    (slotOf?_eq_some_iff.1 hs).1 (id.index :: a.free) (a.live - 1)
  simp only [hfr, Option.elim_some, Slot.emptied, Option.elim_none, Nat.add_zero] at less
  have count : (if f = id then 0 else a.pinCount f) = a.pinCount f := by
    split
    · subst f
      rw [pinCount_of_some hs, hpin]
    · rfl
  rw [pinCount_emptied hs, count, List.count_append]
  simp only [gripped, Slot.emptied] at total less ⊢
  omega

theorem collect (h : a.Accounts out []) : a.collect.Accounts out [] :=
  collect_induct (P := (Accounts · out [])) (fun _ _ rest _ _ hb => hb.of_unpinned rest)
    (fun _ _ _ rest _ _ hc hs _ hz hb => (hc ▸ hb.of_unpinned rest).recycle hs hz) h

/-- A frame is changed: pins in `gained` are taken first, and pins in `lost` are let go last. -/
theorem exchange (h : a.Accounts out []) {fr : Frame V} {g : Frame V → Frame V}
    {gained lost : List FrameId} (hfr : a.get? id = some fr)
    (balance : ∀ p, (g fr).pins.count p + lost.count p = fr.pins.count p + gained.count p)
    (here : ∀ p ∈ gained, ∃ s, a.slotOf? p = some s) :
    (((gained.foldl Arena.pin a).modify id g).unpinAll lost).Accounts out [] := by
  -- between the two, what is gained counts as held outside, and so does what is lost after it
  have taken : (gained.foldl Arena.pin a).Accounts (gained ++ out) [] := by
    refine pinAll (fun p => ?_) here
    have total := h p
    simp only [List.count_append, List.count_nil] at total ⊢
    omega
  have there : (gained.foldl Arena.pin a).get? id = some fr := (get?_pinAll gained).trans hfr
  refine unpinAll fun p => ?_
  have total := taken p
  have change := gripped_modify (p := p) there g
  have even := balance p
  rw [pinCount_modify]
  simp only [List.count_append] at total ⊢
  omega

/-- **A new frame** holds pins that are held outside. -/
theorem alloc (h : a.Accounts out []) (ht : a.Tidy) {make : FrameId → Frame V}
    (held : ∀ id, ∀ p ∈ (make id).pins, p ∈ out) : (a.alloc make).1.Accounts out [] := by
  obtain ⟨id, base, eq, lodged⟩ := exists_lodged ht make
  rw [eq]
  refine pinAll (fun f => ?_) fun p hp => ?_
  · have total := h.collect f
    rw [lodged.pinCount, gripped, lodged.weigh, List.append_nil]
    simp only [gripped, List.count_nil] at total
    omega
  · obtain ⟨s, hs⟩ := h.collect.exists_slot (.inl (held id p hp))
    rw [lodged.slotOf?]
    split
    · exact ⟨_, rfl⟩
    · exact ⟨s, hs⟩

theorem pop (h : a.Accounts out []) (id : FrameId) :
    (a.modifySlot id fun s => { s with popped := true }).Accounts out [] := by
  intro f
  have same : (a.modifySlot id fun s => { s with popped := true }).gripped f = a.gripped f :=
    weigh_modifySlot fun _ => rfl
  rw [pinCount_pop, same]
  exact h f

theorem release (h : a.Accounts out []) (id : FrameId) : (a.release id).Accounts out [] :=
  release_induct (P := (Accounts · out [])) (fun _ => h) (fun _ _ => h.pop id)
    (fun _ _ hs _ hz hb => hb.recycle hs hz) fun _ hb => hb.collect

end Accounts

end Accounts

/-! ## The number of frames -/

/-- The arena knows how many frames it has. -/
def Counted (a : Arena V) : Prop := a.live = a.weigh fun _ => 1

/-- The handles of all frames. -/
def handles (a : Arena V) : List FrameId :=
  a.slots.toList.zipIdx.filterMap fun p => p.1.frame.map fun _ => ⟨p.2, p.1.generation⟩

theorem mem_handles_iff : id ∈ a.handles ↔ ∃ s, a.slotOf? id = some s := by
  constructor
  · intro h
    obtain ⟨⟨s, i⟩, hs, hid⟩ := List.mem_filterMap.1 h
    obtain ⟨fr, hfr, rfl⟩ := Option.map_eq_some_iff.1 hid
    rw [List.mem_zipIdx_iff_getElem?, Array.getElem?_toList] at hs
    exact ⟨s, slotOf?_eq_some_iff.2 ⟨hs, Slot.holds_iff.2 ⟨rfl, fr, hfr⟩⟩⟩
  · rintro ⟨s, hs⟩
    obtain ⟨here, holds⟩ := slotOf?_eq_some_iff.1 hs
    obtain ⟨generation, fr, hfr⟩ := Slot.holds_iff.1 holds
    refine List.mem_filterMap.2 ⟨(s, id.index), ?_, ?_⟩
    · rwa [List.mem_zipIdx_iff_getElem?, Array.getElem?_toList]
    · simp [hfr, generation]

theorem mem_handles_iff_get? : id ∈ a.handles ↔ (a.get? id).isSome := by
  rw [mem_handles_iff, get?_eq]
  constructor
  · rintro ⟨s, hs⟩
    obtain ⟨fr, frame, -⟩ := exists_frame_of_slotOf? hs
    rw [hs, Option.bind_some, frame]
    rfl
  · intro here
    cases hs : a.slotOf? id with
    | some s => exact ⟨s, rfl⟩
    | none =>
      rw [hs] at here
      cases here

theorem nodup_handles (a : Arena V) : a.handles.Nodup := by
  have apart : a.slots.toList.zipIdx.Pairwise fun p q => p.2 ≠ q.2 := by
    rw [← List.pairwise_map (f := Prod.snd), List.zipIdx_map_snd]
    exact List.nodup_range'
  refine apart.filterMap _ fun p q hne id hid id' hid' same => hne ?_
  obtain ⟨-, -, rfl⟩ := Option.map_eq_some_iff.1 hid
  obtain ⟨-, -, rfl⟩ := Option.map_eq_some_iff.1 hid'
  exact congrArg FrameId.index same

theorem length_handles (a : Arena V) : a.handles.length = a.weigh fun _ => 1 := by
  have general (l : List (Slot V)) (n : Nat) :
      ((l.zipIdx n).filterMap fun p => p.1.frame.map fun _ =>
        (⟨p.2, p.1.generation⟩ : FrameId)).length
      = (l.map fun s => s.frame.elim 0 fun _ => 1).sum := by
    induction l generalizing n with
    | nil => rfl
    | cons s l ih =>
      rw [List.zipIdx_cons, List.map_cons, List.sum_cons, ← ih (n + 1)]
      cases hf : s.frame with
      | none => simp [hf]
      | some fr =>
        simp [hf]
        omega
  exact general a.slots.toList 0

namespace Counted

theorem modifySlot (h : a.Counted) (id : FrameId) {g : Slot V → Slot V} (hg : Steady g) :
    (a.modifySlot id g).Counted := by
  have live : (a.modifySlot id g).live = a.live := by
    unfold Arena.modifySlot
    split
    · dsimp only
      split <;> rfl
    · rfl
  rw [Counted, live, weigh_modifySlot, h]
  intro s
  have same := hg.frame s
  revert same
  cases (g s).frame <;> cases s.frame <;> simp

theorem pinAll (h : a.Counted) (ids : List FrameId) : (ids.foldl Arena.pin a).Counted := by
  induction ids generalizing a with
  | nil => exact h
  | cons id rest ih => exact ih (h.modifySlot id (steady_pinned _))

theorem of_unpinned (h : a.Counted) (queue : List FrameId) :
    ({ a with unpinned := queue } : Arena V).Counted := h

theorem unpin (h : a.Counted) (id : FrameId) : (a.unpin id).Counted := by
  unfold Arena.unpin
  dsimp only
  split
  · exact (h.modifySlot id (steady_pinned fun s => s.pinned - 1)).of_unpinned _
  · exact h.modifySlot id (steady_pinned fun s => s.pinned - 1)

theorem unpinAll (h : a.Counted) (ids : List FrameId) : (a.unpinAll ids).Counted := by
  induction ids generalizing a with
  | nil => exact h
  | cons id rest ih => exact ih (h.unpin id)

variable [Pinning V]

theorem recycle (h : a.Counted) {s : Slot V} (hs : a.slotOf? id = some s) :
    (a.recycle id.index).Counted := by
  obtain ⟨fr, hfr, -⟩ := exists_frame_of_slotOf? hs
  rw [recycle_eq hs hfr]
  refine unpinAll ?_ _
  have less := weigh_set (w := fun _ => 1) (t := s.emptied)
    (slotOf?_eq_some_iff.1 hs).1 (id.index :: a.free) (a.live - 1)
  simp only [hfr, Option.elim_some, Slot.emptied, Option.elim_none, Nat.add_zero] at less
  rw [Counted] at h ⊢
  simp only [Slot.emptied]
  omega

theorem collect (h : a.Counted) : a.collect.Counted :=
  collect_induct (P := Counted) (fun _ _ rest _ _ hb => hb.of_unpinned rest)
    (fun _ _ _ rest _ _ hc hs _ _ hb => (hc ▸ hb.of_unpinned rest).recycle hs) h

theorem alloc (h : a.Counted) (ht : a.Tidy) (make : FrameId → Frame V) :
    (a.alloc make).1.Counted := by
  obtain ⟨id, base, eq, lodged⟩ := exists_lodged ht make
  rw [eq]
  refine pinAll ?_ _
  rw [Counted, lodged.live, lodged.weigh, ← h.collect]

theorem release (h : a.Counted) (id : FrameId) : (a.release id).Counted :=
  release_induct (P := Counted) (fun _ => h) (fun _ _ => h.modifySlot id steady_popped)
    (fun _ _ hs _ _ hb => hb.recycle hs) fun _ hb => hb.collect

end Counted

/-! ## All of it -/

/-- The arena is in order, with the given pins held from outside. -/
structure Orderly [Pinning V] (a : Arena V) (out : List FrameId) : Prop where
  tidy : a.Tidy
  queued : a.Queued
  accounts : a.Accounts out []
  counted : a.Counted

namespace Orderly

variable [Pinning V] {out ids : List FrameId}

theorem empty (birth : UInt32) : ({ birth } : Arena V).Orderly [] where
  tidy := tidy_empty birth
  queued f s h := by simp [slotOf?] at h
  accounts f := by simp [gripped, weigh, pinCount]
  counted := rfl

theorem perm {out' : List FrameId} (h : a.Orderly out) (hp : out.Perm out') : a.Orderly out' :=
  ⟨h.tidy, h.queued, h.accounts.perm hp, h.counted⟩

/-- Pins are taken on frames that are there. -/
theorem pinAll (h : a.Orderly out) (here : ∀ id ∈ ids, ∃ s, a.slotOf? id = some s) :
    (ids.foldl Arena.pin a).Orderly (ids ++ out) := by
  refine ⟨h.tidy.pinAll ids, h.queued.pinAll ids, Accounts.pinAll (fun f => ?_) here,
    h.counted.pinAll ids⟩
  have total := h.accounts f
  simp only [List.count_append, List.count_nil] at total ⊢
  omega

theorem unpinAll (h : a.Orderly (ids ++ out)) : (a.unpinAll ids).Orderly out :=
  ⟨h.tidy.unpinAll ids, h.queued.unpinAll ids, h.accounts.unpinAll, h.counted.unpinAll ids⟩

theorem exchange (h : a.Orderly out) {fr : Frame V} {g : Frame V → Frame V}
    {gained lost : List FrameId} (hfr : a.get? id = some fr)
    (balance : ∀ p, (g fr).pins.count p + lost.count p = fr.pins.count p + gained.count p)
    (here : ∀ p ∈ gained, ∃ s, a.slotOf? p = some s) :
    (((gained.foldl Arena.pin a).modify id g).unpinAll lost).Orderly out where
  tidy := ((h.tidy.pinAll gained).modify id g).unpinAll lost
  queued := ((h.queued.pinAll gained).modify id g).unpinAll lost
  accounts := h.accounts.exchange hfr balance here
  counted := ((h.counted.pinAll gained).modifySlot id (steady_frame g)).unpinAll lost

theorem collect (h : a.Orderly out) : a.collect.Orderly out :=
  ⟨h.tidy.collect, h.queued.collect, h.accounts.collect, h.counted.collect⟩

theorem alloc (h : a.Orderly out) {make : FrameId → Frame V}
    (held : ∀ id, ∀ p ∈ (make id).pins, p ∈ out) : (a.alloc make).1.Orderly out :=
  ⟨h.tidy.alloc make, h.queued.alloc h.tidy make, h.accounts.alloc h.tidy held,
    h.counted.alloc h.tidy make⟩

theorem release (h : a.Orderly out) (id : FrameId) : (a.release id).Orderly out :=
  ⟨h.tidy.release id, h.queued.release id, h.accounts.release id, h.counted.release id⟩

end Orderly

end Arena

end Colloquy
