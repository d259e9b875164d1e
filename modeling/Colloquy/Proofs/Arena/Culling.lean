import Colloquy.Proofs.Arena.Keeping

/-!
# Giving up frames

`Arena.abandonPins` takes all pins off some popped frames at once and recycles them.  If the frames
that stay form a set `F` that goes outward with every frame in it and has all active frames, then
nothing of what stays is touched, every pin that is left is accounted for, and nothing outside `F`
is kept any more (`Arena.culled_abandonPins`).
-/

namespace Colloquy

namespace Arena

variable {a : Arena Value} {F : FrameId → Prop} {ids : List FrameId} {f e : FrameId}

/-! ## Taking all pins off -/

/-- The arena with all pins on the given frames gone. -/
def zeroed (a : Arena Value) (ids : List FrameId) : Arena Value :=
  ids.foldl (fun a id => a.modifySlot id ({ · with pinned := 0 })) a

theorem slotOf?_zeroed (a : Arena Value) (ids : List FrameId) (f : FrameId) :
    (a.zeroed ids).slotOf? f =
      if f ∈ ids then (a.slotOf? f).map fun s => { s with pinned := 0 } else a.slotOf? f := by
  induction ids generalizing a with
  | nil => simp [zeroed]
  | cons id ids ih =>
    have := ih (a.modifySlot id ({ · with pinned := 0 }))
    rw [slotOf?_modifySlot (steady_pinned fun _ => 0)] at this
    rw [zeroed, List.foldl_cons, ← zeroed, this]
    by_cases hf : f = id
    · subst hf
      cases a.slotOf? f <;> simp
    · simp [hf]

theorem tidy_zeroed (h : a.Tidy) (ids : List FrameId) : (a.zeroed ids).Tidy := by
  induction ids generalizing a with
  | nil => exact h
  | cons id ids ih => exact ih (h.modifySlot id _)

theorem enclosed_zeroed (a : Arena Value) (ids : List FrameId) (e : FrameId) :
    (a.zeroed ids).enclosed e = a.enclosed e := by
  induction ids generalizing a with
  | nil => rfl
  | cons id ids ih =>
    rw [zeroed, List.foldl_cons, ← zeroed, ih]
    exact tally_modifySlot fun _ => rfl

theorem get?_zeroed (a : Arena Value) (ids : List FrameId) (f : FrameId) :
    (a.zeroed ids).get? f = a.get? f := by
  rw [get?_eq, slotOf?_zeroed, get?_eq]
  split
  · cases a.slotOf? f <;> rfl
  · rfl

theorem active_zeroed : (a.zeroed ids).Active f ↔ a.Active f := by
  rw [Active, Active, slotOf?_zeroed]
  split
  · cases a.slotOf? f <;> simp
  · rfl

theorem keeps_zeroed : (a.zeroed ids).Keeps f ↔ a.Keeps f ∧ f ∉ ids := by
  rw [Keeps, Keeps, enclosed_zeroed, pinCount_eq, pinCount_eq, slotOf?_zeroed]
  by_cases hf : f ∈ ids
  · cases a.slotOf? f <;> simp [hf]
  · simp [hf]

/-! ## What is held up -/

/-- Frames that hold each other up: each has all its pins, those in `out` among them, and is on the
call stack, or pinned by `out` or by another of them. -/
structure Supports (a : Arena Value) (out : List FrameId) (S : FrameId → Prop) : Prop where
  there : ∀ f, S f → ∃ s, a.slotOf? f = some s
  pinned : ∀ f, S f → out.count f + a.enclosed f ≤ a.pinCount f
  held : ∀ f, S f → a.Active f ∨ f ∈ out
    ∨ ∃ g fr, S g ∧ a.get? g = some fr ∧ fr.enclosing = some f

namespace Supports

variable {out : List FrameId} {S : FrameId → Prop}

/-- What is held up is not popped, or pinned. -/
theorem not_spent (h : a.Supports out S) (hf : S f) {s : Slot Value} (hs : a.slotOf? f = some s)
    (popped : s.popped = true) : s.pinned ≠ 0 := by
  have pinned := h.pinned f hf
  rw [pinCount_of_some hs] at pinned
  rcases h.held f hf with ⟨s', hs', active⟩ | mem | ⟨g, fr, -, here, inside⟩
  · cases hs.symm.trans hs'
    rw [popped] at active
    cases active
  · have := List.count_pos_iff.2 mem
    omega
  · have := enclosed_pos here inside
    omega

/-- Recycling a frame that is not held up takes away pins of its own. -/
theorem recycle (h : a.Supports out S) {id : FrameId} {s : Slot Value}
    (hs : a.slotOf? id = some s) (popped : s.popped = true) (pinned : s.pinned = 0) :
    (a.recycle id.index).Supports out S
      ∧ ∀ f, S f → (a.recycle id.index).get? f = a.get? f := by
  obtain ⟨fr, -, here⟩ := exists_frame_of_slotOf? hs
  have other {f : FrameId} (hf : S f) : f ≠ id := by
    rintro rfl
    exact h.not_spent hf hs popped pinned
  have same (f : FrameId) (hf : S f) : (a.recycle id.index).get? f = a.get? f := by
    rw [get?_recycle here, if_neg (other hf)]
  refine ⟨⟨fun f hf => ?_, fun f hf => ?_, fun f hf => ?_⟩, same⟩
  · obtain ⟨t, ht⟩ := h.there f hf
    rw [slotOf?_recycle here, if_neg (other hf), ht]
    split
    · exact ⟨_, rfl⟩
    · exact ⟨t, rfl⟩
  · have less := enclosed_recycle (f := f) here
    have enough := h.pinned f hf
    rw [pinCount_recycle here (other hf)]
    omega
  · refine (h.held f hf).imp (Sheds.recycle hs popped).active_iff.2 (Or.imp_right ?_)
    rintro ⟨g, gr, hg, there, inside⟩
    exact ⟨g, gr, hg, (same g hg).trans there, inside⟩

/-- **What is held up stays** when the queue is worked off. -/
theorem collect (h : a.Supports out S) (hf : S f) : a.collect.get? f = a.get? f := by
  have stays : a.collect.Supports out S ∧ ∀ f, S f → a.collect.get? f = a.get? f := by
    refine collect_induct (P := fun b => b.Supports out S ∧ ∀ f, S f → b.get? f = a.get? f)
      (fun b id rest _ _ hb => ?_) (fun b c id rest s _ hc hs popped pinned hb => ?_)
      ⟨h, fun _ _ => rfl⟩
    · exact ⟨⟨hb.1.there, hb.1.pinned, hb.1.held⟩, hb.2⟩
    · subst hc
      have before : ({ b with unpinned := rest } : Arena Value).Supports out S :=
        ⟨hb.1.there, hb.1.pinned, hb.1.held⟩
      obtain ⟨after, same⟩ := before.recycle hs popped pinned
      exact ⟨after, fun f hf => (same f hf).trans (hb.2 f hf)⟩
  exact stays.2 f hf

/-- What is held up stays when other frames are given up. -/
theorem abandonPins (h : a.Supports out S) (apart : ∀ f ∈ ids, ¬ S f) (hf : S f) :
    (a.abandonPins ids).get? f = a.get? f := by
  have slot {f : FrameId} (hf : S f) : (a.zeroed ids).slotOf? f = a.slotOf? f := by
    rw [slotOf?_zeroed, if_neg fun mem => apart f mem hf]
  have before : (a.zeroed ids).Supports out S := by
    refine ⟨fun f hf => ?_, fun f hf => ?_, fun f hf => ?_⟩
    · rw [slot hf]
      exact h.there f hf
    · rw [enclosed_zeroed, pinCount_eq, slot hf, ← pinCount_eq]
      exact h.pinned f hf
    · refine (h.held f hf).imp active_zeroed.2 (Or.imp_right ?_)
      rintro ⟨g, gr, hg, there, inside⟩
      exact ⟨g, gr, hg, (get?_zeroed a ids g).trans there, inside⟩
  have queued : ({ a.zeroed ids with unpinned := ids ++ (a.zeroed ids).unpinned } :
      Arena Value).Supports out S := ⟨before.there, before.pinned, before.held⟩
  exact (queued.collect hf).trans (get?_zeroed a ids f)

end Supports

/-! ## What stays -/

/-- The frames to give up are the popped ones outside `F`. -/
structure Excludes (a : Arena Value) (F : FrameId → Prop) (ids : List FrameId) : Prop where
  popped : ∀ f ∈ ids, ∀ s, a.slotOf? f = some s → s.popped = true ∧ ¬ F f
  all : ∀ f s, a.slotOf? f = some s → s.popped = true → ¬ F f → f ∈ ids
  active : ∀ f, a.Active f → F f
  outward : ∀ f fr e, F f → a.get? f = some fr → fr.enclosing = some e → F e

/-- What the arena is like after the frames outside `F` have been given up. -/
structure Culled (a b : Arena Value) (F : FrameId → Prop) : Prop where
  tidy : b.Tidy
  balanced : b.Balanced
  keeps : ∀ {f}, F f → a.Keeps f → b.Keeps f ∧ b.get? f = a.get? f
  active : ∀ {f}, a.Active f → b.Active f ∧ b.get? f = a.get? f
  keeps_of_keeps : ∀ {f}, b.Keeps f → a.Keeps f ∧ F f
  active_of_active : ∀ {f}, b.Active f → a.Active f
  before : ∀ {f fr}, b.get? f = some fr → a.get? f = some fr ∧ F f

theorem Excludes.mem_of_get? (h : a.Excludes F ids) {fr : Frame Value} (hf : a.get? f = some fr)
    (hF : ¬ F f) : f ∈ ids := by
  obtain ⟨s, hs, -⟩ := get?_eq_some_iff.1 hf
  cases hp : s.popped with
  | true => exact h.all f s hs hp hF
  | false => exact absurd (h.active f ⟨s, hs, hp⟩) hF

/-- While the queue is worked off: pins are accounted for outside the given frames, these are still
queued or gone, and what is there was there before. -/
structure Culling (a : Arena Value) (ids : List FrameId) (b : Arena Value) : Prop where
  balanced : ∀ e, e ∉ ids → b.enclosed e ≤ b.pinCount e
  queued : ∀ u ∈ ids, ∀ s, b.slotOf? u = some s →
    u ∈ b.unpinned ∧ s.popped = true ∧ s.pinned = 0
  before : ∀ f fr, b.get? f = some fr → a.get? f = some fr

/-- The frame taken off the queue is recycled. -/
theorem Culling.recycle {b : Arena Value} {rest : List FrameId} {s : Slot Value}
    (h : a.Culling ids b) (hq : b.unpinned = f :: rest) (hs : b.slotOf? f = some s)
    (hpin : s.pinned = 0) :
    a.Culling ids (({ b with unpinned := rest } : Arena Value).recycle f.index) := by
  obtain ⟨fr, -, hfr⟩ := exists_frame_of_slotOf? hs
  have hfr' : ({ b with unpinned := rest } : Arena Value).get? f = some fr := hfr
  refine ⟨fun e he => ?_, fun u hu t ht => ?_, fun g gr hg => ?_⟩
  · have less := enclosed_recycle (f := e) hfr'
    have bal : ({ b with unpinned := rest } : Arena Value).enclosed e ≤ b.pinCount e :=
      h.balanced e he
    by_cases hef : e = f
    · subst hef
      rw [pinCount_of_some hs, hpin] at bal
      omega
    · have pins : ({ b with unpinned := rest } : Arena Value).pinCount e = b.pinCount e := rfl
      rw [pinCount_recycle hfr' hef, pins]
      omega
  · rw [slotOf?_recycle hfr'] at ht
    split at ht
    · simp at ht
    · rename_i huf
      have stays : u ∈ b.unpinned → u ∈ rest := fun hmem =>
        (List.mem_cons.1 (hq ▸ hmem)).resolve_left huf
      split at ht
      · obtain ⟨t', ht', rfl⟩ := Option.map_eq_some_iff.1 ht
        obtain ⟨mem, popped, pinned⟩ := h.queued u hu t' ht'
        exact ⟨mem_unpinned_recycle hfr' (stays mem), popped, by simp [pinned]⟩
      · obtain ⟨mem, popped⟩ := h.queued u hu t ht
        exact ⟨mem_unpinned_recycle hfr' (stays mem), popped⟩
  · rw [get?_recycle hfr'] at hg
    split at hg
    · simp at hg
    · exact h.before g gr hg

theorem culling_collect {b : Arena Value} (h : a.Culling ids b) : a.Culling ids b.collect := by
  refine collect_induct (fun c id rest hq hskip hc => ?_)
    (fun c d id rest s hq hd hs hp hz hc => ?_) h
  · refine ⟨hc.balanced, fun u hu s hs => ?_, hc.before⟩
    obtain ⟨mem, popped, pinned⟩ := hc.queued u hu s hs
    refine ⟨?_, popped, pinned⟩
    rw [hq] at mem
    refine (List.mem_cons.1 mem).resolve_left fun he => ?_
    subst he
    exact hskip s hs popped pinned
  · subst hd
    exact hc.recycle hq hs hz

/-- Once the queue is empty, the given frames are gone. -/
theorem Culling.gone {b : Arena Value} (h : a.Culling ids b) (empty : b.unpinned = [])
    (hf : f ∈ ids) : b.slotOf? f = none := by
  cases hs : b.slotOf? f with
  | none => rfl
  | some s =>
    have queued := (h.queued f hf s hs).1
    rw [empty] at queued
    simp at queued

theorem culling_abandonPins (hb : a.Balanced)
    (popped : ∀ f ∈ ids, ∀ s, a.slotOf? f = some s → s.popped = true) :
    a.Culling ids (a.abandonPins ids) := by
  refine culling_collect ⟨fun e he => ?_, fun u hu s hs => ?_,
    fun f fr hf => (get?_zeroed a ids f).symm.trans hf⟩
  · change (a.zeroed ids).enclosed e ≤ (a.zeroed ids).pinCount e
    rw [enclosed_zeroed, pinCount_eq, slotOf?_zeroed, if_neg he, ← pinCount_eq]
    exact hb e
  · change (a.zeroed ids).slotOf? u = some s at hs
    rw [slotOf?_zeroed, if_pos hu] at hs
    obtain ⟨t, ht, rfl⟩ := Option.map_eq_some_iff.1 hs
    exact ⟨List.mem_append_left _ hu, popped u hu t ht, rfl⟩

/-- Once the pins are off, giving up the frames is no more than working off the queue. -/
theorem spares_abandonPins (a : Arena Value) (ids : List FrameId) :
    (a.zeroed ids).Spares (a.abandonPins ids) :=
  (Spares.of_unpinned (a.zeroed ids) (ids ++ (a.zeroed ids).unpinned)).trans (.collect _)

/-- **Giving up frames** touches nothing that stays. -/
theorem culled_abandonPins (ht : a.Tidy) (hb : a.Balanced) (hF : a.Excludes F ids) :
    a.Culled (a.abandonPins ids) F := by
  have done : a.Culling ids (a.abandonPins ids) :=
    culling_abandonPins hb fun f hf s hs => (hF.popped f hf s hs).1
  have spared := spares_abandonPins a ids
  have retained := spared.retains
  have before {f : FrameId} {fr : Frame Value} (hf : (a.abandonPins ids).get? f = some fr) :
      a.get? f = some fr ∧ F f := by
    refine ⟨done.before f fr hf, Classical.byContradiction fun hn => ?_⟩
    have gone := done.gone (unpinned_collect _) (hF.mem_of_get? (done.before f fr hf) hn)
    rw [get?_eq, gone] at hf
    simp at hf
  refine ⟨((tidy_zeroed ht ids).of_unpinned _).collect, fun e => ?_, fun {f} hf hk => ?_,
    fun {f} ha => ?_, fun {f} hk => ?_, fun {f} ha => ?_, before⟩
  · by_cases he : e ∈ ids
    · -- a frame inside a frame that was given up was given up itself
      refine Nat.le_of_not_lt fun hlt => ?_
      obtain ⟨x, fr, hx, henc⟩ := exists_of_tally_pos (Nat.lt_of_le_of_lt (Nat.zero_le _) hlt)
      have henc : fr.enclosing = some e := by simpa using henc
      obtain ⟨hxa, hxF⟩ := before hx
      have pinned := hb.exists_enclosing hxa henc
      cases hs : a.slotOf? e with
      | none =>
        rw [pinCount_of_none hs] at pinned
        exact absurd pinned (Nat.lt_irrefl 0)
      | some s => exact (hF.popped e he s hs).2 (hF.outward x fr e hxF hxa henc)
    · exact done.balanced e he
  · have hn : f ∉ ids := fun hmem => by
      obtain ⟨s, hs⟩ := hk.exists_slot
      exact (hF.popped f hmem s hs).2 hf
    obtain ⟨hk', hg⟩ := retained.keeps (keeps_zeroed.2 ⟨hk, hn⟩)
    exact ⟨hk', hg.trans (get?_zeroed a ids f)⟩
  · obtain ⟨ha', hg⟩ := retained.active (active_zeroed.2 ha)
    exact ⟨ha', hg.trans (get?_zeroed a ids f)⟩
  · obtain ⟨hk, hn⟩ := keeps_zeroed.1 (spared.keeps.1 hk)
    obtain ⟨fr, hfr⟩ := hk.exists_frame
    exact ⟨hk, Classical.byContradiction fun hnF => hn (hF.mem_of_get? hfr hnF)⟩
  · exact active_zeroed.1 (spared.active_iff.1 ha)

end Arena

end Colloquy
