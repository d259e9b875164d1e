import Mathlib.Data.Finset.Card
import Colloquy.Proofs.Counted.Sessions
import Colloquy.Proofs.Lifetimes

/-!
# A census finds what counted pins have let go

When all that has no reference any more has been dropped and the queue has been worked off, a
session is settled (`Counted.Settled`).  Whatever is still there then has a pin or a reference that
comes from something else that is there, so it remains in the graph of a census; and whatever
remains in that graph has such a holder at any time before, so it never goes.

Main statement: in whatever order things go, the frames that are left in the end are those that a
census leaves (`Counted.Sound.census_of_settled`).
-/

namespace Colloquy

/-- A property of a value is one of its closures and of the row that it comes to. -/
theorem Value.each_iff {P : Closure Value → Prop} {R : Ref → Prop} :
    ∀ {v : Value}, v.Each P R
      ↔ (∀ c ∈ v.closures, P c) ∧ ∀ r, Census.Node.row r ∈ Census.ofValue v → R r
  | .array r | .object _ r => by simp [Each, closures, Census.ofValue]
  | .block ⟨_, _, _, _, receiver⟩ => by
    simp [Each, closures, Census.ofValue, each_iff (v := receiver), and_assoc]
  | .nil | .bool _ | .int _ | .float _ | .char _ | .string _ _ | .cls _ => by
    simp [Each, closures, Census.ofValue]

/-- The only pins in frames of values are those on the frames around them. -/
theorem Arena.gripped_eq (a : Arena Value) (f : FrameId) : a.gripped f = a.enclosed f := by
  rw [Arena.gripped, Arena.enclosed, Arena.tally_eq_weigh]
  congr 1
  funext fr
  rw [Frame.pins_eq]
  cases fr.enclosing <;> simp [List.count_singleton]

namespace Counted

variable {machine : Machine} {image : Image} {x y z : Counted}

/-- Nothing is left to go. -/
structure Settled (image : Image) (x : Counted) : Prop where
  queue : x.frames.unpinned = []
  closures : ∀ c ∈ x.closures, ¬ x.Free image c
  rows : ∀ r < x.store.rows.size, r ∉ x.gone → ¬ x.FreeRow image r

/-- What the host holds, the transcript among it. -/
def held (image : Image) (x : Counted) : List Value := image.transcript :: x.session.host

/-- The frame is there, and remains in a census. -/
def Stays (image : Image) (x : Counted) (f : FrameId) : Prop :=
  (∃ fr, x.frames.get? f = some fr) ∧ Census.Stays x.session.state (x.held image) f

/-- The row has been made, and remains in a census. -/
def StaysRow (image : Image) (x : Counted) (r : Ref) : Prop :=
  r < x.store.rows.size ∧ Census.StaysRow x.session.state (x.held image) r

/-! ## What remains in a census never goes -/

/-- Things have gone, but nothing that a census would leave. -/
structure Spared (image : Image) (x y : Counted) : Prop where
  calls : y.session.state.calls = x.session.state.calls
  host : y.session.host = x.session.host
  size : y.store.rows.size = x.store.rows.size
  gone : ∀ r ∈ x.gone, r ∈ y.gone
  row : ∀ r, r ∉ y.gone → y.store.row r = x.store.row r
  kept : ∀ r ∈ y.gone, r ∉ x.gone → ¬ x.StaysRow image r
  sheds : x.frames.Sheds y.frames
  frames : ∀ f, x.Stays image f → y.frames.get? f = x.frames.get? f

namespace Spared

theorem refl (image : Image) (x : Counted) : Spared image x x :=
  ⟨rfl, rfl, rfl, fun _ => id, fun _ _ => rfl, fun _ dropped kept => absurd dropped kept, .refl _,
    fun _ _ => rfl⟩

/-- What holds a node in a census still does. -/
theorem exists_holder (h : Spared image x y) (empty : ∀ r ∈ x.gone, x.store.row r = #[])
    {n : Census.Node} (holder : Census.Holder x.session.state (x.held image) n) :
    (∃ v, y.Has image v ∧ n ∈ Census.ofValue v)
      ∨ (∃ c ∈ y.session.state.calls.calls, n = .frame c.frame)
      ∨ ∃ g fr e, x.Stays image g ∧ y.frames.get? g = some fr ∧ fr.enclosing = some e
        ∧ n = .frame e := by
  cases holder with
  | root mem =>
    rw [Census.roots, Census.onStack, ← h.calls] at mem
    rcases List.mem_append.1 mem with mem | mem
    · rcases List.mem_append.1 mem with mem | mem
      · obtain ⟨v, hv, mem⟩ := List.mem_flatMap.1 mem
        rcases List.mem_cons.1 hv with rfl | hv
        · exact .inl ⟨_, .transcript, mem⟩
        · exact .inl ⟨v, .host (h.host ▸ hv), mem⟩
      · obtain ⟨c, hc, mem⟩ := List.mem_flatMap.1 mem
        obtain ⟨v, hv, mem⟩ := List.mem_flatMap.1 mem
        exact .inl ⟨v, .operand hc hv, mem⟩
    · obtain ⟨c, hc, rfl⟩ := List.mem_map.1 mem
      exact .inr (.inl ⟨c, hc, rfl⟩)
  | @frame g fr there stays mem =>
    have stays : x.Stays image g := ⟨⟨fr, there⟩, stays⟩
    have here : y.frames.get? g = some fr := (h.frames g stays).trans there
    rcases Census.mem_ofFrame.1 mem with ⟨v, hv, mem⟩ | ⟨e, inside, rfl⟩
    · refine .inl ⟨v, ?_, mem⟩
      simp only [List.mem_append, List.mem_singleton, Array.mem_toList_iff] at hv
      rcases hv with (hv | hv) | rfl
      · exact .left here hv
      · exact .slot here hv
      · exact .self here
    · exact .inr (.inr ⟨g, fr, e, stays, here, inside, rfl⟩)
  | @row r v made stays hv mem =>
    have kept : r ∉ y.gone := fun dropped => by
      by_cases before : r ∈ x.gone
      · have none : v ∈ (#[] : Array Value) := empty r before ▸ hv
        simp at none
      · exact h.kept r dropped before ⟨made, stays⟩
    exact .inl ⟨v, .element (h.size ▸ made) kept (h.row r kept ▸ hv), mem⟩

/-- What remains in a census is held up by pins. -/
theorem supports (h : Spared machine.image x y) (empty : ∀ r ∈ x.gone, x.store.row r = #[])
    (sound : y.Sound machine) :
    y.frames.Supports (y.closures.map (·.enclosing)) (x.Stays machine.image) := by
  refine ⟨fun f hf => ?_, fun f _ => ?_, fun f hf => ?_⟩
  · obtain ⟨fr, here⟩ := hf.1
    obtain ⟨s, hs, -⟩ := Arena.get?_eq_some_iff.1 ((h.frames f hf).trans here)
    exact ⟨s, hs⟩
  · have accounts := sound.upkeep.orderly.accounts f
    rw [Arena.gripped_eq, List.count_nil] at accounts
    exact Nat.le_of_eq accounts
  · obtain ⟨fr, here⟩ := hf.1
    have below := Nat.lt_of_lt_of_le (Census.index_lt here)
      (Nat.le_add_right _ x.store.rows.size)
    rcases h.exists_holder empty (Census.exists_holder (Census.number_frame here) below hf.2) with
      ⟨v, hv, mem⟩ | ⟨c, hc, same⟩ | ⟨g, gr, e, stays, there, inside, same⟩
    · obtain ⟨c, hc, rfl⟩ := Census.frame_mem_ofValue.1 mem
      exact .inr (.inl (List.mem_map_of_mem ((Value.each_iff.1 (sound.values v hv)).1 c hc)))
    · cases same
      refine .inl ((sound.upkeep.active c.frame).2 (List.mem_map.2 ⟨c.who, ?_, rfl⟩))
      exact List.mem_map_of_mem hc
    · cases same
      exact .inr (.inr ⟨g, gr, stays, there, inside⟩)

/-- **Nothing goes that a census would leave.** -/
theorem letGo (h : Spared machine.image x y) (empty : ∀ r ∈ x.gone, x.store.row r = #[])
    (sound : y.Sound machine) (goes : y.LetsGo machine.image z) : Spared machine.image x z := by
  cases goes with
  | @closure c rest there free =>
    refine { h with sheds := h.sheds.trans (.unpin y.frames c.enclosing), frames := fun f hf => ?_ }
    exact Arena.get?_unpin.trans (h.frames f hf)
  | @row r made kept free =>
    refine { h with
      size := (y.size_discard r).trans h.size
      gone := fun r' hr' => List.mem_cons_of_mem r (h.gone r' hr')
      row := fun r' hr' => ?_
      kept := fun r' hr' before stays => ?_ }
    · obtain ⟨other, kept⟩ := not_or.1 fun dropped => hr' (List.mem_cons.2 dropped)
      rw [row_discard, if_neg other, h.row r' kept]
    · rcases List.mem_cons.1 hr' with rfl | dropped
      · have below := Nat.add_lt_add_left stays.1 x.session.state.memory.frames.slots.size
        rcases h.exists_holder empty (Census.exists_holder (n := .row r') rfl below stays.2) with
          ⟨v, hv, mem⟩ | ⟨c, -, ⟨⟩⟩ | ⟨_, _, _, _, _, _, ⟨⟩⟩
        exact (Value.each_iff.1 (free v hv)).2 r' mem rfl
      · exact h.kept r' dropped before stays
  | collect =>
    refine { h with sheds := h.sheds.trans (.collect y.frames), frames := fun f hf => ?_ }
    exact ((h.supports empty sound).collect hf).trans (h.frames f hf)

/-- Along the way, nothing goes that a census would leave. -/
theorem of_goes (sound : x.Sound machine)
    (goes : Relation.ReflTransGen (LetsGo machine.image) x y) :
    Spared machine.image x y ∧ y.Sound machine := by
  induction goes with
  | refl => exact ⟨refl machine.image x, sound⟩
  | tail _ goes ih => exact ⟨ih.1.letGo sound.empty ih.2 goes, ih.2.letGo goes⟩

end Spared

/-! ## What is left in the end remains in a census -/

/-- The number of a frame or row that is still there. -/
inductive There (x y : Counted) : Nat → Prop
  | frame {f : FrameId} {fr : Frame Value} (here : y.frames.get? f = some fr) : There x y f.index
  | row {r : Ref} (made : r < y.store.rows.size) (kept : r ∉ y.gone) :
      There x y (x.frames.slots.size + r)

/-- What is in a value that is still somewhere is held in a census by what is still there. -/
theorem Spared.held_of_has (h : Spared image x y) {v : Value} (hv : y.Has image v)
    {n : Census.Node} (mem : n ∈ Census.ofValue v) {k : Nat}
    (number : Census.number x.frames n = some k) :
    k ∈ (Census.graph x.session.state (x.held image)).outside
      ∨ ∃ j, There x y j ∧ j < (Census.graph x.session.state (x.held image)).size
        ∧ k ∈ (Census.graph x.session.state (x.held image)).holds j := by
  have outside (root : n ∈ Census.roots x.session.state (x.held image)) :
      k ∈ (Census.graph x.session.state (x.held image)).outside :=
    List.mem_filterMap.2 ⟨n, root, number⟩
  have frame {f : FrameId} {fr : Frame Value} (here : y.frames.get? f = some fr)
      (hv : v ∈ fr.left ++ fr.locals.toList ++ [fr.receiver]) :
      ∃ j, There x y j ∧ j < (Census.graph x.session.state (x.held image)).size
        ∧ k ∈ (Census.graph x.session.state (x.held image)).holds j := by
    have before := h.sheds.get? here
    refine ⟨f.index, .frame here,
      Nat.lt_of_lt_of_le (Census.index_lt before) (Nat.le_add_right _ _), ?_⟩
    rw [Census.holds_frame before]
    exact List.mem_filterMap.2 ⟨n, Census.mem_ofFrame.2 (.inl ⟨v, hv, mem⟩), number⟩
  have host (hv : v ∈ x.held image) : n ∈ Census.roots x.session.state (x.held image) :=
    List.mem_append_left _ (List.mem_append_left _ (List.mem_flatMap.2 ⟨v, hv, mem⟩))
  cases hv with
  | transcript => exact .inl (outside (host List.mem_cons_self))
  | host hv => exact .inl (outside (host (List.mem_cons_of_mem _ (h.host ▸ hv))))
  | @operand c _ hc hv =>
    refine .inl (outside (List.mem_append_left _ (List.mem_append_right _ ?_)))
    exact List.mem_flatMap.2 ⟨c, h.calls ▸ hc, List.mem_flatMap.2 ⟨v, hv, mem⟩⟩
  | slot here hv =>
    exact .inr (frame here (by simp [hv]))
  | self here => exact .inr (frame here (by simp))
  | left here hv => exact .inr (frame here (by simp [hv]))
  | @element r _ made kept hv =>
    refine .inr ⟨_, .row made kept, Nat.add_lt_add_left (h.size ▸ made) _, ?_⟩
    have hv : v ∈ x.session.state.memory.store.row r := h.row r kept ▸ hv
    rw [show x.frames.slots.size = x.session.state.memory.frames.slots.size from rfl,
      Census.holds_row]
    exact List.mem_filterMap.2
      ⟨n, List.mem_flatMap.2 ⟨v, Array.mem_toList_iff.2 hv, mem⟩, number⟩

/-- **What is left in the end remains in a census.** -/
theorem Spared.stays_of_settled (h : Spared machine.image x y) (sound : y.Sound machine)
    (settled : y.Settled machine.image) {f : FrameId} {fr : Frame Value}
    (here : y.frames.get? f = some fr) : x.Stays machine.image f := by
  have before := h.sheds.get? here
  refine ⟨⟨fr, before⟩, Holding.remaining_of_supported (S := There x y) (fun k hk => ?_)
    (.frame here) (Nat.lt_of_lt_of_le (Census.index_lt before) (Nat.le_add_right _ _))⟩
  cases hk with
  | @frame f fr here =>
    have before := h.sheds.get? here
    have number : Census.number x.frames (.frame f) = some f.index := Census.number_frame before
    obtain ⟨s, hs, -⟩ := Arena.get?_eq_some_iff.1 here
    cases popped : s.popped with
    | false =>
      -- it is on the call stack
      obtain ⟨who, mem, rfl⟩ := List.mem_map.1 ((sound.upkeep.active f).1 ⟨s, hs, popped⟩)
      obtain ⟨c, hc, rfl⟩ := List.mem_map.1 mem
      refine .inl (List.mem_filterMap.2 ⟨_, List.mem_append_right _ ?_, number⟩)
      exact List.mem_map.2 ⟨c, h.calls ▸ hc, rfl⟩
    | true =>
      have pinned := sound.upkeep.orderly.queued.pinned_of_unpinned settled.queue hs popped
      rcases sound.upkeep.orderly.accounts.held_of_pinned hs pinned with mem | ⟨g, gr, there, mem⟩
      · -- a closure that it made has a reference
        obtain ⟨c, hc, rfl⟩ := List.mem_map.1 mem
        obtain ⟨v, hv, refers⟩ := not_forall₂.1 (settled.closures c hc)
        have found : ∃ c' ∈ v.closures, c'.serial = c.serial := by
          simpa [Value.each_iff] using refers
        obtain ⟨c', hc', same⟩ := found
        have there := (Value.each_iff.1 (sound.values v hv)).1 c' hc'
        cases List.inj_on_of_nodup_map sound.apart there hc same
        exact h.held_of_has hv (Census.frame_mem_ofValue.2 ⟨c, hc', rfl⟩) number
      · -- a frame is inside it
        have older := h.sheds.get? there
        rw [Frame.pins_eq, Option.mem_toList] at mem
        refine .inr ⟨g.index, .frame there,
          Nat.lt_of_lt_of_le (Census.index_lt older) (Nat.le_add_right _ _), ?_⟩
        rw [Census.holds_frame older]
        exact List.mem_filterMap.2 ⟨_, Census.mem_ofFrame.2 (.inr ⟨f, mem, rfl⟩), number⟩
  | @row r made kept =>
    obtain ⟨v, hv, refers⟩ := not_forall₂.1 (settled.rows r made kept)
    have mem : .row r ∈ Census.ofValue v := by
      simpa [Value.each_iff] using refers
    exact h.held_of_has hv mem rfl

/-! ## Settling -/

/-- The rows that have not been dropped. -/
def remaining (x : Counted) : Finset Ref := (Finset.range x.store.rows.size).filter (· ∉ x.gone)

/-- **Letting go comes to an end.** -/
theorem exists_settled (image : Image) (x : Counted) :
    ∃ y, Relation.ReflTransGen (LetsGo image) x y ∧ y.Settled image := by
  -- each closure and each row is dropped only once
  induction size : x.closures.length + x.remaining.card using Nat.strongRecOn generalizing x with
  | _ n ih =>
    let z := x.reframe x.frames.collect
    have worked : Relation.ReflTransGen (LetsGo image) x z := .single .collect
    by_cases closures : ∀ c ∈ z.closures, ¬ z.Free image c
    · by_cases rows : ∀ r < z.store.rows.size, r ∉ z.gone → ¬ z.FreeRow image r
      · exact ⟨z, worked, Arena.unpinned_collect _, closures, rows⟩
      · push Not at rows
        obtain ⟨r, made, kept, free⟩ := rows
        have goes : LetsGo image z (z.discard r) := .row made kept free
        have fewer : (z.discard r).remaining.card < z.remaining.card := by
          refine Finset.card_lt_card ((Finset.ssubset_iff_of_subset fun r' hr' => ?_).2 ⟨r, ?_, ?_⟩)
          · obtain ⟨below, left⟩ := Finset.mem_filter.1 hr'
            rw [size_discard] at below
            exact Finset.mem_filter.2 ⟨below, fun dropped => left (List.mem_cons_of_mem r dropped)⟩
          · exact Finset.mem_filter.2 ⟨Finset.mem_range.2 made, kept⟩
          · exact fun mem => (Finset.mem_filter.1 mem).2 List.mem_cons_self
        obtain ⟨y, path, settled⟩ := ih _ (size ▸ Nat.add_lt_add_left fewer _) (z.discard r) rfl
        exact ⟨y, (worked.tail goes).trans path, settled⟩
    · push Not at closures
      obtain ⟨c, hc, free⟩ := closures
      obtain ⟨before, after, split⟩ := List.append_of_mem hc
      have there : z.closures.Perm (c :: (before ++ after)) := split ▸ List.perm_middle
      let y := { z.reframe (z.frames.unpin c.enclosing) with closures := before ++ after }
      have goes : LetsGo image z y := .closure there free
      have fewer : (before ++ after).length < z.closures.length := by
        rw [there.length_eq]
        exact Nat.lt_succ_self _
      obtain ⟨y, path, settled⟩ := ih _ (size ▸ Nat.add_lt_add_right fewer _) y rfl
      exact ⟨y, (worked.tail goes).trans path, settled⟩

/-! ## What a census leaves -/

/-- A frame on the call stack remains in a census. -/
theorem Sound.stays_of_active (h : x.Sound machine) {f : FrameId} {fr : Frame Value}
    (here : x.frames.get? f = some fr) (active : x.frames.Active f) :
    x.Stays machine.image f := by
  obtain ⟨who, mem, rfl⟩ := List.mem_map.1 ((h.upkeep.active f).1 active)
  obtain ⟨c, hc, rfl⟩ := List.mem_map.1 mem
  refine ⟨⟨fr, here⟩, Census.stays_of_node here (Census.stays_of_roots ?_)⟩
  exact List.mem_append_right _ (List.mem_map.2 ⟨c, hc, rfl⟩)

theorem frames_census (machine : Machine) (x : Counted) :
    (machine.census x.session.state x.session.host).1.memory.frames
      = x.frames.abandonPins (Census.unheld x.session.state (x.held machine.image)) :=
  machine.census_frames x.session.state x.session.host

/-- A census leaves the frames that remain in its graph. -/
theorem Sound.census_get? (h : x.Sound machine) (f : FrameId) (fr : Frame Value) :
    (machine.census x.session.state x.session.host).1.memory.frames.get? f = some fr
      ↔ x.frames.get? f = some fr ∧ x.Stays machine.image f := by
  have balanced : x.frames.Balanced := fun f => by
    have accounts := h.upkeep.orderly.accounts f
    rw [Arena.gripped_eq, List.count_nil] at accounts
    exact Nat.le_trans (Nat.le_add_left _ _) (Nat.le_of_eq accounts)
  have popped : ∀ g ∈ Census.unheld x.session.state (x.held machine.image), ∀ s,
      x.frames.slotOf? g = some s → s.popped = true := fun g mem s hs => by
    obtain ⟨t, ht, -, popped, -⟩ := Census.mem_unheld.1 mem
    cases (Arena.slotOf?_eq_some_iff.1 hs).1.symm.trans ht
    exact popped
  have apart {f : FrameId} (mem : f ∈ Census.unheld x.session.state (x.held machine.image)) :
      ¬ x.Stays machine.image f := fun stays => by
    obtain ⟨-, -, -, -, leaves⟩ := Census.mem_unheld.1 mem
    exact leaves stays.2
  rw [frames_census]
  constructor
  · intro here
    have before := (Arena.sheds_abandonPins _ _).get? here
    refine ⟨before, ⟨fr, before⟩, Classical.byContradiction fun leaves => ?_⟩
    obtain ⟨s, hs, -⟩ := Arena.get?_eq_some_iff.1 before
    obtain ⟨slot, holds⟩ := Arena.slotOf?_eq_some_iff.1 hs
    have ended : s.popped = true := Bool.eq_true_of_not_eq_false fun active =>
      leaves (h.stays_of_active before ⟨s, hs, active⟩).2
    have unheld : f ∈ Census.unheld x.session.state (x.held machine.image) :=
      Census.mem_unheld.2 ⟨s, slot, (Slot.holds_iff.1 holds).1, ended, leaves⟩
    have done := Arena.culling_abandonPins balanced popped
    rw [Arena.get?_eq, done.gone (Arena.unpinned_collect _) unheld] at here
    cases here
  · rintro ⟨before, stays⟩
    have supports := (Spared.refl machine.image x).supports h.empty h
    exact (supports.abandonPins (fun f => apart) stays).trans before

/-- The frames that a census leaves are counted. -/
theorem Sound.census_count (h : x.Sound machine) :
    (machine.census x.session.state x.session.host).2
      = (machine.census x.session.state x.session.host).1.memory.frames.handles.length := by
  rw [Arena.length_handles]
  have counted : (machine.census x.session.state x.session.host).1.memory.frames.Counted := by
    rw [frames_census]
    exact Arena.counted_abandonPins h.upkeep.orderly.counted _
  exact counted

/-- **A census finds what counted pins have let go.**  In whatever order closures, arrays and
objects are dropped and the queue is worked off, when nothing is left to go, the frames that are
there are those that a census leaves, and as many as it counts. -/
theorem Sound.census_of_settled (h : x.Sound machine)
    (goes : Relation.ReflTransGen (LetsGo machine.image) x y) (settled : y.Settled machine.image) :
    (∀ f, y.frames.get? f
        = (machine.census x.session.state x.session.host).1.memory.frames.get? f)
      ∧ y.frames.live = (machine.census x.session.state x.session.host).2 := by
  obtain ⟨spared, sound⟩ := Spared.of_goes h goes
  have same (f : FrameId) : y.frames.get? f
      = (machine.census x.session.state x.session.host).1.memory.frames.get? f := by
    refine Option.ext fun fr => ?_
    rw [h.census_get?]
    constructor
    · exact fun here => ⟨spared.sheds.get? here, spared.stays_of_settled sound settled here⟩
    · rintro ⟨before, stays⟩
      exact (spared.frames f stays).trans before
  refine ⟨same, ?_⟩
  have live : y.frames.live = y.frames.handles.length :=
    sound.upkeep.orderly.counted.trans (Arena.length_handles _).symm
  rw [live, h.census_count]
  refine List.Perm.length_eq ((List.perm_ext_iff_of_nodup (Arena.nodup_handles _)
    (Arena.nodup_handles _)).2 fun f => ?_)
  rw [Arena.mem_handles_iff_get?, Arena.mem_handles_iff_get?, same]

end Counted

end Colloquy
