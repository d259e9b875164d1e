import Colloquy.Machine.Census
import Colloquy.Proofs.Arena.Culling
import Colloquy.Proofs.Coherence.Changes
import Colloquy.Proofs.Holding

/-!
# A census keeps memory coherent

The frames and rows that remain in a census are closed under holding, so everything that the host or
the calls in progress can still reach is among them, and the census gives up none of it
(`Machine.census_coherent`).  Rows that do not remain are no longer reachable afterwards.
-/

namespace Colloquy

variable {Q : Closure Value → Prop} {R R' : Ref → Prop} {image : Image} {m m' : Memory}
  {calls : List Call} {host : List Value} {F : FrameId → Prop}

theorem Value.Each.and {P P' : Closure Value → Prop} :
    ∀ {v : Value}, v.Each P R → v.Each P' R' →
      v.Each (fun c => P c ∧ P' c) (fun r => R r ∧ R' r)
  | .array _, h, h' => ⟨h, h'⟩
  | .object _ _, h, h' => ⟨h, h'⟩
  | .block ⟨_, _, _, _, _⟩, h, h' => ⟨⟨h.1, h'.1⟩, h.2.and h'.2⟩
  | .nil, _, _ | .bool _, _, _ | .int _, _, _ | .float _, _, _ | .char _, _, _
  | .string _ _, _, _ | .cls _, _, _ => trivial

/-! ## Giving up frames -/

/-- The value's closures were made by frames in `F`, and its rows are in `R`. -/
def Value.Within (F : FrameId → Prop) (R : Ref → Prop) (v : Value) : Prop :=
  v.Each (fun c => F c.enclosing) R

namespace Arena

variable {a b : Arena Value} {f h : FrameId}

/-- A frame that stays has its home stay. -/
theorem Anchored.home_of_outward
    (outward : ∀ f fr e, F f → a.get? f = some fr → fr.enclosing = some e → F e)
    (ha : a.Anchored f h) (hf : F f) : F h := by
  induction ha with
  | method => exact hf
  | block here inside _ _ _ _ ih => exact ih (outward _ _ _ hf here inside)

theorem Nests.cull {code : Code} (hF : a.Culled b F) (hn : a.Nests h code) (hh : F h)
    (kept : a.Keeps h) : b.Nests h code :=
  hn.persist (lasts_of_get? (hF.keeps hh kept).2)

theorem Anchored.cull (hF : a.Culled b F)
    (outward : ∀ f fr e, F f → a.get? f = some fr → fr.enclosing = some e → F e)
    (ha : a.Anchored f h) (hf : F f) (same : b.get? f = a.get? f) : b.Anchored f h := by
  induction ha with
  | method here outermost own => exact .method (same.trans here) outermost own
  | block here inside home kept outer nested ih =>
    have he := outward _ _ _ hf here inside
    exact .block (same.trans here) inside home (hF.keeps he kept).1 (ih he (hF.keeps he kept).2)
      (nested.cull hF (outer.home_of_outward outward he) (outer.keeps_home kept))

theorem Sound.cull (hF : a.Culled b F)
    (outward : ∀ f fr e, F f → a.get? f = some fr → fr.enclosing = some e → F e) {v : Value}
    (hv : a.Sound Q R v) (within : v.Within F R') : b.Sound Q (fun r => R r ∧ R' r) v := by
  refine Value.Each.mono (fun c hc => ?_) (fun _ => id) (Value.Each.and hv within)
  obtain ⟨kept, same⟩ := hF.keeps hc.2 hc.1.keeps
  exact ⟨kept, hc.1.anchored.cull hF outward hc.2 same,
    hc.1.nested.cull hF (hc.1.anchored.home_of_outward outward hc.2)
      (hc.1.anchored.keeps_home hc.1.keeps), hc.1.also⟩

end Arena

/-- Frames in `F` and rows in `R'` hold nothing else, and neither do the calls and the host. -/
structure Memory.Closed (m : Memory) (image : Image) (F : FrameId → Prop) (R R' : Ref → Prop)
    (calls : List Call) (host : List Value) : Prop where
  outward : ∀ f fr e, F f → m.frames.get? f = some fr → fr.enclosing = some e → F e
  frames : ∀ f fr, F f → m.frames.get? f = some fr →
    (∀ v ∈ fr.locals, v.Within F R') ∧ fr.receiver.Within F R' ∧ ∀ v ∈ fr.left, v.Within F R'
  rows : ∀ r, R r → R' r → ∀ v ∈ m.store.row r, v.Within F R'
  onStack : ∀ c ∈ calls, F c.frame
  operands : ∀ c ∈ calls, ∀ v ∈ c.stack, v.Within F R'
  host : ∀ v ∈ host, v.Within F R'
  transcript : image.transcript.Within F R'

theorem Memory.Coherent.cull (h : m.Coherent image Q R calls host)
    (hF : m.Closed image F R R' calls host) (culled : m.frames.Culled m'.frames F)
    (store : m'.store = m.store) : m'.Coherent image Q (fun r => R r ∧ R' r) calls host := by
  have sound {v : Value} (hv : m.frames.Sound Q R v) (within : v.Within F R') :
      m'.frames.Sound Q (fun r => R r ∧ R' r) v := hv.cull culled hF.outward within
  have older {c : Call} (hc : c ∈ calls) : m'.frames.Active c.frame
      ∧ m'.frames.get? c.frame = m.frames.get? c.frame :=
    culled.active (h.arena.running c hc).active
  refine ⟨⟨culled.tidy, culled.balanced, h.arena.distinct, fun c hc => ?_, fun f ha => ?_,
    fun c hc v hv => ?_, fun f fr hf => ?_, fun f fr hf => ?_⟩, fun r hr => ?_, fun v hv => ?_, ?_⟩
  · have hr := h.arena.running c hc
    exact ⟨(older hc).1, fun fr hf => hr.code fr ((older hc).2 ▸ hf),
      fun fr hf => hr.returned fr ((older hc).2 ▸ hf)⟩
  · exact h.arena.active f (culled.active_of_active ha)
  · exact sound (h.arena.operands c hc v hv) (hF.operands c hc v hv)
  · obtain ⟨hfa, hFf⟩ := culled.before hf
    exact (h.arena.matters f fr hfa).imp_right fun hk => (culled.keeps hFf hk).1
  · obtain ⟨hfa, hFf⟩ := culled.before hf
    have same := hf.trans hfa.symm
    obtain ⟨hs, anchored⟩ := h.arena.frames f fr hfa
    obtain ⟨locals, receiver, left⟩ := hF.frames f fr hFf hfa
    refine ⟨⟨fun v hv => ?_, ?_, fun v hv => ?_⟩, anchored.cull culled hF.outward hFf same⟩
    · exact sound (hs.locals v hv) (locals v hv)
    · exact sound hs.receiver receiver
    · exact sound (hs.left v hv) (left v hv)
  · rw [store]
    exact ⟨(h.store r hr.1).1, fun v hv =>
      sound ((h.store r hr.1).2 v hv) (hF.rows r hr.1 hr.2 v hv)⟩
  · exact sound (h.host v hv) (hF.host v hv)
  · exact sound h.transcript hF.transcript

/-! ## What remains -/

namespace Census

variable {s : State} {held : List Value}

/-- The frame's node remains. -/
def Stays (s : State) (held : List Value) (f : FrameId) : Prop :=
  (graph s held).remaining.getD f.index false = true

/-- The row's node remains. -/
def StaysRow (s : State) (held : List Value) (r : Ref) : Prop :=
  (graph s held).remaining.getD (s.memory.frames.slots.size + r) false = true

/-- A node that is there remains. -/
def StaysNode (s : State) (held : List Value) (n : Node) : Prop :=
  ∀ k, number s.memory.frames n = some k → k < (graph s held).size →
    (graph s held).remaining.getD k false = true

theorem index_lt {f : FrameId} {fr : Frame Value} (h : s.memory.frames.get? f = some fr) :
    f.index < s.memory.frames.slots.size := by
  obtain ⟨slot, hs, -⟩ := Arena.get?_eq_some_iff.1 h
  exact (Array.getElem?_eq_some_iff.1 (Arena.slotOf?_eq_some_iff.1 hs).1).1

theorem stays_of_node {f : FrameId} {fr : Frame Value} (hf : s.memory.frames.get? f = some fr)
    (h : StaysNode s held (.frame f)) : Stays s held f := by
  refine h f.index ?_ (Nat.lt_of_lt_of_le (index_lt hf) (Nat.le_add_right _ _))
  simp [number, Arena.contains, hf]

/-- What remains among the nodes of a sound value is what the value needs. -/
theorem within_of_nodes (h : s.memory.Coherent image Q R s.calls.calls host) :
    ∀ {v : Value}, s.memory.frames.Sound Q R v → (∀ n ∈ ofValue v, StaysNode s held n) →
      v.Within (Stays s held) (StaysRow s held)
  | .array r, hv, hn => hn (.row r) List.mem_cons_self _ rfl
      (Nat.add_lt_add_left (h.store r hv).1 _)
  | .object _ r, hv, hn => hn (.row r) List.mem_cons_self _ rfl
      (Nat.add_lt_add_left (h.store r hv).1 _)
  | .block ⟨_, _, enclosing, _, _⟩, hv, hn => by
    obtain ⟨fr, hfr⟩ := hv.1.keeps.exists_frame
    exact ⟨stays_of_node hfr (hn _ List.mem_cons_self),
      within_of_nodes h hv.2 fun n hmem => hn n (List.mem_cons_of_mem _ hmem)⟩
  | .nil, _, _ | .bool _, _, _ | .int _, _, _ | .float _, _, _ | .char _, _, _
  | .string _ _, _, _ | .cls _, _, _ => trivial

/-- What is held from outside remains. -/
theorem stays_of_roots {n : Node} (hn : n ∈ roots s held) : StaysNode s held n := fun k hk hlt =>
  (graph s held).remaining_closed.1 k (List.mem_filterMap.2 ⟨n, hn, hk⟩) hlt

/-- The node with a given number. -/
def nodeAt (m : Memory) (j : Nat) : Node :=
  if j < m.frames.slots.size then .frame ⟨j, (m.frames.slots.getD j {}).generation⟩
  else .row (j - m.frames.slots.size)

theorem nodeAt_number {n : Node} {j : Nat} (h : number m.frames n = some j) : nodeAt m j = n := by
  cases n with
  | frame f =>
    simp only [number] at h
    split at h
    · rename_i there
      cases h
      obtain ⟨slot, hs⟩ := Arena.contains_iff.1 there
      obtain ⟨here, holds⟩ := Arena.slotOf?_eq_some_iff.1 hs
      rw [nodeAt, if_pos (Array.getElem?_eq_some_iff.1 here).1, Array.getD_eq_getD_getElem?, here,
        Option.getD_some, (Slot.holds_iff.1 holds).1]
    · cases h
  | row r =>
    cases h
    rw [nodeAt, if_neg (by omega), Nat.add_sub_cancel_left]

theorem number_frame {f : FrameId} {fr : Frame Value} (hf : m.frames.get? f = some fr) :
    number m.frames (.frame f) = some f.index := by
  simp [number, Arena.contains, hf]

/-- Frames that are there and rows have numbers of their own. -/
theorem number_inj {n n' : Node} {k : Nat} (hn : number m.frames n = some k)
    (hn' : number m.frames n' = some k) : n = n' :=
  (nodeAt_number hn).symm.trans (nodeAt_number hn')

theorem holds_frame {f : FrameId} {fr : Frame Value} (hf : s.memory.frames.get? f = some fr) :
    (graph s held).holds f.index = (ofFrame fr).filterMap (number s.memory.frames) := by
  obtain ⟨slot, hs, hfr⟩ := Arena.get?_eq_some_iff.1 hf
  have hget : s.memory.frames.slots.getD f.index {} = slot := by
    simp [Array.getD_eq_getD_getElem?, (Arena.slotOf?_eq_some_iff.1 hs).1]
  simp only [graph, index_lt hf, if_true, hget, hfr]

theorem holds_row (s : State) (held : List Value) (r : Ref) :
    (graph s held).holds (s.memory.frames.slots.size + r)
      = ((s.memory.store.row r).toList.flatMap ofValue).filterMap (number s.memory.frames) := by
  have hge : ¬ s.memory.frames.slots.size + r < s.memory.frames.slots.size := by omega
  simp only [graph, hge, if_false, Nat.add_sub_cancel_left]

/-- What a remaining frame holds remains. -/
theorem stays_of_frame {f : FrameId} {fr : Frame Value} {n : Node}
    (hf : s.memory.frames.get? f = some fr) (stays : Stays s held f) (hn : n ∈ ofFrame fr) :
    StaysNode s held n := by
  intro k hk hlt
  refine (graph s held).remaining_closed.2 f.index
    (Nat.lt_of_lt_of_le (index_lt hf) (Nat.le_add_right _ _)) stays k ?_ hlt
  rw [holds_frame hf]
  exact List.mem_filterMap.2 ⟨n, hn, hk⟩

/-- What a remaining row holds remains. -/
theorem stays_of_row {r : Ref} {v : Value} {n : Node} (hr : r < s.memory.store.rows.size)
    (stays : StaysRow s held r) (hv : v ∈ s.memory.store.row r) (hn : n ∈ ofValue v) :
    StaysNode s held n := by
  intro k hk hlt
  refine (graph s held).remaining_closed.2 _ (Nat.add_lt_add_left hr _) stays k ?_ hlt
  rw [holds_row]
  exact List.mem_filterMap.2 ⟨n, List.mem_flatMap.2 ⟨v, Array.mem_toList_iff.2 hv, hn⟩, hk⟩

/-- **What remains is closed under holding.** -/
theorem closed (h : s.memory.Coherent image Q R s.calls.calls host)
    (hheld : ∀ v ∈ image.transcript :: host, v ∈ held) :
    s.memory.Closed image (Stays s held) R (StaysRow s held) s.calls.calls host := by
  have contents {f : FrameId} {fr : Frame Value} (stays : Stays s held f)
      (hf : s.memory.frames.get? f = some fr) {v : Value} (hv : s.memory.frames.Sound Q R v)
      (mem : ∀ n ∈ ofValue v, n ∈ ofFrame fr) : v.Within (Stays s held) (StaysRow s held) :=
    within_of_nodes h hv fun n hn => stays_of_frame hf stays (mem n hn)
  have root {v : Value} (hv : s.memory.frames.Sound Q R v)
      (mem : ∀ n ∈ ofValue v, n ∈ roots s held) : v.Within (Stays s held) (StaysRow s held) :=
    within_of_nodes h hv fun n hn => stays_of_roots (mem n hn)
  have heldRoot {v : Value} (hv : v ∈ held) : ∀ n ∈ ofValue v, n ∈ roots s held := fun n hn =>
    List.mem_append_left _ (List.mem_append_left _ (List.mem_flatMap.2 ⟨v, hv, hn⟩))
  refine ⟨fun f fr e stays hf he => ?_, fun f fr stays hf => ?_, fun r hr stays v hv => ?_,
    fun c hc => ?_, fun c hc v hv => ?_, fun v hv => ?_, ?_⟩
  · have pinned := h.arena.balanced.exists_enclosing hf he
    obtain ⟨slot, hs⟩ : ∃ slot, s.memory.frames.slotOf? e = some slot := by
      cases hs : s.memory.frames.slotOf? e with
      | some slot => exact ⟨slot, rfl⟩
      | none =>
        rw [Arena.pinCount_of_none hs] at pinned
        exact absurd pinned (Nat.lt_irrefl 0)
    obtain ⟨er, -, her⟩ := Arena.exists_frame_of_slotOf? hs
    refine stays_of_node her (stays_of_frame hf stays (List.mem_append_right _ ?_))
    simp [he]
  · have sound := (h.arena.frames f fr hf).1
    refine ⟨fun v hv => contents stays hf (sound.locals v hv) fun n hn => ?_,
      contents stays hf sound.receiver fun n hn => ?_,
      fun v hv => contents stays hf (sound.left v hv) fun n hn => ?_⟩
    · exact List.mem_append_left _ (List.mem_append_left _ (List.mem_append_right _
        (List.mem_flatMap.2 ⟨v, Array.mem_toList_iff.2 hv, hn⟩)))
    · exact List.mem_append_left _ (List.mem_append_right _ hn)
    · exact List.mem_append_left _ (List.mem_append_left _ (List.mem_append_left _
        (List.mem_flatMap.2 ⟨v, hv, hn⟩)))
  · exact within_of_nodes h ((h.store r hr).2 v hv) fun n hn =>
      stays_of_row (h.store r hr).1 stays hv hn
  · obtain ⟨fr, hfr⟩ := (h.arena.running c hc).active.exists_frame
    exact stays_of_node hfr (stays_of_roots
      (List.mem_append_right _ (List.mem_map.2 ⟨c, hc, rfl⟩)))
  · refine root (h.arena.operands c hc v hv) fun n hn => ?_
    exact List.mem_append_left _ (List.mem_append_right _
      (List.mem_flatMap.2 ⟨c, hc, List.mem_flatMap.2 ⟨v, hv, hn⟩⟩))
  · exact root (h.host v hv) (heldRoot (hheld v (List.mem_cons_of_mem _ hv)))
  · exact root h.transcript (heldRoot (hheld _ List.mem_cons_self))

theorem mem_unheld {f : FrameId} : f ∈ unheld s held ↔ ∃ slot,
    s.memory.frames.slots[f.index]? = some slot ∧ slot.generation = f.generation
      ∧ slot.popped = true ∧ ¬ Stays s held f := by
  have known {i : Nat} (hi : i < s.memory.frames.slots.size) :
      (graph s held).remaining.getD i true = (graph s held).remaining.getD i false := by
    have : i < (graph s held).remaining.size := by
      rw [(graph s held).size_remaining]
      exact Nat.lt_of_lt_of_le hi (Nat.le_add_right _ _)
    simp [Array.getD_eq_getD_getElem?, this]
  simp only [unheld, List.mem_filterMap, Prod.exists, List.mem_zipIdx_iff_getElem?,
    Array.getElem?_toList, Stays]
  constructor
  · rintro ⟨slot, i, hs, hf⟩
    split at hf
    · rename_i hcond
      cases hf
      have hi := (Array.getElem?_eq_some_iff.1 hs).1
      simp only [Bool.and_eq_true, decide_eq_true_eq, known hi] at hcond
      exact ⟨slot, hs, rfl, hcond.1, by simp [hcond.2]⟩
    · cases hf
  · rintro ⟨slot, hs, hg, hp, hn⟩
    have hi := (Array.getElem?_eq_some_iff.1 hs).1
    refine ⟨slot, f.index, hs, ?_⟩
    rw [if_pos (by simp [hp, known hi, Bool.eq_false_iff.2 hn]), hg]

end Census

theorem Machine.census_frames (machine : Machine) (s : State) (held : List Value) :
    (machine.census s held).1.memory.frames = s.memory.frames.abandonPins
      (Census.unheld s (machine.image.transcript :: held)) :=
  Arena.collect_nil (Arena.unpinned_collect _)

/-- A census takes away frames that nothing holds, and leaves the others as they are. -/
theorem Machine.census_culled {machine : Machine} {s : State} {held : List Value}
    (h : s.memory.Coherent machine.image Q R s.calls.calls host)
    (closed : s.memory.Closed machine.image (Census.Stays s (machine.image.transcript :: held)) R
      (Census.StaysRow s (machine.image.transcript :: held)) s.calls.calls host) :
    s.memory.frames.Culled (machine.census s held).1.memory.frames
      (Census.Stays s (machine.image.transcript :: held)) := by
  have excludes : s.memory.frames.Excludes (Census.Stays s (machine.image.transcript :: held))
      (Census.unheld s (machine.image.transcript :: held)) := by
    refine ⟨fun f hf slot hs => ?_, fun f slot hs hp hn => ?_, fun f ha => ?_, closed.outward⟩
    · obtain ⟨slot', hs', -, popped, gone⟩ := Census.mem_unheld.1 hf
      rw [(Arena.slotOf?_eq_some_iff.1 hs).1, Option.some.injEq] at hs'
      exact ⟨hs' ▸ popped, gone⟩
    · obtain ⟨hs, hh⟩ := Arena.slotOf?_eq_some_iff.1 hs
      exact Census.mem_unheld.2 ⟨slot, hs, (Slot.holds_iff.1 hh).1, hp, hn⟩
    · obtain ⟨c, hc, rfl⟩ := List.mem_map.1 (h.arena.active f ha)
      exact closed.onStack c hc
  rw [census_frames]
  exact Arena.culled_abandonPins h.arena.tidy h.arena.balanced excludes

/-- What a census leaves is closed under holding, if the host has named all that it holds. -/
theorem Machine.census_closed {machine : Machine} {s : State} {held : List Value}
    (h : s.memory.Coherent machine.image Q R s.calls.calls host) (hheld : ∀ v ∈ host, v ∈ held) :
    s.memory.Closed machine.image (Census.Stays s (machine.image.transcript :: held)) R
      (Census.StaysRow s (machine.image.transcript :: held)) s.calls.calls host := by
  refine Census.closed h fun v hv => ?_
  rcases List.mem_cons.1 hv with rfl | hv
  · exact List.mem_cons_self
  · exact List.mem_cons_of_mem _ (hheld v hv)

/-- **A census keeps memory coherent**, if the host has named all that it holds. -/
theorem Machine.census_coherent {machine : Machine} {s : State} {held : List Value}
    (h : s.memory.Coherent machine.image Q R s.calls.calls host) (hheld : ∀ v ∈ host, v ∈ held) :
    ∃ R' : Ref → Prop, (∀ r, R' r → R r) ∧ (machine.census s held).1.memory.Coherent machine.image Q
      R' s.calls.calls host := by
  have closed := census_closed h hheld
  exact ⟨_, fun r hr => hr.1, h.cull closed (census_culled h closed) rfl⟩

end Colloquy
