import Colloquy.Proofs.Coherence.Basic

/-!
# Changes that keep memory coherent

The frames of a running program change in four ways: the contents of a frame change, a frame gets
a pin for a closure, a new call gets a frame, and the innermost call gives its frame up
(`Arena.Coherent.modify`, `.pin`, `.push`, `.pop`).  Each change keeps memory coherent, since it
keeps what closures keep (`Memory.Coherent.reframe`).
-/

namespace Colloquy

variable {Q Q' : Closure Value → Prop} {R R' : Ref → Prop}

namespace Arena

variable {a b : Arena Value} {calls rest : List Call} {c c' : Call} {id f : FrameId}

/-- The frame of a call in progress. -/
theorem Coherent.call_frame (h : a.Coherent Q R calls) (hc : c ∈ calls) :
    ∃ fr, a.get? c.frame = some fr ∧ fr.code = c.code ∧ a.SoundFrame Q R fr
      ∧ a.Anchored c.frame fr.home := by
  obtain ⟨fr, hfr⟩ := (h.running c hc).active.exists_frame
  obtain ⟨sound, anchored⟩ := h.frames _ fr hfr
  exact ⟨fr, hfr, (h.running c hc).code fr hfr, sound, anchored⟩

theorem Coherent.mono (hQ : ∀ c, a.Secures Q c → Q' c) (hR : ∀ r, R r → R' r)
    (h : a.Coherent Q R calls) : a.Coherent Q' R' calls :=
  { h with
    operands := fun c hc v hv => (h.operands c hc v hv).mono hQ hR
    frames := fun f fr hf =>
      ⟨(h.frames f fr hf).1.imp fun _ hv => hv.mono hQ hR, (h.frames f fr hf).2⟩ }

/-- The innermost call goes on elsewhere in its code, with other operands. -/
theorem Coherent.restack (h : a.Coherent Q R (c :: rest)) (frame : c'.frame = c.frame)
    (code : c'.code = c.code) (stack : ∀ v ∈ c'.stack, a.Sound Q R v) :
    a.Coherent Q R (c' :: rest) := by
  have same : (c' :: rest).map (·.frame) = (c :: rest).map (·.frame) := by simp [frame]
  refine { h with
    distinct := same ▸ h.distinct, running := ?_, active := same ▸ h.active, operands := ?_
    matters := fun f fr hf => ?_ }
  · intro d hd
    rcases List.mem_cons.1 hd with rfl | hd
    · have hc := h.running c List.mem_cons_self
      exact ⟨frame ▸ hc.active, fun fr hfr => (hc.code fr (frame ▸ hfr)).trans code.symm,
        fun fr hfr => hc.returned fr (frame ▸ hfr)⟩
    · exact h.running d (List.mem_cons_of_mem c hd)
  · intro d hd
    rcases List.mem_cons.1 hd with rfl | hd
    · exact stack
    · exact h.operands d (List.mem_cons_of_mem c hd)
  · rw [Matters, same]
    exact h.matters f fr hf

/-! ## Changing the contents of a frame -/

section Modify

variable {g : Frame Value → Frame Value}

theorem lasts_modify (links : ∀ fr : Frame Value, fr.SameLinks (g fr)) :
    a.Lasts (a.modify id g) f := by
  intro fr hf
  rw [get?_modify]
  split
  · subst f
    exact ⟨g fr, by rw [hf]; rfl, links fr⟩
  · exact ⟨fr, hf, .refl fr⟩

theorem get?_of_modify {fr : Frame Value} (h : (a.modify id g).get? f = some fr) :
    ∃ old, a.get? f = some old := by
  rw [get?_modify] at h
  split at h
  · subst f
    obtain ⟨old, hold, -⟩ := Option.map_eq_some_iff.1 h
    exact ⟨old, hold⟩
  · exact ⟨fr, h⟩

theorem persists_modify (links : ∀ fr : Frame Value, fr.SameLinks (g fr)) :
    a.Persists (a.modify id g) :=
  ⟨fun hk => (keeps_modify fun fr => (links fr).enclosing).2 hk, fun _ => lasts_modify links⟩

/-- Frames stay sound when one of them gets other contents, sound themselves. -/
theorem Coherent.frames_modify (h : a.Coherent Q R calls)
    (links : ∀ fr : Frame Value, fr.SameLinks (g fr))
    (sound : ∀ fr, a.get? id = some fr → a.SoundFrame Q R fr → a.SoundFrame Q R (g fr))
    {fr : Frame Value} (hf : (a.modify id g).get? f = some fr) :
    (a.modify id g).SoundFrame Q R fr ∧ (a.modify id g).Anchored f fr.home := by
  have persist : a.Persists (a.modify id g) := persists_modify links
  rw [get?_modify] at hf
  split at hf
  · subst f
    obtain ⟨old, hold, rfl⟩ := Option.map_eq_some_iff.1 hf
    obtain ⟨hsound, anchored⟩ := h.frames id old hold
    refine ⟨(sound old hold hsound).imp fun _ hv => hv.persist persist, ?_⟩
    rw [(links old).home]
    exact anchored.persist persist (lasts_modify links)
  · obtain ⟨hsound, anchored⟩ := h.frames f fr hf
    exact ⟨hsound.imp fun _ hv => hv.persist persist,
      anchored.persist persist (lasts_modify links)⟩

theorem Coherent.modify (h : a.Coherent Q R calls) (links : ∀ fr : Frame Value, fr.SameLinks (g fr))
    (returned : ∀ fr, (g fr).returned = fr.returned)
    (sound : ∀ fr, a.get? id = some fr → a.SoundFrame Q R fr → a.SoundFrame Q R (g fr)) :
    (a.modify id g).Coherent Q R calls where
  tidy := h.tidy.modify id g
  balanced := h.balanced.modify fun fr => (links fr).enclosing
  distinct := h.distinct
  running c hc := by
    have hr := h.running c hc
    refine ⟨active_modify.2 hr.active, fun fr hf => ?_, fun fr hf => ?_⟩
    all_goals
      rw [get?_modify] at hf
      split at hf
    · rename_i he
      obtain ⟨old, hold, rfl⟩ := Option.map_eq_some_iff.1 hf
      exact (links old).code.trans (hr.code old (he ▸ hold))
    · exact hr.code fr hf
    · rename_i he
      obtain ⟨old, hold, rfl⟩ := Option.map_eq_some_iff.1 hf
      exact (returned old).trans (hr.returned old (he ▸ hold))
    · exact hr.returned fr hf
  active f ha := h.active f (active_modify.1 ha)
  operands c hc v hv := (h.operands c hc v hv).persist (persists_modify links)
  matters f fr hf := by
    obtain ⟨old, hold⟩ := get?_of_modify hf
    exact (h.matters f old hold).imp_right fun hk =>
      (keeps_modify fun fr => (links fr).enclosing).2 hk
  frames f fr hf := h.frames_modify links sound hf

end Modify

/-! ## Pins -/

theorem persists_pin : a.Persists (a.pin id) := persists_of_keeps retains_pin.keeps

theorem Coherent.pin (h : a.Coherent Q R calls) : (a.pin id).Coherent Q R calls where
  tidy := h.tidy.pin id
  balanced := h.balanced.pin
  distinct := h.distinct
  running d hd := by
    have hr := h.running d hd
    refine ⟨active_pin.2 hr.active, fun fr hf => ?_, fun fr hf => ?_⟩
    · exact hr.code fr (get?_pin ▸ hf)
    · exact hr.returned fr (get?_pin ▸ hf)
  active f ha := h.active f (active_pin.1 ha)
  operands d hd v hv := (h.operands d hd v hv).persist persists_pin
  matters f fr hf := (h.matters f fr (get?_pin ▸ hf)).imp_right fun hk => (retains_pin.keeps hk).1
  frames f fr hf := by
    rw [get?_pin] at hf
    obtain ⟨sound, anchored⟩ := h.frames f fr hf
    exact ⟨sound.imp fun _ hv => hv.persist persists_pin,
      anchored.persist persists_pin (lasts_of_get? get?_pin)⟩

/-! ## New calls -/

theorem Created.persists {fr : Frame Value} (h : a.Created b id fr) : a.Persists b :=
  persists_of_keeps h.retains.keeps

/-- **A new call** whose frame is that of a method, or of a closure whose frame is kept and whose
code is nested in that of its home. -/
theorem Coherent.push {fr : Frame Value} (h : a.Coherent Q R calls) (made : a.Created b id fr)
    (returned : fr.returned = false) (sound : a.SoundFrame Q R fr)
    (belongs : fr.enclosing = none ∧ fr.home = id
      ∨ ∃ e, fr.enclosing = some e ∧ a.Keeps e ∧ a.Anchored e fr.home ∧ a.Nests fr.home fr.code) :
    b.Coherent Q R ({ frame := id, code := fr.code } :: calls) := by
  have older {d : Call} (hd : d ∈ calls) : b.get? d.frame = a.get? d.frame :=
    (made.retains.active (h.running d hd).active).2
  refine ⟨made.tidy, made.balanced, ?_, ?_, fun f ha => ?_, ?_,
    fun f fr' hf => ?_, ?_⟩
  · rw [List.map_cons, List.nodup_cons]
    refine ⟨fun hmem => ?_, h.distinct⟩
    obtain ⟨d, hd, he⟩ := List.mem_map.1 hmem
    have he : d.frame = id := he
    exact made.fresh.2 (he ▸ (h.running d hd).active)
  · intro d hd
    rcases List.mem_cons.1 hd with rfl | hd
    · refine ⟨made.active, fun fr' hf => ?_, fun fr' hf => ?_⟩ <;>
      · cases made.get?.symm.trans hf
        first | rfl | exact returned
    · have hr := h.running d hd
      exact ⟨(made.retains.active hr.active).1, fun fr' hf => hr.code fr' (older hd ▸ hf),
        fun fr' hf => hr.returned fr' (older hd ▸ hf)⟩
  · rcases made.active_of_active ha with rfl | ha
    · exact List.mem_cons_self
    · exact List.mem_cons_of_mem _ (h.active f ha)
  · intro d hd v hv
    rcases List.mem_cons.1 hd with rfl | hd
    · simp at hv
    · exact (h.operands d hd v hv).persist made.persists
  · rcases made.before hf with rfl | hf
    · exact .inl List.mem_cons_self
    · exact (h.matters f fr' hf).imp (List.mem_cons_of_mem _) fun hk => (made.retains.keeps hk).1
  · intro f fr' hf
    by_cases he : f = id
    · subst he
      cases made.get?.symm.trans hf
      refine ⟨sound.imp fun _ hv => hv.persist made.persists, ?_⟩
      rcases belongs with ⟨outermost, own⟩ | ⟨e, inside, kept, anchored, nested⟩
      · rw [own]
        exact .method made.get? outermost own
      · exact .block made.get? inside rfl (made.persists.keeps kept)
          (anchored.persist made.persists (made.persists.lasts kept))
          (nested.persist (made.persists.lasts (anchored.keeps_home kept)))
    · have hfa := (made.before hf).resolve_left he
      obtain ⟨hsound, anchored⟩ := h.frames f fr' hfa
      exact ⟨hsound.imp fun _ hv => hv.persist made.persists,
        anchored.persist made.persists (lasts_of_get? (hf.trans hfa.symm))⟩

/-! ## Calls that are over -/

theorem modify_modify {g g' : Frame Value → Frame Value} :
    (a.modify id g).modify id g' = a.modify id (g' ∘ g) := by
  cases hs : a.slotOf? id with
  | none =>
    have : a.modify id g = a := modifySlot_of_none hs
    rw [this, Arena.modify, Arena.modify, modifySlot_of_none hs, modifySlot_of_none hs]
  | some s =>
    have hs' : (a.modify id g).slotOf? id = some { s with frame := s.frame.map g } := by
      rw [slotOf?_modify, if_pos rfl, hs]
      rfl
    rw [Arena.modify, modifySlot_of_slotOf? hs', Arena.modify, Arena.modify,
      modifySlot_of_slotOf? hs, modifySlot_of_slotOf? hs]
    simp [Array.setIfInBounds_setIfInBounds]

theorem Released.persists (h : a.Released b id) : a.Persists b := persists_of_keeps h.keeps

theorem Persists.trans {d : Arena Value} (hab : a.Persists b) (hbd : b.Persists d) :
    a.Persists d where
  keeps hk := hbd.keeps (hab.keeps hk)
  lasts hk fr hf := by
    obtain ⟨fr', hf', same⟩ := hab.lasts hk fr hf
    obtain ⟨fr'', hf'', same'⟩ := hbd.lasts (hab.keeps hk) fr' hf'
    exact ⟨fr'', hf'', ⟨same'.code.trans same.code, same'.receiver.trans same.receiver,
      same'.invoking.trans same.invoking, same'.enclosing.trans same.enclosing,
      same'.home.trans same.home⟩⟩

/-- **The innermost call gives its frame up**, with some last change to the frame. -/
theorem Coherent.pop {g : Frame Value → Frame Value} (h : a.Coherent Q R (c :: rest))
    (links : ∀ fr : Frame Value, fr.SameLinks (g fr))
    (sound : ∀ fr, a.get? c.frame = some fr → a.SoundFrame Q R fr → a.SoundFrame Q R (g fr)) :
    ((a.modify c.frame g).release c.frame).Coherent Q R rest
      ∧ a.Persists ((a.modify c.frame g).release c.frame) := by
  have henc : ∀ fr, (g fr).enclosing = fr.enclosing := fun fr => (links fr).enclosing
  have rel := released_release (h.tidy.modify c.frame g) (h.balanced.modify henc) c.frame
  generalize (a.modify c.frame g).release c.frame = b at rel
  have persist : a.Persists b := (persists_modify links).trans rel.persists
  obtain ⟨habsent, distinct⟩ := List.nodup_cons.1 h.distinct
  have hne {d : Call} (hd : d ∈ rest) : d.frame ≠ c.frame := fun he =>
    habsent (List.mem_map.2 ⟨d, hd, he⟩)
  have older {d : Call} (hd : d ∈ rest) : b.Active d.frame ∧
      b.get? d.frame = (a.modify c.frame g).get? d.frame :=
    rel.active (hne hd) (active_modify.2 (h.running d (List.mem_cons_of_mem c hd)).active)
  have unchanged {d : Call} (hd : d ∈ rest) : b.get? d.frame = a.get? d.frame := by
    rw [(older hd).2, get?_modify, if_neg (hne hd)]
  refine ⟨⟨rel.tidy, rel.balanced, distinct, fun d hd => ?_, fun f ha => ?_, fun d hd v hv => ?_,
    fun f fr hf => ?_, fun f fr hf => ?_⟩, persist⟩
  · have hr := h.running d (List.mem_cons_of_mem c hd)
    exact ⟨(older hd).1, fun fr hf => hr.code fr (unchanged hd ▸ hf),
      fun fr hf => hr.returned fr (unchanged hd ▸ hf)⟩
  · obtain ⟨hother, ha⟩ := rel.active_of_active ha
    exact (List.mem_cons.1 (h.active f (active_modify.1 ha))).resolve_left hother
  · exact (h.operands d (List.mem_cons_of_mem c hd) v hv).persist persist
  · obtain ⟨old, hold⟩ := get?_of_modify (rel.before hf)
    have keeps (hk : a.Keeps f) : b.Keeps f := persist.keeps hk
    rcases h.matters f old hold with hm | hk
    · rcases List.mem_cons.1 hm with rfl | hm
      · -- a frame that stays has pins; those of frames inside it come with closures that keep it
        refine .inr (keeps (Classical.byContradiction fun hn => ?_))
        have pinned : 0 < a.pinCount c.frame := pinCount_modify ▸ rel.pinned hf
        obtain ⟨x, fx, hx, hin⟩ := exists_of_tally_pos
          (Nat.lt_of_lt_of_le pinned (Nat.le_of_not_lt hn))
        exact hn ((h.frames x fx hx).2.keeps_enclosing hx (by simpa using hin))
      · exact .inl hm
    · exact .inr (keeps hk)
  · obtain ⟨hsound, anchored⟩ := h.frames_modify links sound (rel.before hf)
    exact ⟨hsound.imp fun _ hv => hv.persist rel.persists,
      anchored.persist rel.persists (lasts_of_get? (hf.trans (rel.before hf).symm))⟩

end Arena

/-! ## Memory -/

namespace Memory

variable {image : Image} {m m' : Memory} {calls calls' rest : List Call} {c c' : Call}
  {host host' : List Value}

theorem Coherent.mono (hQ : ∀ c, m.frames.Secures Q c → Q' c)
    (h : m.Coherent image Q R calls host) : m.Coherent image Q' R calls host where
  arena := h.arena.mono hQ fun _ => id
  store r hr := ⟨(h.store r hr).1, fun v hv => ((h.store r hr).2 v hv).mono hQ fun _ => id⟩
  host v hv := (h.host v hv).mono hQ fun _ => id
  transcript := h.transcript.mono hQ fun _ => id

/-- The frames change, and the calls with them; the store does not. -/
theorem Coherent.reframe (h : m.Coherent image Q R calls host)
    (arena : m'.frames.Coherent Q R calls') (persists : m.frames.Persists m'.frames)
    (store : m'.store = m.store) : m'.Coherent image Q R calls' host where
  arena := arena
  store r hr := by
    rw [store]
    exact ⟨(h.store r hr).1, fun v hv => ((h.store r hr).2 v hv).persist persists⟩
  host v hv := (h.host v hv).persist persists
  transcript := h.transcript.persist persists

/-- What is not frames or rows does not matter. -/
theorem Coherent.congr (h : m.Coherent image Q R calls host) (frames : m'.frames = m.frames)
    (store : m'.store = m.store) : m'.Coherent image Q R calls host where
  arena := frames ▸ h.arena
  store := frames ▸ store ▸ h.store
  host := frames ▸ h.host
  transcript := frames ▸ h.transcript

/-- The innermost call goes on elsewhere, and the host holds other values. -/
theorem Coherent.restack (h : m.Coherent image Q R (c :: rest) host) (frame : c'.frame = c.frame)
    (code : c'.code = c.code) (stack : ∀ v ∈ c'.stack, m.frames.Sound Q R v)
    (held : ∀ v ∈ host', m.frames.Sound Q R v) : m.Coherent image Q R (c' :: rest) host' :=
  { h with arena := h.arena.restack frame code stack, host := held }

/-- The host holds other values. -/
theorem Coherent.hold (h : m.Coherent image Q R calls host)
    (held : ∀ v ∈ host', m.frames.Sound Q R v) : m.Coherent image Q R calls host' :=
  { h with host := held }

theorem Coherent.stack_sound (h : m.Coherent image Q R (c :: rest) host) :
    ∀ v ∈ c.stack, m.frames.Sound Q R v := h.arena.operands c List.mem_cons_self

/-- The innermost call takes over a value from the host. -/
theorem Coherent.receive {v : Value} {stack : List Value}
    (h : m.Coherent image Q R (c :: rest) (v :: host)) (sub : stack ⊆ c.stack) :
    m.Coherent image Q R ({ c with stack := v :: stack } :: rest) host :=
  h.restack rfl rfl
    (List.forall_mem_cons.2 ⟨h.host v List.mem_cons_self, fun w hw => h.stack_sound w (sub hw)⟩)
    fun w hw => h.host w (List.mem_cons_of_mem v hw)

end Memory

end Colloquy
