import Colloquy.Proofs.Calling

/-!
# Frames that are pinned by closures

Every closure that has not been dropped holds one pin on the frame that made it, and every frame of
a block holds one on the frame around it.  Frames are recycled by these pins alone: a frame goes
when its call is over and its last pin has been let go.  So what keeps the frames of a machine is
the calls in progress and the closures (`Upkeep`).

Main statements: whatever a move does to frames, calls and closures (`Upkeep.Change`), and whenever
a closure is dropped or the queue is worked off, every frame that is there finds its home, and so
does every closure (`Upkeep.Proper.change`, `Upkeep.Proper.drop`, `Upkeep.Proper.collect`).
-/

namespace Colloquy

namespace Arena

variable {a b : Arena Value} {f home : FrameId} {out : List FrameId}

/-! ## Homes that are still found -/

/-- The frame around a frame is pinned by it, so it is there. -/
theorem Accounts.exists_enclosing (h : b.Accounts out []) {fr : Frame Value} {e : FrameId}
    (here : b.get? f = some fr) (inside : fr.enclosing = some e) : ∃ er, b.get? e = some er := by
  have pinned : e ∈ fr.pins := by simp [inside]
  obtain ⟨s, hs⟩ := h.exists_slot (.inr (gripped_pos here pinned))
  obtain ⟨er, -, her⟩ := exists_frame_of_slotOf? hs
  exact ⟨er, her⟩

/-- A frame that is still there has its home, if no frame that is still there belongs elsewhere. -/
theorem Belongs.keep (h : a.Belongs f home) (accounts : b.Accounts out [])
    (agree : ∀ {f fr fr'}, a.get? f = some fr → b.get? f = some fr' → fr.SameLinks fr')
    {fr' : Frame Value} (there : b.get? f = some fr') : b.Belongs f home := by
  induction h generalizing fr' with
  | method here outermost own =>
    have links := agree here there
    exact .method there (links.enclosing.trans outermost) (links.home.trans own)
  | block here inside home _ ih =>
    have links := agree here there
    have inside := links.enclosing.trans inside
    obtain ⟨er, her⟩ := accounts.exists_enclosing there inside
    exact .block there inside (links.home.trans home) (ih her)

/-- The home is there. -/
theorem Belongs.exists_home (h : a.Belongs f home) : ∃ fr, a.get? home = some fr := by
  induction h with
  | method here => exact ⟨_, here⟩
  | block _ _ _ _ ih => exact ih

theorem recalls_of_sheds (h : a.Sheds b) (f : FrameId) : a.Recalls b f := fun fr hf =>
  ⟨fr, h.get? hf, .refl fr⟩

theorem Recalls.trans {c : Arena Value} (h : a.Recalls b f) (h' : b.Recalls c f) :
    a.Recalls c f := fun fr hf => by
  obtain ⟨fr₁, hf₁, links₁⟩ := h' fr hf
  obtain ⟨fr₀, hf₀, links₀⟩ := h fr₁ hf₁
  exact ⟨fr₀, hf₀, links₀.trans links₁⟩

/-- Changing what is in a frame moves no pin. -/
theorem Orderly.modify (h : a.Orderly out) (id : FrameId) {g : Frame Value → Frame Value}
    (links : ∀ fr : Frame Value, fr.SameLinks (g fr)) : (a.modify id g).Orderly out := by
  refine ⟨h.tidy.modify id g, h.queued.modify id g, fun f => ?_,
    h.counted.modifySlot id (steady_frame g)⟩
  have same : (a.modify id g).gripped f = a.gripped f := by
    refine weigh_modifySlot fun s => ?_
    cases s.frame with
    | none => rfl
    | some fr => simp [(links fr).enclosing]
  rw [same, pinCount_modify]
  exact h.accounts f

/-! ## Calls that are over -/

/-- The calls with the given frames are over, one after another. -/
inductive Pops : Arena Value → List FrameId → Arena Value → Prop
  | nil {a : Arena Value} : Pops a [] a
  | cons {a b : Arena Value} {f : FrameId} {fs : List FrameId} {g : Frame Value → Frame Value}
      (links : ∀ fr : Frame Value, fr.SameLinks (g fr))
      (rest : Pops ((a.modify f g).release f) fs b) : Pops a (f :: fs) b

theorem Pops.recalls {fs : List FrameId} (h : a.Pops fs b) (f : FrameId) : a.Recalls b f := by
  induction h with
  | nil => exact recalls_of_eq rfl
  | @cons a b k fs g links _ ih =>
    have changed : a.Recalls (a.modify k g) f := recalls_modify links
    have released : (a.modify k g).Recalls ((a.modify k g).release k) f := fun fr hf =>
      ⟨fr, get?_of_release hf, .refl fr⟩
    exact (changed.trans released).trans ih

theorem Pops.orderly {fs : List FrameId} (h : a.Pops fs b) (ha : a.Orderly out) :
    b.Orderly out := by
  induction h with
  | nil => exact ha
  | @cons a b f fs g links _ ih => exact ih ((ha.modify f links).release f)

theorem Pops.active_iff {fs rest : List FrameId} (h : a.Pops fs b)
    (active : ∀ f, a.Active f ↔ f ∈ fs ++ rest) (distinct : (fs ++ rest).Nodup) :
    b.Active f ↔ f ∈ rest := by
  induction h with
  | nil => exact active f
  | @cons a b f fs g links _ ih =>
    obtain ⟨away, distinct⟩ := List.nodup_cons.1 distinct
    refine ih (fun k => ?_) distinct
    rw [(Sheds.release _ f).active_iff, active_pop, active_modify, active, List.cons_append,
      List.mem_cons]
    exact ⟨fun ⟨other, mem⟩ => mem.resolve_left other,
      fun mem => ⟨fun same => away (same ▸ mem), .inr mem⟩⟩

end Arena

/-! ## Frames and what keeps them -/

/-- Frames, and what keeps them: the calls in progress, innermost first, each with the code that it
runs, and the closures that have been made and not dropped. -/
structure Upkeep where
  frames : Arena Value
  calls : List (FrameId × Code) := []
  closures : List (Closure Value) := []

/-- A closure that is entered has not been dropped. -/
def Callee.Held (closures : List (Closure Value)) : Callee → Prop
  | .method _ _ _ => True
  | .block c _ => c ∈ closures

namespace Upkeep

variable {u u' : Upkeep}

/-- A call begins, in a new frame. -/
def enter (u : Upkeep) (callee : Callee) (invoking : Option FrameId) : Upkeep :=
  let made := u.frames.alloc (callee.frame invoking)
  { u with frames := made.1, calls := (made.2, callee.code) :: u.calls }

/-- The closure is dropped, and its pin is let go. -/
def drop (u : Upkeep) (c : Closure Value) (rest : List (Closure Value)) : Upkeep :=
  { u with frames := u.frames.unpin c.enclosing, closures := rest }

/-- The queue is worked off. -/
def collect (u : Upkeep) : Upkeep := { u with frames := u.frames.collect }

/-- What a move does to frames, calls and closures. -/
inductive Change : Upkeep → Upkeep → Prop
  | same {u : Upkeep} : Change u u
  /-- The contents of one frame have changed. -/
  | write {u : Upkeep} (id : FrameId) {g : Frame Value → Frame Value}
      (links : ∀ fr : Frame Value, fr.SameLinks (g fr)) :
      Change u { u with frames := u.frames.modify id g }
  /-- A frame makes a closure, which pins the frame. -/
  | close {u : Upkeep} {c : Closure Value} {fr : Frame Value}
      (here : u.frames.get? c.enclosing = some fr) (home : fr.home = c.home) :
      Change u { u with frames := u.frames.pin c.enclosing, closures := c :: u.closures }
  | enter {u : Upkeep} {callee : Callee} (invoking : Option FrameId)
      (held : callee.Held u.closures) : Change u (u.enter callee invoking)
  | leave {u : Upkeep} {past outer : List (FrameId × Code)} {b : Arena Value}
      (split : u.calls = past ++ outer) (pops : u.frames.Pops (past.map Prod.fst) b) :
      Change u { u with frames := b, calls := outer }

/-- When a closure is made, no call begins or ends. -/
theorem Change.calls_eq (h : Change u u') {c : Closure Value}
    (made : u'.closures = c :: u.closures) : u'.calls = u.calls := by
  cases h with
  | close => rfl
  | same | write | enter | leave => exact absurd made.symm (List.cons_ne_self _ _)

/-- Every pin is that of a closure or of a frame around which a frame is; the frames that have not
been popped are those of the calls in progress; and whatever is there finds its home. -/
structure Proper (u : Upkeep) : Prop where
  orderly : u.frames.Orderly (u.closures.map (·.enclosing))
  active : ∀ f, u.frames.Active f ↔ f ∈ u.calls.map Prod.fst
  distinct : (u.calls.map Prod.fst).Nodup
  code : ∀ p ∈ u.calls, ∃ fr, u.frames.get? p.1 = some fr ∧ fr.code = p.2
  home : ∀ c ∈ u.closures, ∃ fr, u.frames.get? c.enclosing = some fr ∧ fr.home = c.home
  belongs : ∀ f fr, u.frames.get? f = some fr → u.frames.Belongs f fr.home

namespace Proper

theorem empty (birth : UInt32) : ({ frames := { birth } } : Upkeep).Proper where
  orderly := .empty birth
  active f := by simp [Arena.Active, Arena.slotOf?]
  distinct := List.nodup_nil
  code := List.forall_mem_nil _
  home := List.forall_mem_nil _
  belongs f fr here := by cases here

/-- **Frames have gone or changed at most in contents,** and calls are over: what is left finds its
home, since it is pinned by what it belongs to. -/
theorem recede (h : u.Proper) {b : Arena Value} {calls : List (FrameId × Code)}
    {closures : List (Closure Value)} (orderly : b.Orderly (closures.map (·.enclosing)))
    (recalls : ∀ f, u.frames.Recalls b f) (active : ∀ f, b.Active f ↔ f ∈ calls.map Prod.fst)
    (fewer : calls.Sublist u.calls)
    (home : ∀ c ∈ closures, ∃ fr, u.frames.get? c.enclosing = some fr ∧ fr.home = c.home) :
    Proper ⟨b, calls, closures⟩ where
  orderly := orderly
  active := active
  distinct := h.distinct.sublist (fewer.map _)
  code p hp := by
    obtain ⟨fr', there⟩ := ((active p.1).2 (List.mem_map_of_mem hp)).exists_frame
    obtain ⟨fr, here, links⟩ := recalls p.1 fr' there
    obtain ⟨old, here', code⟩ := h.code p (fewer.subset hp)
    cases here.symm.trans here'
    exact ⟨fr', there, links.code.trans code⟩
  home c hc := by
    obtain ⟨s, hs⟩ := orderly.accounts.exists_slot (.inl (List.mem_map_of_mem hc))
    obtain ⟨fr', -, there⟩ := Arena.exists_frame_of_slotOf? hs
    obtain ⟨fr, here, links⟩ := recalls c.enclosing fr' there
    obtain ⟨old, here', home⟩ := home c hc
    cases here.symm.trans here'
    exact ⟨fr', there, links.home.trans home⟩
  belongs f fr' there := by
    obtain ⟨fr, here, links⟩ := recalls f fr' there
    rw [links.home]
    refine (h.belongs f fr here).keep orderly.accounts (fun {k gr gr'} before after => ?_) there
    obtain ⟨old, before', links⟩ := recalls k gr' after
    cases before.symm.trans before'
    exact links

theorem collect (h : u.Proper) : u.collect.Proper :=
  have sheds := Arena.Sheds.collect u.frames
  h.recede h.orderly.collect (Arena.recalls_of_sheds sheds)
    (fun f => sheds.active_iff.trans (h.active f)) (.refl _) h.home

/-- **A closure that is dropped** takes nothing with it that another one needs. -/
theorem drop (h : u.Proper) {c : Closure Value} {rest : List (Closure Value)}
    (held : u.closures.Perm (c :: rest)) : (u.drop c rest).Proper := by
  have sheds := Arena.Sheds.unpin u.frames c.enclosing
  have pins : (u.closures.map (·.enclosing)).Perm ([c.enclosing] ++ rest.map (·.enclosing)) :=
    held.map _
  exact h.recede (h.orderly.perm pins).unpinAll (Arena.recalls_of_sheds sheds)
    (fun f => sheds.active_iff.trans (h.active f)) (.refl _)
    fun c hc => h.home c (held.mem_iff.2 (List.mem_cons_of_mem _ hc))

/-- The home of a closure is there. -/
theorem exists_home (h : u.Proper) {c : Closure Value} (hc : c ∈ u.closures) :
    ∃ fr, u.frames.get? c.home = some fr := by
  obtain ⟨fr, here, home⟩ := h.home c hc
  exact (home ▸ h.belongs c.enclosing fr here).exists_home

/-- The pins of a new frame are those of the closure that it is for. -/
theorem mem_of_pins {callee : Callee} {closures : List (Closure Value)}
    (held : callee.Held closures) (invoking : Option FrameId) (id : FrameId) :
    ∀ p ∈ (callee.frame invoking id).pins, p ∈ closures.map (·.enclosing) := by
  intro p hp
  cases callee with
  | method code receiver args =>
    rw [Frame.pins_eq] at hp
    cases hp
  | block c args =>
    rw [Frame.pins_eq] at hp
    cases List.mem_singleton.1 hp
    exact List.mem_map_of_mem held

/-- A new frame finds its home, and takes the place of none that a closure names. -/
theorem enter (h : u.Proper) {callee : Callee} (invoking : Option FrameId)
    (held : callee.Held u.closures) :
    (u.enter callee invoking).Proper
      ∧ ∀ c ∈ u.closures, c.enclosing ≠ (u.frames.alloc (callee.frame invoking)).2
        ∧ c.home ≠ (u.frames.alloc (callee.frame invoking)).2 := by
  have orderly : (u.frames.alloc (callee.frame invoking)).1.Orderly _ :=
    h.orderly.alloc (mem_of_pins held invoking)
  obtain ⟨id, base, eq, lodged⟩ := Arena.exists_lodged h.orderly.tidy (callee.frame invoking)
  have before := h.collect
  have pinned := Arena.Sheds.pinAll base (callee.frame invoking id).pins
  rw [eq] at orderly
  simp only [Upkeep.enter, eq]
  -- the handle named nothing when the queue had been worked off
  have fresh {f : FrameId} {fr : Frame Value} (here : u.frames.collect.get? f = some fr) :
      f ≠ id := fun same => by
    rw [same, Arena.get?_eq, lodged.fresh] at here
    cases here
  have get? (f : FrameId) : ((callee.frame invoking id).pins.foldl Arena.pin base).get? f
      = if f = id then some (callee.frame invoking id) else u.frames.collect.get? f := by
    rw [Arena.get?_pinAll, lodged.get?]
  have others {f : FrameId} {fr : Frame Value} (here : u.frames.collect.get? f = some fr) :
      ((callee.frame invoking id).pins.foldl Arena.pin base).get? f = some fr := by
    rw [get?, if_neg (fresh here), here]
  have keep {f home : FrameId} {fr : Frame Value} (here : u.frames.collect.get? f = some fr)
      (belongs : u.frames.collect.Belongs f home) :
      ((callee.frame invoking id).pins.foldl Arena.pin base).Belongs f home := by
    refine belongs.keep orderly.accounts (fun {k gr gr'} before after => ?_) (others here)
    cases (others before).symm.trans after
    exact .refl gr
  refine ⟨⟨orderly, fun f => ?_, ?_, ?_, fun c hc => ?_, fun f fr here => ?_⟩, fun c hc => ?_⟩
  · rw [pinned.active_iff, lodged.active_iff, List.map_cons, List.mem_cons]
    exact or_congr Iff.rfl (before.active f)
  · refine List.nodup_cons.2 ⟨fun mem => ?_, h.distinct⟩
    obtain ⟨fr, here⟩ := ((before.active id).2 mem).exists_frame
    exact fresh here rfl
  · refine List.forall_mem_cons.2 ⟨?_, fun p hp => ?_⟩
    · exact ⟨_, by rw [get?, if_pos rfl], by cases callee <;> rfl⟩
    · obtain ⟨fr, here, code⟩ := before.code p hp
      exact ⟨fr, others here, code⟩
  · obtain ⟨fr, here, home⟩ := before.home c hc
    exact ⟨fr, others here, home⟩
  · rw [get?] at here
    split at here
    · subst f
      cases here
      have made := (get? id).trans (if_pos rfl)
      cases callee with
      | method code receiver args => exact .method made rfl rfl
      | block c args =>
        obtain ⟨er, around, home⟩ := before.home c held
        have outer := before.belongs c.enclosing er around
        rw [home] at outer
        exact .block made rfl rfl (keep around outer)
    · exact keep here (before.belongs f fr here)
  · obtain ⟨fr, here, home⟩ := before.home c hc
    obtain ⟨hr, there⟩ := before.exists_home hc
    exact ⟨fresh here, fresh there⟩

/-- **Every change leaves everything with its home.** -/
theorem change (h : u.Proper) (hc : Change u u') : u'.Proper := by
  cases hc with
  | same => exact h
  | write id links =>
    exact h.recede (h.orderly.modify id links) (fun f => Arena.recalls_modify links)
      (fun f => Arena.active_modify.trans (h.active f)) (.refl _) h.home
  | @close c fr here home =>
    have there : ∀ id ∈ [c.enclosing], ∃ s, u.frames.slotOf? id = some s := by
      refine List.forall_mem_singleton.2 ?_
      obtain ⟨s, hs, -⟩ := Arena.get?_eq_some_iff.1 here
      exact ⟨s, hs⟩
    exact h.recede (h.orderly.pinAll there) (fun f => Arena.recalls_pin)
      (fun f => Arena.active_pin.trans (h.active f)) (.refl _)
      (List.forall_mem_cons.2 ⟨⟨fr, here, home⟩, h.home⟩)
  | enter invoking held => exact (h.enter invoking held).1
  | @leave past outer b split pops =>
    have all : u.calls.map Prod.fst = past.map Prod.fst ++ outer.map Prod.fst := by
      rw [split, List.map_append]
    refine h.recede (pops.orderly h.orderly) pops.recalls (fun f => ?_) ?_ h.home
    · exact pops.active_iff (all ▸ h.active) (all ▸ h.distinct)
    · rw [split]
      exact List.sublist_append_right past outer

/-- The frame of a new call is none that a closure names. -/
theorem fresh (h : u.Proper) (hc : Change u u') (longer : u.calls.length < u'.calls.length) :
    ∀ p ∈ u'.calls.head?, ∀ c ∈ u.closures, c.enclosing ≠ p.1 ∧ c.home ≠ p.1 := by
  cases hc with
  | same | write | close => exact absurd longer (Nat.lt_irrefl _)
  | enter invoking held =>
    intro p hp
    cases hp
    exact (h.enter invoking held).2
  | @leave past outer b split pops =>
    rw [split, List.length_append] at longer
    exact absurd longer (Nat.not_lt.2 (Nat.le_add_left _ _))

end Proper

end Upkeep

end Colloquy
