import Colloquy.Machine.Host
import Colloquy.Proofs.Arena.Keeping

/-!
# Coherent states

A frame *belongs* to a method frame if following the enclosing frames from it ends there
(`Arena.Belongs`).  A state is coherent if every value that code or the host can get hold of is
*sound*: the frame that a closure names is kept by the closure, belongs to the closure's home, and
so does every frame on the way.  The rows of the store that are reachable are collected in a set
`R`, and whatever else is to be known of closures in a predicate `Q`, so that one proof of
preservation serves for every such property.  The code of a closure, and that of a block's frame, is
one of the blocks nested in the method of its home (`Arena.Nests`).
-/

namespace Colloquy

/-! ## What a value refers to -/

/-- Every closure in a value, receivers of closures included, has property `P`, and every row that
the value names has property `R`. -/
def Value.Each (P : Closure Value → Prop) (R : Ref → Prop) : Value → Prop
  | .array r | .object _ r => R r
  | .block ⟨serial, code, enclosing, home, receiver⟩ =>
    P ⟨serial, code, enclosing, home, receiver⟩ ∧ receiver.Each P R
  | _ => True

theorem Value.Each.mono {P P' : Closure Value → Prop} {R R' : Ref → Prop}
    (hP : ∀ c, P c → P' c) (hR : ∀ r, R r → R' r) : ∀ {v : Value}, v.Each P R → v.Each P' R'
  | .array r, h => hR r h
  | .object _ r, h => hR r h
  | .block ⟨_, _, _, _, receiver⟩, h => ⟨hP _ h.1, mono (v := receiver) hP hR h.2⟩
  | .nil, _ | .bool _, _ | .int _, _ | .float _, _ | .char _, _ | .string _ _, _ | .cls _, _ =>
    trivial

theorem Value.each_block {P : Closure Value → Prop} {R : Ref → Prop} {c : Closure Value} :
    (Value.block c).Each P R ↔ P c ∧ c.receiver.Each P R := by
  cases c
  rfl

namespace Arena

/-- Following the enclosing frames from `f` visits only frames that are there, all of the same
home, and ends at that home, a method frame. -/
inductive Belongs (a : Arena Value) : FrameId → FrameId → Prop where
  | method {f : FrameId} {fr : Frame Value} (here : a.get? f = some fr)
      (outermost : fr.enclosing = none) (own : fr.home = f) : Belongs a f f
  | block {f e h : FrameId} {fr : Frame Value} (here : a.get? f = some fr)
      (inside : fr.enclosing = some e) (home : fr.home = h) (outer : Belongs a e h) :
      Belongs a f h

/-- The code is that of a block nested in the code of the frame. -/
def Nests (a : Arena Value) (h : FrameId) (code : Code) : Prop :=
  ∃ fr index, a.get? h = some fr ∧ fr.code.nested? index = some code

/-- The frame belongs to a method frame whose code its own is nested in, and every frame around it
is kept. -/
inductive Anchored (a : Arena Value) : FrameId → FrameId → Prop where
  | method {f : FrameId} {fr : Frame Value} (here : a.get? f = some fr)
      (outermost : fr.enclosing = none) (own : fr.home = f) : Anchored a f f
  | block {f e h : FrameId} {fr : Frame Value} (here : a.get? f = some fr)
      (inside : fr.enclosing = some e) (home : fr.home = h) (kept : a.Keeps e)
      (outer : Anchored a e h) (nested : a.Nests h fr.code) : Anchored a f h

variable {a b : Arena Value} {f h : FrameId} {Q Q' : Closure Value → Prop} {R R' : Ref → Prop}

theorem Anchored.belongs (hf : a.Anchored f h) : a.Belongs f h := by
  induction hf with
  | method here outermost own => exact .method here outermost own
  | block here inside home _ _ _ ih => exact .block here inside home ih

/-- The home of a kept frame is kept. -/
theorem Anchored.keeps_home (hf : a.Anchored f h) (hk : a.Keeps f) : a.Keeps h := by
  induction hf with
  | method => exact hk
  | block _ _ _ kept _ _ ih => exact ih kept

/-- The frame around an anchored one is kept. -/
theorem Anchored.keeps_enclosing (hf : a.Anchored f h) {fr : Frame Value} {e : FrameId}
    (here : a.get? f = some fr) (inside : fr.enclosing = some e) : a.Keeps e := by
  cases hf with
  | method here' outermost =>
    rw [here, Option.some.injEq] at here'
    rw [← here', inside] at outermost
    simp at outermost
  | block here' inside' _ kept =>
    rw [here, Option.some.injEq] at here'
    rw [← here', inside, Option.some.injEq] at inside'
    exact inside' ▸ kept

/-- The home is a method frame and its own home. -/
theorem Anchored.anchored_home (hf : a.Anchored f h) :
    ∃ fr, a.get? h = some fr ∧ fr.enclosing = none ∧ fr.home = h := by
  induction hf with
  | method here outermost own => exact ⟨_, here, outermost, own⟩
  | block _ _ _ _ _ _ ih => exact ih

/-! ## What survives a change of the arena -/

/-- The frame that a handle names is of the same activation in both arenas. -/
def Lasts (a b : Arena Value) (f : FrameId) : Prop :=
  ∀ fr, a.get? f = some fr → ∃ fr', b.get? f = some fr' ∧ fr.SameLinks fr'

/-- Everything that a closure keeps in `a` is kept in `b`, and is of the same activation. -/
structure Persists (a b : Arena Value) : Prop where
  keeps : ∀ {f}, a.Keeps f → b.Keeps f
  lasts : ∀ {f}, a.Keeps f → a.Lasts b f

theorem lasts_of_get? (h : b.get? f = a.get? f) : a.Lasts b f := fun fr hf =>
  ⟨fr, h.trans hf, .refl fr⟩

theorem persists_of_keeps (h : ∀ {f}, a.Keeps f → b.Keeps f ∧ b.get? f = a.get? f) :
    a.Persists b :=
  ⟨fun hk => (h hk).1, fun hk => lasts_of_get? (h hk).2⟩

theorem Nests.persist {code : Code} (hn : a.Nests h code) (hh : a.Lasts b h) : b.Nests h code := by
  obtain ⟨fr, index, here, nested⟩ := hn
  obtain ⟨fr', here', same⟩ := hh fr here
  exact ⟨fr', index, here', same.code.symm ▸ nested⟩

theorem Anchored.persist (hp : a.Persists b) (ha : a.Anchored f h) (hf : a.Lasts b f) :
    b.Anchored f h := by
  induction ha with
  | method here outermost own =>
    obtain ⟨fr', hfr', same⟩ := hf _ here
    exact .method hfr' (same.enclosing.trans outermost) (same.home.trans own)
  | block here inside home kept outer nested ih =>
    obtain ⟨fr', hfr', same⟩ := hf _ here
    have lasting := nested.persist (hp.lasts (outer.keeps_home kept))
    exact .block hfr' (same.enclosing.trans inside) (same.home.trans home) (hp.keeps kept)
      (ih (hp.lasts kept)) (same.code.symm ▸ lasting)

/-! ## Sound values and frames -/

/-- What makes a closure sound. -/
structure Secures (a : Arena Value) (Q : Closure Value → Prop) (c : Closure Value) : Prop where
  keeps : a.Keeps c.enclosing
  anchored : a.Anchored c.enclosing c.home
  nested : a.Nests c.home c.code
  also : Q c

/-- The value's closures find their frames, and its rows are among `R`. -/
def Sound (a : Arena Value) (Q : Closure Value → Prop) (R : Ref → Prop) (v : Value) : Prop :=
  v.Each (a.Secures Q) R

theorem Sound.mono (hQ : ∀ c, a.Secures Q c → Q' c) (hR : ∀ r, R r → R' r) {v : Value}
    (h : a.Sound Q R v) : a.Sound Q' R' v :=
  Value.Each.mono (fun c hc => ⟨hc.keeps, hc.anchored, hc.nested, hQ c hc⟩) hR h

theorem Sound.persist (hp : a.Persists b) {v : Value} (h : a.Sound Q R v) : b.Sound Q R v :=
  Value.Each.mono (fun _ hc => ⟨hp.keeps hc.keeps, hc.anchored.persist hp (hp.lasts hc.keeps),
    hc.nested.persist (hp.lasts (hc.anchored.keeps_home hc.keeps)), hc.also⟩) (fun _ hr => hr) h

/-- Everything that a frame holds is sound. -/
structure SoundFrame (a : Arena Value) (Q : Closure Value → Prop) (R : Ref → Prop)
    (fr : Frame Value) : Prop where
  locals : ∀ v ∈ fr.locals, a.Sound Q R v
  receiver : a.Sound Q R fr.receiver
  left : ∀ v ∈ fr.left, a.Sound Q R v

theorem SoundFrame.imp {fr : Frame Value} (himp : ∀ v, a.Sound Q R v → b.Sound Q' R' v)
    (h : a.SoundFrame Q R fr) : b.SoundFrame Q' R' fr :=
  ⟨fun v hv => himp v (h.locals v hv), himp _ h.receiver, fun v hv => himp v (h.left v hv)⟩

/-! ## Coherent calls -/

/-- The frame of a call in progress. -/
structure Running (a : Arena Value) (c : Call) : Prop where
  active : a.Active c.frame
  code : ∀ fr, a.get? c.frame = some fr → fr.code = c.code
  returned : ∀ fr, a.get? c.frame = some fr → fr.returned = false

/-- The frame of a call, or kept by a closure. -/
def Matters (a : Arena Value) (calls : List Call) (f : FrameId) : Prop :=
  f ∈ calls.map (·.frame) ∨ a.Keeps f

/-- The arena of a coherent state. -/
structure Coherent (a : Arena Value) (Q : Closure Value → Prop) (R : Ref → Prop)
    (calls : List Call) : Prop where
  tidy : a.Tidy
  balanced : a.Balanced
  distinct : (calls.map (·.frame)).Nodup
  running : ∀ c ∈ calls, a.Running c
  active : ∀ f, a.Active f → f ∈ calls.map (·.frame)
  operands : ∀ c ∈ calls, ∀ v ∈ c.stack, a.Sound Q R v
  matters : ∀ f fr, a.get? f = some fr → a.Matters calls f
  frames : ∀ f fr, a.get? f = some fr → a.SoundFrame Q R fr ∧ a.Anchored f fr.home

end Arena

/-- The reachable rows of a coherent state. -/
def Store.Coherent (s : Store) (a : Arena Value) (Q : Closure Value → Prop) (R : Ref → Prop) :
    Prop :=
  ∀ r, R r → r < s.rows.size ∧ ∀ v ∈ s.row r, a.Sound Q R v

/-- A memory in which everything is sound that the calls in progress can reach, or the host by way
of the values that it holds. -/
structure Memory.Coherent (image : Image) (Q : Closure Value → Prop) (R : Ref → Prop) (m : Memory)
    (calls : List Call) (host : List Value) : Prop where
  arena : m.frames.Coherent Q R calls
  store : m.store.Coherent m.frames Q R
  host : ∀ v ∈ host, m.frames.Sound Q R v
  transcript : m.frames.Sound Q R image.transcript

end Colloquy
