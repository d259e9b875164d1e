import Colloquy.Proofs.Coherence.Progress
import Colloquy.Proofs.Direct.Typing

/-!
# A memory beside a world

A machine gives frames up and uses their handles again; activations are numbered and stay.  A view
puts a memory of the machine beside a world of the evaluator, with the number of the activation
that each handle stands for at the moment.  The view *shows* the same in both (`Direct.View.Shows`)
if every frame that is there has the code, variables, receiver and links of its activation, values
and rows being the same up to the names of frames.

Each change of memory has its counterpart: calls that are over change nothing in the world
(`Shows.recede`), rows change alike (`Shows.remember`), and so do variables (`Shows.setLocal`); a
new closure (`Shows.closure`) and a new call (`Shows.enter`) name frames by activations.
-/

namespace Colloquy

namespace Direct

/-- A memory, a world, and the number of the activation of each frame. -/
structure View where
  memory : Memory
  world : World
  number : FrameId → Nat

namespace View

/-- The rows of the memory. -/
def Rows (s : View) (r : Ref) : Prop := r < s.memory.store.rows.size

/-- The second closure names the activations of the frames that the first one names. -/
def Renames (s : View) (c c' : Closure Value) : Prop :=
  c'.enclosing = handle (s.number c.enclosing) ∧ c'.home = handle (s.number c.home)

/-- The values are the same, up to the names of frames. -/
def Same (s : View) (v v' : Value) : Prop := v.Match s.Renames s.Rows v'

/-- The value's closures find their frames. -/
abbrev Sound (s : View) (v : Value) : Prop := s.memory.frames.Sound (fun _ => True) s.Rows v

/-- The frame is that of the activation. -/
structure Depicts (s : View) (f : FrameId) (fr : Frame Value) (a : Activation) : Prop where
  code : a.code = fr.code
  receiver : s.Same fr.receiver a.receiver
  locals : List.Forall₂ s.Same fr.locals.toList a.vars.toList
  home : a.home = s.number fr.home
  outermost : fr.enclosing = none → ∃ scope, a.env = [(scope, s.number f)]
  inside : ∀ e, fr.enclosing = some e →
    ∃ scope, a.env = (scope, s.number f) :: (s.world.activation (s.number e)).env

/-- Memory and world show the same. -/
structure Shows (s : View) (x : Setting) (calls : List Call) (host : List Value) : Prop where
  coherent : s.memory.Coherent x.image (fun _ => True) s.Rows calls host
  data : s.memory.Match s.Renames s.Rows s.world.memory
  frames : ∀ f fr, s.memory.frames.get? f = some fr → s.number f < s.world.activations.size
    ∧ s.Depicts f fr (s.world.activation (s.number f))
  distinct : ∀ f g, s.memory.frames.contains f → s.memory.frames.contains g →
    s.number f = s.number g → f = g
  typed : s.world.Typed x

/-- The second view comes after the first one: what matters has kept its name, and the world has
grown. -/
structure Later (s : View) (calls : List Call) (s' : View) : Prop where
  number : ∀ f, s.memory.frames.Matters calls f → s'.number f = s.number f
  keeps : ∀ f, s.memory.frames.Keeps f → s'.memory.frames.Keeps f
  rows : s.memory.store.rows.size ≤ s'.memory.store.rows.size
  world : s.world.Extends s'.world

variable {s s' s'' : View} {x : Setting} {calls calls' rest : List Call} {c c' : Call}
  {host host' : List Value} {v v' : Value} {f : FrameId} {fr : Frame Value} {m' : Memory}

theorem Later.refl (s : View) (calls : List Call) : s.Later calls s :=
  ⟨fun _ _ => rfl, fun _ h => h, Nat.le_refl _, .refl _⟩

theorem Later.trans (h : s.Later calls s') (h' : s'.Later calls' s'')
    (sub : ∀ f ∈ calls.map (·.frame), f ∈ calls'.map (·.frame)) : s.Later calls s'' where
  number f hf := (h'.number f (hf.imp (sub f) (h.keeps f))).trans (h.number f hf)
  keeps f hf := h'.keeps f (h.keeps f hf)
  rows := Nat.le_trans h.rows h'.rows
  world := h.world.trans h'.world

theorem Later.mono (h : s.Later calls s')
    (sub : ∀ f ∈ calls'.map (·.frame), f ∈ calls.map (·.frame)) : s.Later calls' s' :=
  { h with number := fun f hf => h.number f (hf.imp_left (sub f)) }

theorem Later.of_calls (h : s.Later (c :: rest) s') (frame : c'.frame = c.frame) :
    s.Later (c' :: rest) s' := h.mono (by simp [frame])

/-- **The same values stay the same.** -/
theorem Same.later (h : s.Same v v') (later : s.Later calls s') (sound : s.Sound v) :
    s'.Same v v' := by
  unfold Same at h ⊢
  induction h with
  | nil => exact .nil
  | bool b => exact .bool b
  | int n => exact .int n
  | float x => exact .float x
  | char c => exact .char c
  | string id text => exact .string id text
  | array row => exact .array (Nat.lt_of_lt_of_le row later.rows)
  | object cls row => exact .object cls (Nat.lt_of_lt_of_le row later.rows)
  | cls c => exact .cls c
  | @block c c' related serial code _ ih =>
    obtain ⟨secure, receiver⟩ := Value.each_block.1 sound
    refine .block ⟨?_, ?_⟩ serial code (ih receiver)
    · rw [related.1, later.number _ (.inr secure.keeps)]
    · rw [related.2, later.number _ (.inr (secure.anchored.keeps_home secure.keeps))]

theorem same_all_later {vs vs' : List Value} (h : List.Forall₂ s.Same vs vs')
    (later : s.Later calls s') (sound : ∀ v ∈ vs, s.Sound v) : List.Forall₂ s'.Same vs vs' := by
  induction h with
  | nil => exact .nil
  | cons hv _ ih =>
    obtain ⟨first, rest⟩ := List.forall_mem_cons.1 sound
    exact .cons (hv.later later first) (ih rest)

/-! ## What a view that shows the same says -/

theorem contains_of_get? {a : Arena Value} (h : a.get? f = some fr) : a.contains f := by
  rw [Arena.contains, h]
  rfl

theorem Shows.matters (h : s.Shows x calls host) (here : s.memory.frames.get? f = some fr) :
    s.memory.frames.Matters calls f := h.coherent.arena.matters f fr here

theorem Shows.soundFrame (h : s.Shows x calls host) (here : s.memory.frames.get? f = some fr) :
    s.memory.frames.SoundFrame (fun _ => True) s.Rows fr := (h.coherent.arena.frames f fr here).1

theorem Shows.anchored (h : s.Shows x calls host) (here : s.memory.frames.get? f = some fr) :
    s.memory.frames.Anchored f fr.home := (h.coherent.arena.frames f fr here).2

/-- The home of a frame is there. -/
theorem Shows.home (h : s.Shows x calls host) (here : s.memory.frames.get? f = some fr) :
    ∃ home, s.memory.frames.get? fr.home = some home :=
  (h.anchored here).anchored_home.imp fun _ h => h.1

/-- The frame around another one is there. -/
theorem Shows.enclosing (h : s.Shows x calls host) (here : s.memory.frames.get? f = some fr)
    {e : FrameId} (inside : fr.enclosing = some e) :
    ∃ outer, s.memory.frames.get? e = some outer :=
  ((h.anchored here).keeps_enclosing here inside).exists_frame

/-- The frame of a call in progress and its activation. -/
theorem Shows.call (h : s.Shows x calls host) (hc : c ∈ calls) :
    ∃ fr, s.memory.frames.get? c.frame = some fr ∧ fr.code = c.code
      ∧ s.number c.frame < s.world.activations.size
      ∧ s.Depicts c.frame fr (s.world.activation (s.number c.frame)) := by
  obtain ⟨fr, here, code, -, -⟩ := h.coherent.arena.call_frame hc
  exact ⟨fr, here, code, h.frames _ fr here⟩

/-- What a frame says of its activation stays right while the activation does not change. -/
theorem Shows.depicts_later (h : s.Shows x calls host) (later : s.Later calls s')
    (here : s.memory.frames.get? f = some fr)
    (same : ∀ n < s.world.activations.size, s'.world.activation n = s.world.activation n) :
    s'.number f < s'.world.activations.size
      ∧ s'.Depicts f fr (s'.world.activation (s'.number f)) := by
  obtain ⟨lt, depicts⟩ := h.frames f fr here
  have sound := h.soundFrame here
  have number := later.number f (h.matters here)
  rw [number, same _ lt]
  refine ⟨Nat.lt_of_lt_of_le lt later.world.size, depicts.code,
    depicts.receiver.later later sound.receiver, ?_, ?_, fun outermost => ?_, fun e inside => ?_⟩
  · exact same_all_later depicts.locals later fun v hv => sound.locals v (Array.mem_toList_iff.1 hv)
  · obtain ⟨home, hhome⟩ := h.home here
    rw [depicts.home, later.number _ (h.matters hhome)]
  · rw [number]
    exact depicts.outermost outermost
  · obtain ⟨outer, houter⟩ := h.enclosing here inside
    obtain ⟨scope, env⟩ := depicts.inside e inside
    refine ⟨scope, ?_⟩
    rw [number, later.number e (h.matters houter), same _ (h.frames e outer houter).1, env]

/-! ## Changes -/

/-- **Frames change without being seen**, and so do the calls. -/
theorem Shows.recede (h : s.Shows x calls host) (recedes : s.memory.Recedes m')
    (coherent : m'.Coherent x.image (fun _ => True) s.Rows calls' host') :
    Shows { s with memory := m' } x calls' host' ∧ s.Later calls { s with memory := m' } := by
  have size : m'.store.rows.size = s.memory.store.rows.size := by rw [recedes.data.store]
  have rows : Rows { s with memory := m' } = s.Rows := by
    funext r
    simp only [Rows, size]
  have same {v v' : Value} (hv : s.Same v v') : Same { s with memory := m' } v v' := by
    unfold Same
    rw [rows]
    exact hv
  refine ⟨⟨rows ▸ coherent, ?_, fun f fr' here => ?_, fun f g hf hg => ?_, h.typed⟩,
    fun _ _ => rfl, recedes.keeps, Nat.le_of_eq size.symm, .refl _⟩
  · rw [rows]
    have data : s.memory.Match s.Renames s.Rows s.world.memory := h.data
    exact ⟨recedes.data.store ▸ data.store, data.serial.trans recedes.data.serial.symm,
      data.transcript.trans recedes.data.transcript.symm⟩
  · obtain ⟨fr, old, links, locals⟩ := recedes.frames f fr' here
    obtain ⟨lt, depicts⟩ := h.frames f fr old
    refine ⟨lt, depicts.code.trans links.code.symm, ?_, ?_, ?_, fun outermost => ?_,
      fun e inside => ?_⟩
    · rw [links.receiver]
      exact same depicts.receiver
    · rw [locals]
      exact depicts.locals.imp fun _ _ => same
    · rw [links.home]
      exact depicts.home
    · exact depicts.outermost (links.enclosing ▸ outermost)
    · exact depicts.inside e (links.enclosing ▸ inside)
  · have before {f : FrameId} (hf : m'.frames.contains f) : s.memory.frames.contains f := by
      obtain ⟨fr', here⟩ := Option.isSome_iff_exists.1 hf
      obtain ⟨fr, old, -⟩ := recedes.frames f fr' here
      exact contains_of_get? old
    exact h.distinct f g (before hf) (before hg)

/-- The innermost call goes on elsewhere, and the host holds other values. -/
theorem Shows.restack (h : s.Shows x (c :: rest) host) (frame : c'.frame = c.frame)
    (code : c'.code = c.code) (stack : ∀ v ∈ c'.stack, s.Sound v)
    (held : ∀ v ∈ host', s.Sound v) : s.Shows x (c' :: rest) host' :=
  { h with coherent := h.coherent.restack frame code stack held }

/-- The innermost call takes over a value from the host. -/
theorem Shows.receive {v : Value} {stack : List Value} (h : s.Shows x (c :: rest) (v :: host))
    (sub : stack ⊆ c.stack) : s.Shows x ({ c with stack := v :: stack } :: rest) host :=
  { h with coherent := h.coherent.receive sub }

/-- The host holds other values. -/
theorem Shows.hold (h : s.Shows x calls host) (held : ∀ v ∈ host', s.Sound v) :
    s.Shows x calls host' :=
  { h with coherent := h.coherent.hold held }

/-- **Rows change alike.** -/
theorem Shows.remember {m m' : Memory} (h : s.Shows x calls host)
    (frames : m.frames = s.memory.frames)
    (coherent : m.Coherent x.image (fun _ => True) (· < m.store.rows.size) calls host')
    (data : m.Match s.Renames (· < m.store.rows.size) m')
    (rows : s.memory.store.rows.size ≤ m.store.rows.size)
    (grown : s.world.Extends { s.world with memory := m' })
    (typed : World.Typed x { s.world with memory := m' }) :
    Shows { s with memory := m, world := { s.world with memory := m' } } x calls host'
      ∧ s.Later calls { s with memory := m, world := { s.world with memory := m' } } := by
  have later : s.Later calls { s with memory := m, world := { s.world with memory := m' } } :=
    ⟨fun _ _ => rfl, fun f hf => frames.symm ▸ hf, rows, grown⟩
  refine ⟨⟨coherent, data, fun f fr here => ?_, fun f g hf hg => ?_, typed⟩, later⟩
  · exact h.depicts_later later (frames ▸ here) fun _ _ => rfl
  · exact h.distinct f g (frames ▸ hf) (frames ▸ hg)

/-- All rows there are, after some have been made. -/
theorem grown_rows {m : Memory} (h : s.memory.store.rows.size ≤ m.store.rows.size) :
    s.memory.store.Grown m.store s.Rows = fun r => r < m.store.rows.size := by
  funext r
  rw [eq_iff_iff]
  constructor
  · rintro (hr | hr)
    · exact Nat.lt_of_lt_of_le hr h
    · exact hr.2
  · exact fun hr => (Nat.lt_or_ge r s.memory.store.rows.size).imp_right fun hge => ⟨hge, hr⟩

/-- The view after rows, strings or the transcript have changed. -/
def remembering (s : View) (m m' : Memory) : View :=
  { s with memory := m, world := { s.world with memory := m' } }

/-- Memory and world have changed alike, and have got a value that is the same in both. -/
structure Gains (s : View) (x : Setting) (calls : List Call) (host : List Value) (m : Memory)
    (v : Value) (m' : Memory) (v' : Value) : Prop where
  shows : (s.remembering m m').Shows x calls (v :: host)
  later : s.Later calls (s.remembering m m')
  same : (s.remembering m m').Same v v'
  typed : (s.remembering m m').world.Types x v'

theorem Shows.gains {m m' : Memory} (h : s.Shows x calls host)
    (frames : m.frames = s.memory.frames)
    (coherent : m.Coherent x.image (fun _ => True) (s.memory.store.Grown m.store s.Rows) calls
      (v :: host))
    (data : m.Match s.Renames (s.memory.store.Grown m.store s.Rows) m')
    (same : v.Match s.Renames (s.memory.store.Grown m.store s.Rows) v')
    (typed : s.world.Extends { s.world with memory := m' }
      ∧ World.Typed x { s.world with memory := m' }
      ∧ World.Types x { s.world with memory := m' } v') :
    s.Gains x calls host m v m' v' := by
  obtain ⟨grown, typed, typedNew⟩ := typed
  have size : s.memory.store.rows.size ≤ m.store.rows.size := by
    have := grown.rows
    rwa [h.data.store.size, data.store.size] at this
  rw [grown_rows size] at coherent data same
  obtain ⟨shows, later⟩ := h.remember frames coherent data size grown typed
  exact ⟨shows, later, same, typedNew⟩

/-- **A new array.** -/
theorem Shows.newArray {vs vs' : List Value} (h : s.Shows x calls host)
    (same : List.Forall₂ s.Same vs vs') (sound : ∀ v ∈ vs, s.Sound v)
    (types : ∀ v ∈ vs', s.world.Types x v) :
    s.Gains x calls host (s.memory.newArray vs.toArray).1 (s.memory.newArray vs.toArray).2
      (s.world.memory.newArray vs'.toArray).1 (s.world.memory.newArray vs'.toArray).2 := by
  have alike : List.Forall₂ s.Same vs.toArray.toList vs'.toArray.toList := same
  obtain ⟨data, new⟩ := h.data.newArray alike
  have coherent := h.coherent.newArray fun v hv => sound v (List.mem_toArray.1 hv)
  exact h.gains rfl coherent data new
    (h.typed.newArray fun v hv => types v (List.mem_toArray.1 hv))

/-- **A new object.** -/
theorem Shows.instantiate (h : s.Shows x calls host) {cls : Class} (has : x.image.Has cls) :
    s.Gains x calls host
      { s.memory with store := (Image.instantiate s.memory.store cls).1 }
      (Image.instantiate s.memory.store cls).2
      { s.world.memory with store := (Image.instantiate s.world.memory.store cls).1 }
      (Image.instantiate s.world.memory.store cls).2 := by
  obtain ⟨store, new⟩ := Image.instantiate_match h.data.store cls
  exact h.gains rfl (h.coherent.instantiate cls) ⟨store, h.data.serial, h.data.transcript⟩ new
    (h.typed.instantiate has rfl)

/-- **A new string.** -/
theorem Shows.newString (h : s.Shows x calls host) (text : String) :
    s.Gains x calls host (s.memory.newString text).1 (s.memory.newString text).2
      (s.world.memory.newString text).1 (s.world.memory.newString text).2 := by
  have rows : s.memory.store.Grown s.memory.store s.Rows = s.Rows := grown_rows (Nat.le_refl _)
  have coherent : (s.memory.newString text).1.Coherent x.image (fun _ => True) s.Rows calls
      ((s.memory.newString text).2 :: host) :=
    Memory.Coherent.cons (h.coherent.congr rfl rfl) trivial
  obtain ⟨grown, typed⟩ := h.typed.sameStore (m := (s.world.memory.newString text).1) rfl
  have serial : s.world.memory.serial = s.memory.serial := h.data.serial
  refine h.gains rfl (rows.symm ▸ coherent) (rows.symm ▸ ⟨h.data.store, ?_, h.data.transcript⟩) ?_
    ⟨grown, typed, .simple trivial⟩
  · exact congrArg (· + 1) serial
  · have same : (s.world.memory.newString text).2 = (s.memory.newString text).2 := by
      rw [Memory.newString, Memory.newString, serial]
    rw [same]
    exact .string _ text

/-- **A variable changes alike.** -/
theorem Shows.setLocal (h : s.Shows x calls host) {g : FrameId} (slot : Nat)
    (here : s.memory.frames.get? g = some fr) (hv : s.Same v v') (sound : s.Sound v)
    (typed : s.world.Types x v') :
    Shows { s with
        memory := s.memory.setLocal g slot v, world := s.world.setVar (s.number g) slot v' }
        x calls host
      ∧ s.Later calls { s with
        memory := s.memory.setLocal g slot v, world := s.world.setVar (s.number g) slot v' } := by
  have lt := (h.frames g fr here).1
  have grown := World.extends_setVar s.world slot v' lt
  have links (fr : Frame Value) :
      fr.SameLinks { fr with locals := fr.locals.setIfInBounds slot v } := ⟨rfl, rfl, rfl, rfl, rfl⟩
  have before {f : FrameId} (hf : (s.memory.setLocal g slot v).frames.contains f) :
      s.memory.frames.contains f := by
    obtain ⟨fr', hfr⟩ := Option.isSome_iff_exists.1 hf
    obtain ⟨old, hold⟩ := Arena.get?_of_modify hfr
    exact contains_of_get? hold
  refine ⟨⟨h.coherent.setLocal g slot sound,
    ⟨h.data.store, h.data.serial, h.data.transcript⟩, fun f fr' hf => ?_,
    fun f k hf hk => h.distinct f k (before hf) (before hk), h.typed.setVar slot typed lt⟩,
    fun _ _ => rfl, fun f hf => ?_, Nat.le_refl _, grown⟩
  · rw [World.size_setVar]
    have env (e : FrameId) (outer : Frame Value) (he : s.memory.frames.get? e = some outer) :
        ((s.world.setVar (s.number g) slot v').activation (s.number e)).env
          = (s.world.activation (s.number e)).env :=
      (grown.same _ (h.frames e outer he).1).env
    by_cases he : f = g
    · subst he
      have changed : (s.memory.setLocal f slot v).frames.get? f
          = some { fr with locals := fr.locals.setIfInBounds slot v } := by
        change (s.memory.frames.modify f _).get? f = _
        rw [Arena.get?_modify, if_pos rfl, here]
        rfl
      obtain rfl := Option.some.inj (changed.symm.trans hf)
      obtain ⟨-, depicts⟩ := h.frames f fr here
      refine ⟨lt, ?_⟩
      dsimp only
      rw [World.activation_setVar _ _ _ _ lt, if_pos rfl]
      refine ⟨depicts.code, depicts.receiver, ?_, depicts.home, depicts.outermost,
        fun e inside => ?_⟩
      · rw [Array.toList_setIfInBounds, Array.toList_setIfInBounds]
        exact forall₂_set depicts.locals slot hv
      · obtain ⟨outer, houter⟩ := h.enclosing here inside
        obtain ⟨scope, he⟩ := depicts.inside e inside
        exact ⟨scope, he.trans (congrArg _ (env e outer houter).symm)⟩
    · have old : s.memory.frames.get? f = some fr' := by
        change (s.memory.frames.modify g _).get? f = _ at hf
        rwa [Arena.get?_modify, if_neg he] at hf
      obtain ⟨lt', depicts⟩ := h.frames f fr' old
      have other : s.number f ≠ s.number g := fun hn =>
        he (h.distinct f g (contains_of_get? old) (contains_of_get? here) hn)
      refine ⟨lt', ?_⟩
      dsimp only
      rw [World.activation_setVar _ _ _ _ lt, if_neg other]
      refine ⟨depicts.code, depicts.receiver, depicts.locals, depicts.home, depicts.outermost,
        fun e inside => ?_⟩
      obtain ⟨outer, houter⟩ := h.enclosing old inside
      obtain ⟨scope, he⟩ := depicts.inside e inside
      exact ⟨scope, he.trans (congrArg _ (env e outer houter).symm)⟩
  · exact (Arena.keeps_modify fun fr => (links fr).enclosing).2 hf

/-- The view after a closure was made by frame `f`. -/
def closing (s : View) (f : FrameId) : View :=
  { s with
    memory := { s.memory with frames := s.memory.frames.pin f, serial := s.memory.serial + 1 }
    world := { s.world with
      memory := { s.world.memory with serial := s.world.memory.serial + 1 } } }

/-- **A new closure** keeps the frame that makes it. -/
theorem Shows.closure (h : s.Shows x (c :: rest) host) {index : Nat} {closure : Closure Value}
    (made : s.memory.closure c.frame index = .ok closure) :
    (s.closing c.frame).Shows x (c :: rest) (.block closure :: host)
      ∧ s.Later (c :: rest) (s.closing c.frame) := by
  obtain ⟨grown, typed⟩ := h.typed.sameStore
    (m := { s.world.memory with serial := s.world.memory.serial + 1 }) rfl
  have later : s.Later (c :: rest) (s.closing c.frame) :=
    ⟨fun _ _ => rfl, fun f hf => (Arena.retains_pin.keeps hf).1, Nat.le_refl _, grown⟩
  have same (f : FrameId) : (s.closing c.frame).memory.frames.get? f = s.memory.frames.get? f :=
    Arena.get?_pin
  refine ⟨⟨h.coherent.closure made trivial, ⟨h.data.store, congrArg (· + 1) h.data.serial,
    h.data.transcript⟩, fun f fr here => ?_, fun f g hf hg => ?_, typed⟩, later⟩
  · exact h.depicts_later later (same f ▸ here) fun _ _ => rfl
  · refine h.distinct f g ?_ ?_
    · rwa [Arena.contains, same f] at hf
    · rwa [Arena.contains, same g] at hg

/-- The view after a call of `callee` was entered, with memory `m'` and frame `id`. -/
def entering (s : View) (x : Setting) (source : Source) (callee : Callee) (id : FrameId)
    (m' : Memory) : View where
  memory := m'
  world := s.world.begin x source callee
  number f := if f = id then s.world.activations.size else s.number f

section Enter

variable {callee callee' : Callee} {id : FrameId} {invoking : Option FrameId} {p : Standing}

/-- A new frame has a handle that nothing has used for a frame that is there. -/
theorem Shows.fresh (h : s.Shows x calls host)
    (made : s.memory.frames.Created m'.frames id (callee.frame invoking id)) :
    ¬ s.memory.frames.Matters calls id ∧ ∀ fr, s.memory.frames.get? id ≠ some fr := by
  have absent : ¬ s.memory.frames.Matters calls id := by
    rintro (hm | hk)
    · obtain ⟨c, hc, he⟩ := List.mem_map.1 hm
      have he : c.frame = id := he
      exact made.fresh.2 (he ▸ (h.coherent.arena.running c hc).active)
    · exact made.fresh.1 hk
  exact ⟨absent, fun fr hf => absent (h.matters hf)⟩

theorem Shows.later_entering (h : s.Shows x calls host) (source : Source)
    (made : s.memory.frames.Created m'.frames id (callee.frame invoking id))
    (data : s.memory.SameData m') :
    s.Later calls (s.entering x source callee' id m') where
  number f hf := if_neg fun (he : f = id) => (h.fresh made).1 (he ▸ hf)
  keeps _ hf := (made.retains.keeps hf).1
  rows := Nat.le_of_eq (congrArg (·.rows.size) data.store.symm)
  world := World.extends_begin

/-- The slots of the new frame are the variables of the new activation. -/
theorem same_slots {code : Code} {args args' : List Value} (runs : p.Runs x code)
    (ha : List.Forall₂ s.Same args args') :
    List.Forall₂ s.Same (Frame.slots .nil code args).toList
      (args'.toArray
        ++ Array.replicate (x.varCount p.source.scope - args'.length) Value.nil).toList := by
  rw [Frame.slots, Array.toList_append, Array.toList_append, runs.frameSize_eq.1, ha.length_eq]
  exact List.rel_append ha (Value.Match.replicate _)

/-- The new frame is that of the new activation. -/
theorem Shows.depicts_entering (h : s.Shows x calls host)
    (hc : callee.Match s.Renames s.Rows callee') (sound : ∀ v ∈ callee.values, s.Sound v)
    (made : s.memory.frames.Created m'.frames id (callee.frame invoking id))
    (data : s.memory.SameData m') (runs : p.Runs x callee'.code) :
    (s.entering x p.source callee' id m').Depicts id (callee.frame invoking id)
      (s.world.activationOf x p.source s.world.activations.size callee') := by
  have later : s.Later calls (s.entering x p.source callee' id m') :=
    h.later_entering p.source made data
  have own : (s.entering x p.source callee' id m').number id = s.world.activations.size :=
    if_pos rfl
  cases hc with
  | @method code receiver receiver' args args' hr ha =>
    obtain ⟨hreceiver, hargs⟩ := List.forall_mem_cons.1 sound
    refine ⟨rfl, Same.later hr later hreceiver, ?_, own.symm, fun _ => ⟨p.source.scope, ?_⟩, nofun⟩
    · exact same_slots runs (same_all_later ha later hargs)
    · rw [own]
      rfl
  | @block c c' args args' hblock ha arity =>
    obtain ⟨hclosure, hargs⟩ := List.forall_mem_cons.1 sound
    obtain ⟨secure, hreceiver⟩ := Value.each_block.1 hclosure
    cases hblock with
    | block related serial code receiver =>
      refine ⟨code, Same.later receiver later hreceiver, ?_, ?_, nofun, ?_⟩
      · have block : p.Runs x c'.code := runs
        have slots := same_slots block (same_all_later ha later hargs)
        rw [code] at slots
        exact slots
      · have number := later.number c.home
          (.inr (secure.anchored.keeps_home secure.keeps))
        exact (congrArg FrameId.index related.2).trans number.symm
      · rintro e ⟨⟩
        obtain ⟨outer, houter⟩ := secure.keeps.exists_frame
        have lt := (h.frames _ outer houter).1
        refine ⟨p.source.scope, ?_⟩
        rw [own, later.number c.enclosing (.inr secure.keeps)]
        simp only [World.activationOf, entering, World.activation_begin lt, related.1]
        rfl

/-- **A new call**: the callee has a body, and the view with its frame and its activation shows the
same. -/
theorem Shows.enter (h : s.Shows x calls host) (hc : callee.Match s.Renames s.Rows callee')
    (sound : ∀ v ∈ callee.values, s.Sound v) (can : s.world.Calls x callee')
    (made : s.memory.frames.Created m'.frames id (callee.frame invoking id))
    (data : s.memory.SameData m') :
    ∃ p, p.Runs x callee'.code
      ∧ (s.entering x p.source callee' id m').Shows x
          ({ frame := id, code := callee.code } :: calls) host
      ∧ s.Later calls (s.entering x p.source callee' id m')
      ∧ (s.entering x p.source callee' id m').world.Stands x s.world.activations.size p := by
  obtain ⟨p, runs, stands, typed⟩ := h.typed.begin can
  have later : s.Later calls (s.entering x p.source callee' id m') :=
    h.later_entering p.source made data
  have size : m'.store.rows.size = s.memory.store.rows.size := congrArg (·.rows.size) data.store
  have rows : (s.entering x p.source callee' id m').Rows = s.Rows := by
    funext r
    simp only [Rows, entering, size]
  have own : (s.entering x p.source callee' id m').number id = s.world.activations.size :=
    if_pos rfl
  refine ⟨p, runs, ⟨?_, ⟨⟨?_, fun r hr => ⟨hr, ?_⟩⟩, ?_, ?_⟩, fun f fr here => ?_, ?_, typed⟩,
    later, stands⟩
  · rw [rows]
    exact Machine.coherent_of_created h.coherent sound made data.store
  · exact h.data.store.size.trans size.symm
  · rw [rows] at hr
    have row := h.data.store.row hr
    have sounds := (h.coherent.store r hr).2
    simp only [entering, World.memory_begin, data.store]
    exact same_all_later row later fun v hv => sounds v (Array.mem_toList_iff.1 hv)
  · exact h.data.serial.trans data.serial.symm
  · exact h.data.transcript.trans data.transcript.symm
  · rcases made.before here with rfl | old
    · obtain rfl := Option.some.inj (made.get?.symm.trans here)
      rw [own]
      refine ⟨?_, ?_⟩
      · exact Nat.lt_of_lt_of_eq (Nat.lt_succ_self _) World.size_begin.symm
      · have new := h.depicts_entering hc sound made data runs
        simp only [entering, World.activation_begin_new] at new ⊢
        exact new
    · exact h.depicts_later later old fun n hn => World.activation_begin hn
  · have cases_ {f : FrameId} (hf : m'.frames.contains f) :
        f = id ∨ ∃ fr, s.memory.frames.get? f = some fr := by
      obtain ⟨fr, here⟩ := Option.isSome_iff_exists.1 hf
      exact (made.before here).imp_right fun h => ⟨fr, h⟩
    have older {f : FrameId} {fr : Frame Value} (here : s.memory.frames.get? f = some fr) :
        (s.entering x p.source callee' id m').number f = s.number f
          ∧ s.number f < s.world.activations.size :=
      ⟨later.number f (h.matters here), (h.frames f fr here).1⟩
    intro f g hf hg he
    rcases cases_ hf with rfl | ⟨_, hf'⟩ <;> rcases cases_ hg with rfl | ⟨_, hg'⟩
    · rfl
    · rw [own, (older hg').1] at he
      exact absurd he (Nat.ne_of_gt (older hg').2)
    · rw [own, (older hf').1] at he
      exact absurd he (Nat.ne_of_lt (older hf').2)
    · rw [(older hf').1, (older hg').1] at he
      exact h.distinct f g (contains_of_get? hf') (contains_of_get? hg') he

end Enter

end View

end Direct

end Colloquy
