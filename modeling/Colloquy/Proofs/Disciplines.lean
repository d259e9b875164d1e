import Colloquy.Proofs.Calling

/-!
# Values in order

Running code copies values, reads them from frames and rows and puts them there, and makes new ones
for new rows.  So whatever is said of values, in a way that numbers and strings satisfy anyhow and
new rows make true of what names them, holds of all values if it held of those before: a
`Discipline`.  Only closures are made otherwise, and have to be looked at when they are made.

Main statement: every move of a session keeps the values in order (`Session.Move.inOrder`).
-/

namespace Colloquy

/-- What a row of the store was made for. -/
inductive RowKind where
  /-- The elements of an array. -/
  | elements
  /-- The fields of an object. -/
  | fields
deriving DecidableEq

/-- A discipline of values: which of them are in order, given what is known of the rows. -/
structure Discipline (σ : Type) where
  /-- The value is in order. -/
  Fits : σ → Value → Prop
  /-- The values in the row have to be in order. -/
  Live : σ → Ref → Prop
  /-- How many rows are known. -/
  size : σ → Nat
  /-- One more row is known. -/
  grow : σ → RowKind → σ
  simple : ∀ {w v}, v.Simple → Fits w v
  cls : ∀ {w c}, Fits w (.cls c)
  receiver : ∀ {w c}, Fits w (.block c) → Fits w c.receiver
  array : ∀ {w r}, Fits w (.array r) → Live w r
  object : ∀ {w cls r}, Fits w (.object cls r) → Live w r
  mono : ∀ {w v} kind, Fits w v → Fits (grow w kind) v
  size_grow : ∀ w kind, size (grow w kind) = size w + 1
  live_grow : ∀ {w kind r}, Live (grow w kind) r → Live w r ∨ r = size w
  newArray : ∀ w, Fits (grow w .elements) (.array (size w))
  newObject : ∀ w cls, Fits (grow w .fields) (.object cls (size w))

namespace Discipline

variable {σ : Type} {d : Discipline σ} {w w' : σ}

/-- Nothing that was known is known no longer: at most one row has been added. -/
inductive Grows (d : Discipline σ) (w : σ) : σ → Prop where
  | same : Grows d w w
  | row (kind : RowKind) : Grows d w (d.grow w kind)

theorem Grows.fits (more : d.Grows w w') {v : Value} (h : d.Fits w v) : d.Fits w' v := by
  cases more with
  | same => exact h
  | row kind => exact d.mono kind h

/-- What the frame holds is in order. -/
structure InFrame (d : Discipline σ) (w : σ) (fr : Frame Value) : Prop where
  locals : ∀ v ∈ fr.locals, d.Fits w v
  receiver : d.Fits w fr.receiver
  left : ∀ v ∈ fr.left, d.Fits w v

/-- What rows and frames hold is in order. -/
structure InMemory (d : Discipline σ) (w : σ) (m : Memory) : Prop where
  size : d.size w = m.store.rows.size
  rows : ∀ r, d.Live w r → ∀ v ∈ m.store.row r, d.Fits w v
  frames : ∀ f fr, m.frames.get? f = some fr → d.InFrame w fr

structure InState (d : Discipline σ) (w : σ) (s : State) : Prop where
  memory : d.InMemory w s.memory
  calls : ∀ c ∈ s.calls.calls, ∀ v ∈ c.stack, d.Fits w v

/-- Memory is in order after a row may have been added, and so are the values. -/
def Leaves (d : Discipline σ) (w : σ) (m : Memory) (vs : List Value) : Prop :=
  ∃ w', d.Grows w w' ∧ d.InMemory w' m ∧ ∀ v ∈ vs, d.Fits w' v

theorem InFrame.grow (more : d.Grows w w') {fr : Frame Value} (h : d.InFrame w fr) :
    d.InFrame w' fr :=
  ⟨fun v hv => more.fits (h.locals v hv), more.fits h.receiver, fun v hv => more.fits (h.left v hv)⟩

/-! ## Memories -/

namespace InMemory

variable {m m' : Memory} {v : Value} {vs : List Value}

theorem leaves (h : d.InMemory w m) (hv : ∀ v ∈ vs, d.Fits w v) : d.Leaves w m vs :=
  ⟨w, .same, h, hv⟩

theorem congr (h : d.InMemory w m) (frames : m'.frames = m.frames) (store : m'.store = m.store) :
    d.InMemory w m' :=
  ⟨store ▸ h.size, store ▸ h.rows, frames ▸ h.frames⟩

theorem log (h : d.InMemory w m) (logs : m.Logs m') : d.InMemory w m' :=
  h.congr logs.frames logs.data.store

/-- Frames have changed. -/
theorem reframe (h : d.InMemory w m) (store : m'.store = m.store)
    (frames : ∀ f fr, m'.frames.get? f = some fr → d.InFrame w fr) : d.InMemory w m' :=
  ⟨store ▸ h.size, store ▸ h.rows, frames⟩

/-- A row more. -/
theorem add (h : d.InMemory w m) {values : Array Value} (hv : ∀ v ∈ values, d.Fits w v)
    (kind : RowKind) (frames : m'.frames = m.frames) (store : m'.store = (m.store.add values).1) :
    d.InMemory (d.grow w kind) m' := by
  have more : d.Grows w (d.grow w kind) := .row kind
  have last : (m.store.add values).2 = d.size w := h.size.symm
  refine ⟨?_, fun r live v hr => ?_, fun f fr here => ?_⟩
  · rw [store, Store.size_add, d.size_grow, h.size]
  · rw [store] at hr
    by_cases new : r = (m.store.add values).2
    · rw [new, Store.row_add_self] at hr
      exact more.fits (hv v hr)
    · rw [Store.row_add_of_ne new] at hr
      have before := (d.live_grow live).resolve_right fun same => new (same.trans last.symm)
      exact more.fits (h.rows r before v hr)
  · rw [frames] at here
    exact (h.frames f fr here).grow more

theorem newArray (h : d.InMemory w m) {values : Array Value} (hv : ∀ v ∈ values, d.Fits w v)
    (hvs : ∀ v ∈ vs, d.Fits w v) :
    d.Leaves w (m.newArray values).1 ((m.newArray values).2 :: vs) := by
  have new : d.Fits (d.grow w .elements) (m.newArray values).2 := by
    show d.Fits _ (.array m.store.rows.size)
    rw [← h.size]
    exact d.newArray w
  exact ⟨_, .row _, h.add hv .elements rfl rfl,
    List.forall_mem_cons.2 ⟨new, fun v hv => d.mono _ (hvs v hv)⟩⟩

theorem instantiate (h : d.InMemory w m) (cls : Class) (hvs : ∀ v ∈ vs, d.Fits w v) :
    d.Leaves w { m with store := (Image.instantiate m.store cls).1 }
      ((Image.instantiate m.store cls).2 :: vs) := by
  have nils : ∀ v ∈ Array.replicate cls.numFields Value.nil, d.Fits w v := fun v hv => by
    rw [Array.eq_of_mem_replicate hv]
    exact d.simple trivial
  have new : d.Fits (d.grow w .fields) (Image.instantiate m.store cls).2 := by
    show d.Fits _ (.object cls m.store.rows.size)
    rw [← h.size]
    exact d.newObject w cls
  exact ⟨_, .row _, h.add nils .fields rfl rfl,
    List.forall_mem_cons.2 ⟨new, fun v hv => d.mono _ (hvs v hv)⟩⟩

theorem set (h : d.InMemory w m) (hv : d.Fits w v) (r : Ref) (k : Nat) :
    d.InMemory w { m with store := m.store.set r k v } := by
  refine ⟨h.size.trans (Store.size_set m.store r k v).symm, fun q live u hu => ?_, h.frames⟩
  dsimp only at hu
  by_cases same : r = q
  · rw [same, Store.row_set_self] at hu
    rcases Array.mem_or_eq_of_mem_setIfInBounds hu with hu | rfl
    · exact h.rows q live u hu
    · exact hv
  · rw [Store.row_set_of_ne same] at hu
    exact h.rows q live u hu

theorem modify (h : d.InMemory w m) (f : FrameId) {g : Frame Value → Frame Value}
    (hg : ∀ fr, d.InFrame w fr → d.InFrame w (g fr)) (frames : m'.frames = m.frames.modify f g)
    (store : m'.store = m.store) : d.InMemory w m' := by
  refine h.reframe store fun k fr here => ?_
  rw [frames, Arena.get?_modify] at here
  split at here
  · obtain ⟨old, before, rfl⟩ := Option.map_eq_some_iff.1 here
    exact hg old (h.frames _ old before)
  · exact h.frames k fr here

theorem setLocal (h : d.InMemory w m) (hv : d.Fits w v) (f : FrameId) (slot : Nat) :
    d.InMemory w (m.setLocal f slot v) := by
  refine h.modify f (g := fun fr => { fr with locals := fr.locals.setIfInBounds slot v })
    (fun fr hf => ⟨fun u hu => ?_, hf.receiver, hf.left⟩) rfl rfl
  rcases Array.mem_or_eq_of_mem_setIfInBounds hu with hu | rfl
  · exact hf.locals u hu
  · exact hv

theorem setPlace (h : d.InMemory w m) (f : FrameId) (place : Place) :
    d.InMemory w (m.setPlace f place) :=
  h.modify f (g := fun fr => { fr with place })
    (fun _ hf => ⟨hf.locals, hf.receiver, hf.left⟩) rfl rfl

/-- A frame is given up. -/
theorem pop (h : d.InMemory w m) {c : Call} (hc : ∀ v ∈ c.stack, d.Fits w v)
    {g : Frame Value → Frame Value} (hg : g = Memory.lastWords c ∨ g = Memory.lastWordsReturning c)
    (frames : m'.frames = (m.frames.modify c.frame g).release c.frame)
    (store : m'.store = m.store) : d.InMemory w m' := by
  have changed : d.InMemory w { m with frames := m.frames.modify c.frame g } := by
    refine h.modify c.frame (fun fr hf => ?_) rfl rfl
    rcases hg with rfl | rfl <;> exact ⟨hf.locals, hf.receiver, hc⟩
  exact changed.reframe store fun f fr here =>
    changed.frames f fr (Arena.get?_of_release (frames ▸ here))

theorem leave (h : d.InMemory w m) {c : Call} (hc : ∀ v ∈ c.stack, d.Fits w v) :
    d.InMemory w (m.leave c) :=
  h.pop hc (.inl rfl) (m.frames_leave c) (m.store_leave c)

theorem leaveReturning (h : d.InMemory w m) {calls : List Call}
    (hc : ∀ c ∈ calls, ∀ v ∈ c.stack, d.Fits w v) : d.InMemory w (m.leaveReturning calls) := by
  induction calls generalizing m with
  | nil => exact h
  | cons c calls ih =>
    obtain ⟨first, later⟩ := List.forall_mem_cons.1 hc
    refine ih (h.pop first (.inr rfl) ?_ ?_) later
    · exact m.frames_leave_markReturned c
    · exact (m.sameData_leave_markReturned c).store

theorem dropAll (h : d.InMemory w m) {calls : List Call}
    (hc : ∀ c ∈ calls, ∀ v ∈ c.stack, d.Fits w v) :
    d.InMemory w (calls.foldl Memory.drop m) := by
  induction calls generalizing m with
  | nil => exact h
  | cons c calls ih =>
    obtain ⟨first, later⟩ := List.forall_mem_cons.1 hc
    exact ih (h.pop first (.inl rfl) rfl rfl) later

end InMemory

end Discipline

/-! ## Primitives -/

namespace Primitive

variable {m : Memory} {i : Image} {receiver v : Value} {args : List Value}

theorem mem_of_argument {k : Nat} (h : argument args k = .ok v) : v ∈ args := by
  unfold argument at h
  split at h
  · rename_i found
    cases h
    exact List.mem_of_getElem? found
  · cases h

theorem among_of_chosenBlock {callee : Callee} (h : chosenBlock i receiver args = .ok callee) :
    Among receiver args callee := by
  obtain ⟨condition, -, h⟩ := Checked.bind_eq_ok.1 h
  obtain ⟨chosen, given, h⟩ := Checked.bind_eq_ok.1 h
  obtain ⟨closure, block, h⟩ := Checked.bind_eq_ok.1 h
  have known := yields_expectBlock (i := i) chosen
  rw [block] at known
  have chosen : .block closure ∈ receiver :: args :=
    List.mem_cons_of_mem _ (known ▸ mem_of_argument given)
  have among := yields_matching chosen (List.forall_mem_nil (· ∈ args))
  rw [h] at among
  exact among

/-- **What a primitive does with any arguments:** it looks at no more of them than it takes, and
fails if one that it looks for is missing. -/
theorem apply_gives_or_fault (p : Primitive) (i : Image) (m : Memory) (receiver : Value)
    (args : List Value) :
    (∃ cause, p.apply i m receiver args = .fault cause m)
      ∨ ∃ first, first ⊆ args ∧ Gives m receiver first (p.apply i m receiver args) := by
  have none (arity : p.arity = 0) (same : p.apply i m receiver args = p.apply i m receiver []) :
      ∃ first, first ⊆ args ∧ Gives m receiver first (p.apply i m receiver args) :=
    ⟨[], List.nil_subset _, same ▸ p.apply_gives i m receiver arity.symm⟩
  have one (arity : p.arity = 1) (missing : ∃ cause, p.apply i m receiver [] = .fault cause m)
      (same : ∀ a rest, p.apply i m receiver (a :: rest) = p.apply i m receiver [a]) :
      (∃ cause, p.apply i m receiver args = .fault cause m)
        ∨ ∃ first, first ⊆ args ∧ Gives m receiver first (p.apply i m receiver args) := by
    cases args with
    | nil => exact .inl missing
    | cons a rest =>
      refine .inr ⟨[a], List.cons_subset.2 ⟨List.mem_cons_self, List.nil_subset _⟩, ?_⟩
      rw [same]
      exact p.apply_gives i m receiver arity.symm
  cases p with
  | blockValue | blockValue1 | blockValue2 =>
    exact .inr ⟨args, List.Subset.refl _, gives_enter yields_blockToEnter⟩
  | objectAsString | objectClassName | objectHash | objectBasicNew | integerAsFloat
  | floatAsInteger | stringAsArray | arraySize | booleanNot | characterAsInteger =>
    exact .inr (none rfl rfl)
  | arrayAtPut =>
    simp only [apply]
    cases put : arrayPut i m.store receiver args with
    | error e => exact .inl ⟨e, rfl⟩
    | ok place =>
      obtain ⟨r, k, v⟩ := place
      obtain ⟨-, index, rest, rfl, -⟩ := arrayPut_eq_ok put
      exact .inr ⟨_, List.Subset.refl _, .put r k (by simp)⟩
  | booleanIfTrueIfFalse =>
    simp only [apply]
    cases chosen : chosenBlock i receiver args with
    | error e => exact .inl ⟨e, rfl⟩
    | ok callee =>
      have among : Yields (Among receiver args) (.ok callee) := among_of_chosenBlock chosen
      exact .inr ⟨args, List.Subset.refl _, gives_enter among⟩
  | _ => exact one rfl (by cases receiver <;> exact ⟨_, rfl⟩) fun _ _ => rfl

end Primitive

/-! ## Instructions -/

section Instructions

variable {σ : Type} {d : Discipline σ} {w : σ} {machine : Machine} {m m' : Memory} {i : Image}
  {c : Call} {rest : List Call} {s s' : State} {receiver v : Value} {args below : List Value}

/-- What an instruction leaves and hands on is in order. -/
def Effect.InOrder (d : Discipline σ) (w : σ) (e : Effect) : Prop :=
  d.Leaves w e.memory (e.stack ++ e.values)

theorem Primitive.Gives.inOrder {reply : Reply} (h : Primitive.Gives m receiver args reply)
    (hm : d.InMemory w m) (hr : d.Fits w receiver) (ha : ∀ v ∈ args, d.Fits w v)
    (hb : ∀ v ∈ below, d.Fits w v) : (reply.effect below).InOrder d w := by
  have answers {m₁ : Memory} {u : Value} (hs : d.Leaves w m₁ (u :: below)) :
      ((Reply.answer u m₁).effect below).InOrder d w := by
    show d.Leaves w m₁ (u :: below ++ [])
    rwa [List.append_nil]
  have given {m₁ : Memory} {u : Value} (hm₁ : d.InMemory w m₁) (hu : d.Fits w u) :
      ((Reply.answer u m₁).effect below).InOrder d w :=
    answers (hm₁.leaves (List.forall_mem_cons.2 ⟨hu, hb⟩))
  cases h with
  | simple h => exact given hm (d.simple h)
  | element of h => exact given hm (hm.rows _ (d.array (of ▸ hr)) _ h)
  | string text => exact given (hm.congr rfl rfl) (d.simple trivial)
  | array h => exact answers (hm.newArray (fun v hv => d.simple (h v hv)) hb)
  | object of => exact answers (hm.instantiate _ hb)
  | put r place h => exact given (hm.set (ha _ h) r place) (ha _ h)
  | write transcript => exact given (hm.congr rfl rfl) hr
  | enter of h arity =>
    refine hm.leaves (List.forall_mem_append.2 ⟨hb, List.forall_mem_cons.2 ⟨?_, fun v hv => ?_⟩⟩)
    · rcases List.mem_cons.1 of with rfl | of
      · exact hr
      · exact ha _ of
    · exact ha v (h v hv)
  | fault h => exact hm.leaves (List.forall_mem_append.2 ⟨hb, List.forall_mem_nil _⟩)

theorem invoke_inOrder (i : Image) (code : Code) (hm : d.InMemory w m) (hr : d.Fits w receiver)
    (ha : ∀ v ∈ args, d.Fits w v) (hb : ∀ v ∈ below, d.Fits w v) :
    ((invoke i m receiver code args).effect below).InOrder d w := by
  rcases invoke_gives i m receiver code args with ⟨-, -, entered⟩ | gives
  · rw [entered]
    exact hm.leaves (List.forall_mem_append.2 ⟨hb, List.forall_mem_cons.2 ⟨hr, ha⟩⟩)
  · exact gives.inOrder hm hr ha hb

/-- A closure that a frame makes belongs to the frame, its home and its receiver. -/
theorem Memory.parts_of_closure {f : FrameId} {index : Nat} {closure : Closure Value}
    (made : m.closure f index = .ok closure) :
    closure.serial = m.serial ∧ closure.enclosing = f ∧ ∃ fr, m.frames.get? f = some fr
      ∧ closure.home = fr.home ∧ closure.receiver = fr.receiver := by
  obtain ⟨fr, here, made⟩ := Checked.bind_eq_ok.1 made
  obtain ⟨home, -, made⟩ := Checked.bind_eq_ok.1 made
  dsimp only at made
  split at made
  · cases made
    exact ⟨rfl, rfl, fr, frame_eq_ok here, rfl, rfl⟩
  · cases made

/-- The closure that the next step makes is one that the frame of the innermost call makes. -/
theorem State.closure?_eq_some {closure : Closure Value} :
    s.closure? = some closure ↔ ∃ c rest index next, s.calls.calls = c :: rest
      ∧ Instruction.decodeAt c.code.block.bytecode c.ip = .ok (some (.block index, next))
      ∧ s.memory.closure c.frame index.toNat = .ok closure := by
  unfold State.closure?
  constructor
  · intro h
    split at h
    · cases h
    · rename_i c rest innermost
      split at h
      · rename_i index next decoded
        refine ⟨c, rest, index, next, innermost, decoded, ?_⟩
        cases made : s.memory.closure c.frame index.toNat with
        | error e =>
          rw [made] at h
          cases h
        | ok c' =>
          rw [made] at h
          cases h
          rfl
      · cases h
  · rintro ⟨c, rest, index, next, innermost, decoded, made⟩
    simp only [innermost, decoded, made]
    rfl

namespace Call

theorem Fetches.fits (h : c.Fetches i m v) (hm : d.InMemory w m) (ht : d.Fits w i.transcript) :
    d.Fits w v := by
  cases h with
  | simple h => exact d.simple h
  | @global name _ h =>
    obtain rfl | rfl | ⟨cls, -, rfl⟩ := Image.lookup_cases h
    · exact d.simple trivial
    · exact ht
    · exact d.cls
  | self here => exact (hm.frames _ _ here).receiver
  | slot here hv => exact (hm.frames _ _ here).locals v hv
  | field here object hv =>
    exact hm.rows _ (d.object (object ▸ (hm.frames _ _ here).receiver)) v hv

/-- **Instructions keep values in order**, if the closure that one makes is. -/
theorem Does.inOrder {instruction : Instruction} {effect : Effect}
    (h : c.Does i m instruction effect) (hm : d.InMemory w m)
    (hs : ∀ v ∈ c.stack, d.Fits w v) (ht : d.Fits w i.transcript)
    (new : ∀ index closure, instruction = .block index →
      m.closure c.frame index.toNat = .ok closure → d.Fits w closure.receiver →
      d.Fits w (.block closure)) :
    effect.InOrder d w := by
  have next {stack : List Value} {m₁ : Memory} (h : d.Leaves w m₁ stack) :
      (Effect.next stack m₁).InOrder d w := by
    show d.Leaves w m₁ (stack ++ [])
    rwa [List.append_nil]
  have top {v : Value} {below : List Value} (operands : c.stack = v :: below) :
      d.Fits w v ∧ ∀ u ∈ below, d.Fits w u :=
    List.forall_mem_cons.1 (operands ▸ hs)
  cases h with
  | push fetched =>
    exact next (hm.leaves (List.forall_mem_cons.2 ⟨fetched.fits hm ht, hs⟩))
  | array operands =>
    rw [operands] at hs
    obtain ⟨taken, below⟩ := List.forall_mem_append.1 hs
    refine next (hm.newArray (fun v hv => taken v ?_) below)
    exact List.mem_reverse.2 (Array.mem_toList_iff.2 hv)
  | pop operands => exact next (hm.leaves (top operands).2)
  | storeField operands found => exact next ((hm.set (top operands).1 _ _).leaves hs)
  | storeLocal operands found => exact next ((hm.setLocal (top operands).1 _ _).leaves hs)
  | block made =>
    have pinned : d.InMemory w
        { m with frames := m.frames.pin c.frame, serial := m.serial + 1 } := by
      refine hm.reframe rfl fun f fr here => hm.frames f fr ?_
      rwa [Arena.get?_pin] at here
    obtain ⟨-, -, fr, here, -, receiver⟩ := Memory.parts_of_closure made
    have hr := receiver ▸ (hm.frames _ fr here).receiver
    exact next (pinned.leaves (List.forall_mem_cons.2 ⟨new _ _ rfl made hr, hs⟩))
  | debug file position =>
    exact next ((hm.setPlace _ _).leaves hs)
  | finish operands | escape operands =>
    obtain ⟨hv, hb⟩ := top operands
    exact hm.leaves (List.forall_mem_append.2 ⟨hb, List.forall_mem_singleton.2 hv⟩)
  | send selects operands logged replies =>
    rw [operands] at hs
    obtain ⟨given, taken⟩ := List.forall_mem_append.1 hs
    obtain ⟨hr, hb⟩ := List.forall_mem_cons.1 taken
    rw [← replies]
    exact invoke_inOrder i _ (hm.log logged) hr (fun v hv => given v (List.mem_reverse.2 hv)) hb
  | fault cause => exact hm.leaves (List.forall_mem_append.2 ⟨hs, List.forall_mem_nil _⟩)

/-- The value that a call ends with, and the operands that it leaves. -/
theorem Ends.fits {left : List Value} (h : c.Ends m v left) (hm : d.InMemory w m)
    (hs : ∀ v ∈ c.stack, d.Fits w v) : d.Fits w v ∧ ∀ u ∈ left, d.Fits w u := by
  cases h with
  | ranOut decoded last operands =>
    refine ⟨?_, operands ▸ hs⟩
    obtain operand | ⟨fr, here, rfl⟩ := Machine.lastValue_eq_ok last
    · exact hs v operand
    · exact (hm.frames _ _ here).receiver
  | ret decoded operands | blockReturn decoded operands =>
    rw [operands] at hs
    exact List.forall_mem_cons.1 hs

end Call

/-! ## Steps -/

theorem Callee.inFrame {callee : Callee} (h : ∀ v ∈ callee.values, d.Fits w v)
    (invoking : Option FrameId) (id : FrameId) : d.InFrame w (callee.frame invoking id) := by
  have slots {code : Code} {args : List Value} (ha : ∀ v ∈ args, d.Fits w v) :
      ∀ v ∈ Frame.slots .nil code args, d.Fits w v := fun v hv => by
    rcases Array.mem_append.1 hv with hv | hv
    · exact ha v (List.mem_toArray.1 hv)
    · rw [Array.eq_of_mem_replicate hv]
      exact d.simple trivial
  cases callee with
  | method code receiver args =>
    obtain ⟨hr, ha⟩ := List.forall_mem_cons.1 h
    exact ⟨slots ha, hr, List.forall_mem_nil _⟩
  | block closure args =>
    obtain ⟨hc, ha⟩ := List.forall_mem_cons.1 h
    exact ⟨slots ha, d.receiver hc, List.forall_mem_nil _⟩

theorem Discipline.InMemory.alloc (h : d.InMemory w m) (tidy : m.frames.Tidy) {callee : Callee}
    (hc : ∀ v ∈ callee.values, d.Fits w v) {invoking : Option FrameId} {frame : FrameId}
    (made : m.frames.alloc (callee.frame invoking) = (m'.frames, frame))
    (store : m'.store = m.store) : d.InMemory w m' := by
  refine h.reframe store fun f fr here => ?_
  have arena : m'.frames = (m.frames.alloc (callee.frame invoking)).1 := by rw [made]
  rw [arena] at here
  rcases Arena.get?_of_alloc tidy _ here with ⟨-, rfl⟩ | here
  · exact callee.inFrame hc _ _
  · exact h.frames f fr here

/-- **A step that does not fail keeps values in order**, if the closure that it makes is. -/
theorem Call.Takes.inOrder (h : c.Takes machine m rest s') (hm : d.InMemory w m)
    (hs : ∀ e ∈ c :: rest, ∀ v ∈ e.stack, d.Fits w v) (tidy : m.frames.Tidy)
    (ht : d.Fits w machine.image.transcript)
    (new : ∀ index next closure, Instruction.decodeAt c.code.block.bytecode c.ip
        = .ok (some (.block index, next)) →
      m.closure c.frame index.toNat = .ok closure → d.Fits w closure.receiver →
      d.Fits w (.block closure)) :
    ∃ w', d.Grows w w' ∧ d.InState w' s' := by
  obtain ⟨hc, hrest⟩ := List.forall_mem_cons.1 hs
  have later {w' : σ} (more : d.Grows w w') (e : Call) (he : e ∈ rest)
      (v : Value) (hv : v ∈ e.stack) : d.Fits w' v :=
    more.fits (hrest e he v hv)
  have does {i : Instruction} {next : Nat} {effect : Effect} {m₀ : Memory}
      (decoded : Instruction.decodeAt c.code.block.bytecode c.ip = .ok (some (i, next)))
      (before : m.Logs m₀) (executed : (c.moved next).execute machine.image m₀ i = effect) :
      effect.InOrder d w := by
    refine (executed ▸ (c.moved next).execute_does machine.image m₀ i).inOrder (hm.log before) hc ht
      fun index closure block made => ?_
    subst block
    rw [Memory.closure_congr before.frames before.data.serial] at made
    exact new index next closure decoded made
  cases h with
  | @next i next stack m₀ m₁ m' decoded before effect after =>
    obtain ⟨w', more, ordered, values⟩ := does decoded before effect
    refine ⟨w', more, ordered.log after, List.forall_mem_cons.2 ⟨fun v hv => ?_, later more⟩⟩
    exact values v (List.mem_append_left _ hv)
  | @enter i next stack callee frame m₀ m₁ m' decoded before effect made data =>
    obtain ⟨w', more, ordered, values⟩ := does decoded before effect
    obtain ⟨stacked, given⟩ := List.forall_mem_append.1 values
    have tidy : m₁.frames.Tidy := by
      rw [frames_of_enter effect, before.frames]
      exact tidy
    refine ⟨w', more, ordered.alloc tidy given made data.store, ?_⟩
    exact List.forall_mem_cons.2 ⟨List.forall_mem_nil _,
      List.forall_mem_cons.2 ⟨stacked, later more⟩⟩
  | @leave v last past outer m₀ m' before ends same split left =>
    have hm₀ := hm.log before
    obtain ⟨hv, hlast⟩ := ends.fits hm₀ hc
    have hrest : ∀ e ∈ past ++ outer, ∀ v ∈ e.stack, d.Fits w v := split ▸ hrest
    obtain ⟨hpast, houter⟩ := List.forall_mem_append.1 hrest
    refine ⟨w, .same, ?_, ?_⟩
    · rcases left with ⟨-, rfl⟩ | ⟨-, rfl⟩
      · exact hm₀.leave hlast
      · exact hm₀.leaveReturning (List.forall_mem_cons.2 ⟨hlast, hpast⟩)
    · cases outer with
      | nil => exact List.forall_mem_nil _
      | cons e outer =>
        obtain ⟨first, others⟩ := List.forall_mem_cons.1 houter
        exact List.forall_mem_cons.2 ⟨List.forall_mem_cons.2 ⟨hv, first⟩, others⟩

theorem Discipline.InState.stall (h : d.InState w s) (stalls : s.Stalls s') : d.InState w s' := by
  cases stalls with
  | here logs => exact ⟨h.memory.log logs, h.calls⟩
  | within innermost taken logs =>
    have all := h.calls
    rw [innermost] at all
    obtain ⟨first, others⟩ := List.forall_mem_cons.1 all
    exact ⟨h.memory.log logs,
      List.forall_mem_cons.2 ⟨fun v hv => first v (taken.subset hv), others⟩⟩

end Instructions

/-! ## Sessions -/

namespace Session

variable {σ : Type} {d : Discipline σ} {w w' : σ} {machine : Machine} {m : Memory} {i : Image}
  {x x' : Session}

/-- Everything in the session is in order. -/
structure InOrder (d : Discipline σ) (machine : Machine) (w : σ) (x : Session) : Prop where
  state : d.InState w x.state
  transcript : d.Fits w machine.image.transcript
  host : ∀ v ∈ x.host, d.Fits w v

/-- Memory has changed, and the host has got values. -/
theorem InOrder.memory {m : Memory} {calls : CallStack} {host : List Value} {h : History}
    (new : List Value) (hm : d.Leaves w m new) (hc : ∀ c ∈ calls.calls, ∀ v ∈ c.stack, d.Fits w v)
    (ht : d.Fits w machine.image.transcript) (hh : ∀ v ∈ host, d.Fits w v) :
    ∃ w', d.Grows w w' ∧ InOrder d machine w' ⟨⟨m, calls⟩, new ++ host, h⟩ := by
  obtain ⟨w', more, ordered, values⟩ := hm
  exact ⟨w', more, ⟨ordered, fun c hc' v hv => more.fits (hc c hc' v hv)⟩, more.fits ht,
    List.forall_mem_append.2 ⟨values, fun v hv => more.fits (hh v hv)⟩⟩

theorem Asks.inOrder {host : List Value} {reply : Reply} (asks : Asks i m host reply)
    (hm : d.InMemory w m) (hh : ∀ v ∈ host, d.Fits w v) : (reply.effect []).InOrder d w := by
  cases asks with
  | method code hr ha =>
    exact invoke_inOrder i code hm (hh _ hr) (fun v hv => hh v (ha v hv)) (List.forall_mem_nil _)
  | @primitive receiver args p hr ha =>
    rcases p.apply_gives_or_fault i m receiver args with ⟨cause, fault⟩ | ⟨first, sub, gives⟩
    · rw [fault]
      exact hm.leaves (List.forall_mem_nil _)
    · exact gives.inOrder hm (hh _ hr) (fun v hv => hh v (ha v (sub hv))) (List.forall_mem_nil _)

/-- The closure that a step makes is written down. -/
theorem closures_of_step {s s' : State} {h : History} {c : Closure Value}
    (made : s.closure? = some c) :
    ((h.making s).calling s s').closures = c :: h.closures := by
  rw [closures_calling.2.2, History.making, (step_of_closure? default made).1, made]

/-- A step that makes no closure. -/
theorem closures_of_step_none {s s' : State} {h : History} (made : s.closure? = none) :
    ((h.making s).calling s s').closures = h.closures := by
  rw [closures_calling.2.2, History.making, made]
  split <;> simp_all

/-- **Every move keeps values in order**, if the closure that it makes is. -/
theorem Move.inOrder (hm : Move machine x x') (h : x.InOrder d machine w)
    (tidy : x.state.memory.frames.Tidy)
    (new : ∀ c, x'.history.closures = c :: x.history.closures → d.Fits w c.receiver →
      d.Fits w (.block c)) :
    ∃ w', d.Grows w w' ∧ x'.InOrder d machine w' := by
  obtain ⟨ordered, transcript, held⟩ := h
  have same {y : Session} (hy : y.InOrder d machine w) :
      ∃ w', d.Grows w w' ∧ y.InOrder d machine w' := ⟨w, .same, hy⟩
  cases hm with
  | @step s s' host h hs =>
    obtain ⟨c, rest, innermost, takes⟩ := machine.exists_takes (s := s) (by simp [hs])
    rw [hs] at takes
    obtain ⟨w', more, after⟩ := Call.Takes.inOrder takes ordered.memory
      (innermost ▸ ordered.calls) tidy transcript fun index next closure decoded made =>
        new closure (closures_of_step
          (State.closure?_eq_some.2 ⟨c, rest, index, next, innermost, decoded, made⟩))
    exact ⟨w', more, after, more.fits transcript, fun v hv => more.fits (held v hv)⟩
  | @finish s s' v host h hs =>
    obtain ⟨c, rest, innermost, takes⟩ := machine.exists_takes (s := s) (by simp [hs])
    have calls := innermost ▸ ordered.calls
    rw [hs] at takes
    obtain ⟨takes, m₀, left, logs, ends⟩ := takes
    -- a block instruction does not end the call
    obtain ⟨w', more, after⟩ := takes.inOrder ordered.memory calls tidy transcript
      fun index next closure decoded made => by
        obtain ⟨-, -, s'', running, -⟩ := step_of_closure? machine
          (State.closure?_eq_some.2 ⟨c, rest, index, next, innermost, decoded, made⟩)
        rw [hs] at running
        cases running
    have hv := (ends.fits (ordered.memory.log logs) (calls c List.mem_cons_self)).1
    exact ⟨w', more, after, more.fits transcript,
      List.forall_mem_cons.2 ⟨more.fits hv, fun v hv => more.fits (held v hv)⟩⟩
  | @fail s s' f _ _ hs =>
    have stalls := machine.step_stalls s
    rw [hs] at stalls
    exact same ⟨ordered.stall stalls, transcript, held⟩
  | abandon =>
    exact same ⟨⟨ordered.memory.dropAll ordered.calls, List.forall_mem_nil _⟩, transcript, held⟩
  | @answer _ _ _ v _ _ asks =>
    exact InOrder.memory [v] (asks.inOrder ordered.memory held) ordered.calls transcript held
  | @enter m m' calls callee s' _ _ asks hs =>
    obtain ⟨rfl, -⟩ := asks.spares
    obtain ⟨w', more, after, values⟩ := asks.inOrder ordered.memory held
    obtain rfl := Machine.enter_eq_running hs
    have made : d.InMemory w' { m' with
        frames := (m'.frames.alloc (callee.frame calls.current?)).1 } :=
      after.alloc tidy values rfl rfl
    refine ⟨w', more, ⟨?_, ?_⟩, more.fits transcript, fun v hv => more.fits (held v hv)⟩
    · exact made.congr (Memory.frames_trace _ _) (Memory.store_trace _ _)
    · exact List.forall_mem_cons.2 ⟨List.forall_mem_nil _,
        fun c hc v hv => more.fits (ordered.calls c hc v hv)⟩
  | @plain s v _ _ hv =>
    refine same ⟨ordered, transcript, List.forall_mem_cons.2 ⟨?_, held⟩⟩
    rcases hv with plain | rfl
    · cases v <;> first | exact plain.elim | exact d.cls | exact d.simple trivial
    · exact transcript
  | string =>
    exact InOrder.memory [_] (Discipline.InMemory.leaves (ordered.memory.congr rfl rfl)
      (List.forall_mem_singleton.2 (d.simple trivial))) ordered.calls transcript held
  | array hv =>
    exact InOrder.memory [_] (ordered.memory.newArray (fun v h => held v (hv v h))
      (List.forall_mem_nil _)) ordered.calls transcript held
  | object cls =>
    exact InOrder.memory [_] (ordered.memory.instantiate cls (List.forall_mem_nil _))
      ordered.calls transcript held
  | @read s v u r _ _ hv names hu =>
    have live : d.Live w r := by
      cases v with
      | array r' =>
        cases names
        exact d.array (held _ hv)
      | object cls r' =>
        cases names
        exact d.object (held _ hv)
      | _ => exact names.elim
    exact same ⟨ordered, transcript,
      List.forall_mem_cons.2 ⟨ordered.memory.rows r live u hu, held⟩⟩
  | write hw =>
    exact same ⟨⟨ordered.memory.set (held _ hw) _ _, ordered.calls⟩, transcript, held⟩
  | forget sub => exact same ⟨ordered, transcript, fun v hv => held v (sub v hv)⟩
  | @census s host _ =>
    refine same ⟨⟨ordered.memory.reframe rfl fun f fr here => ordered.memory.frames f fr ?_,
      ordered.calls⟩, transcript, held⟩
    rw [Machine.census_frames] at here
    exact (Arena.sheds_abandonPins _ _).get? here

/-- What a session holds is in order. -/
theorem Holds.fits (h : x.InOrder d machine w) {v : Value} (hv : x.Holds v) : d.Fits w v := by
  induction hv with
  | host hv => exact h.host _ hv
  | operand hc hv => exact h.state.calls _ hc _ hv
  | slot here hv => exact (h.state.memory.frames _ _ here).locals _ hv
  | self here => exact (h.state.memory.frames _ _ here).receiver
  | left here hv => exact (h.state.memory.frames _ _ here).left _ hv
  | @element v u r _ names hu ih =>
    have live : d.Live w r := by
      cases v with
      | array r' =>
        cases names
        exact d.array ih
      | object cls r' =>
        cases names
        exact d.object ih
      | _ => exact names.elim
    exact h.state.memory.rows r live u hu
  | receiver _ ih => exact d.receiver ih

end Session

end Colloquy
