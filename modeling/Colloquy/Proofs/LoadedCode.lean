import Colloquy.Proofs.Compile.Loading
import Colloquy.Proofs.HostCalls
import Colloquy.Proofs.Primitives
import Colloquy.Proofs.Twin.Images

/-!
# Where running code comes from

A machine runs the code that was loaded into it and no other: code is found in the class of a
receiver, in a closure, or in the table of a method, and values, frames and rows only ever get the
classes and the code that they can reach.  With `ms` the methods that were loaded, by number, code
is *of* `ms` if it is a method of `ms` or nested in one (`Code.Of`).

Main statements: what is loaded is of the methods of the program (`Image.of_load`), a step keeps
everything of them (`Machine.step_of`), and so does every request of a host (`Machine.serve_of`).
-/

namespace Colloquy

variable {ms : List Block}

/-- The code is that of a method, or of a block nested in one. -/
def Code.Of (ms : List Block) (c : Code) : Prop := codeAt ms c.id = some c.block

/-- All methods of the class are methods of `ms`, inherited ones included. -/
def Class.Of (ms : List Block) (c : Class) : Prop :=
  ∀ info ∈ c.chain, ∀ (selector : String) (code : Code),
    info.methods[selector]? = some code → code.Of ms

/-- The classes and the code that the value holds are of `ms`. -/
def Value.Of (ms : List Block) : Value → Prop
  | .object c _ | .cls c => c.Of ms
  | .block ⟨_, code, _, _, receiver⟩ => code.Of ms ∧ receiver.Of ms
  | _ => True

structure Frame.Of (ms : List Block) (fr : Frame Value) : Prop where
  code : fr.code.Of ms
  locals : ∀ v ∈ fr.locals, v.Of ms
  receiver : fr.receiver.Of ms
  left : ∀ v ∈ fr.left, v.Of ms

structure Call.Of (ms : List Block) (c : Call) : Prop where
  code : c.code.Of ms
  stack : ∀ v ∈ c.stack, v.Of ms

structure Memory.Of (ms : List Block) (m : Memory) : Prop where
  rows : ∀ r, ∀ v ∈ m.store.row r, v.Of ms
  frames : ∀ f fr, m.frames.get? f = some fr → fr.Of ms

structure State.Of (ms : List Block) (s : State) : Prop where
  memory : s.memory.Of ms
  calls : ∀ c ∈ s.calls.calls, c.Of ms

structure Image.Of (ms : List Block) (i : Image) : Prop where
  classes : ∀ cls ∈ i.classes, cls.Of ms
  byName : ∀ (name : String) (cls : Class), i.byName[name]? = some cls → cls.Of ms
  known : ∀ v, (∀ cls r, v ≠ .object cls r) → (∀ cls, v ≠ .cls cls) → (i.classOf v).Of ms
  transcript : i.transcript.Of ms

/-! ## What is found -/

theorem Value.of_block {c : Closure Value} :
    (Value.block c).Of ms ↔ c.code.Of ms ∧ c.receiver.Of ms := by
  cases c
  rfl

theorem Value.Simple.of {v : Value} (h : v.Simple) : v.Of ms := by
  cases v with
  | array r | object c r | block c | cls c => exact h.elim
  | _ => trivial

theorem Code.Of.nested {c inner : Code} (h : c.Of ms) {k : Nat} (hk : c.nested? k = some inner) :
    inner.Of ms := by
  obtain ⟨b, hb, rfl⟩ := Option.map_eq_some_iff.1 hk
  show (codeAt ms c.id).bind (·.blocks[k]?) = some b
  rw [h, Option.bind_some, hb]

theorem Class.Of.lookup {c : Class} (h : c.Of ms) {selector : String} {code : Code}
    (found : c.lookup selector = some code) : code.Of ms := by
  obtain ⟨_, info, _, here, hcode, -⟩ := List.findSome?_eq_some_iff.1 found
  exact h info (by simp [here]) selector code hcode

theorem Class.Of.superclass {c above : Class} (h : c.Of ms) (up : c.superclass? = some above) :
    above.Of ms := by
  unfold Class.superclass? at up
  split at up
  · cases up
  · rename_i info rest hrest
    cases up
    intro i hi
    refine h i (List.mem_cons_of_mem _ ?_)
    rw [hrest]
    exact hi

namespace Image.Of

variable {i : Image} (h : i.Of ms)
include h

theorem classOf {v : Value} (hv : v.Of ms) : (i.classOf v).Of ms := by
  cases v with
  | object c r => exact hv
  | cls c => exact hv
  | _ => exact h.known _ (by simp) (by simp)

omit h in
theorem methodFrom {start : Class} (hs : start.Of ms) {whom selector : String} {v : Value}
    {code : Code} (found : i.methodFrom start whom v selector = .ok code) : code.Of ms := by
  unfold Image.methodFrom at found
  split at found
  · cases found
  · rename_i code' here
    split at found
    · cases found
    · split at found
      · cases found
      · cases found
        exact hs.lookup here

theorem method {v : Value} (hv : v.Of ms) {selector : String} {code : Code}
    (found : i.method v selector = .ok code) : code.Of ms :=
  methodFrom (h.classOf hv) found

theorem superMethod {sender code : Code} {v : Value} {selector : String}
    (found : i.superMethod sender v selector = .ok code) : code.Of ms := by
  unfold Image.superMethod at found
  split at found
  · cases found
  · rename_i owner howner
    obtain ⟨k, -, hk⟩ := Option.bind_eq_some_iff.1 howner
    have hof := h.classes owner (Array.mem_of_getElem? hk)
    split at found
    · cases found
    · rename_i above up
      exact methodFrom (hof.superclass up) found

theorem lookup {name : String} {v : Value} (found : i.lookup name = some v) : v.Of ms := by
  obtain rfl | rfl | ⟨cls, hcls, rfl⟩ := Image.lookup_cases found
  · trivial
  · exact h.transcript
  · exact h.byName name cls hcls

end Image.Of

/-! ## Loading -/

/-- What holds of all entries of a map, and of a new one, holds of all entries afterwards. -/
theorem forall_insert {α : Type} {P : α → Prop} {map : Std.HashMap String α} {a : α}
    (h : ∀ (k : String) (b : α), map[k]? = some b → P b) (ha : P a) (key k : String) (b : α)
    (hb : (map.insert key a)[k]? = some b) : P b := by
  rw [Std.HashMap.getElem?_insert] at hb
  split at hb
  · cases hb
    exact ha
  · exact h k b hb

namespace Image

structure Loader.Of (ms : List Block) (l : Loader) : Prop where
  classes : ∀ cls ∈ l.classes, cls.Of ms
  byName : ∀ (name : String) (cls : Class), l.byName[name]? = some cls → cls.Of ms

theorem linkAll_of {cls : ClassId} {ps : List (Nat × Block)} (known : ∀ p ∈ ps, ms[p.1]? = some p.2)
    {table : Std.HashMap String Code} {owners : Std.HashMap Nat ClassId} {log : Log}
    (ht : ∀ (selector : String) (code : Code), table[selector]? = some code → code.Of ms)
    (selector : String) (code : Code)
    (found : (linkAll cls ps table owners log).1[selector]? = some code) : code.Of ms := by
  induction ps generalizing table owners log with
  | nil => exact ht selector code found
  | cons p rest ih =>
    obtain ⟨number, block⟩ := p
    obtain ⟨here, later⟩ := List.forall_mem_cons.1 known
    have linked : (link cls number block owners log).1.Of ms := by
      unfold link
      split <;> exact here
    exact ih later (forall_insert ht linked _) found

theorem install_of {l l' : Loader} (h : l.Of ms) {c : LoadClass}
    (known : ∀ p ∈ c.methods, ms[p.1]? = some p.2) (installed : install l c = .ok l') :
    l'.Of ms := by
  unfold install at installed
  split at installed
  · cases installed
  · rename_i above inherits
    cases installed
    have inherited : ∀ info ∈ above, ∀ (selector : String) (code : Code),
        info.methods[selector]? = some code → code.Of ms := by
      unfold inherited at inherits
      split at inherits
      · cases inherits
        exact List.forall_mem_nil _
      · split at inherits
        · rename_i cls hcls
          cases inherits
          exact h.byName _ cls hcls
        · cases inherits
    have new : Class.Of ms ⟨⟨l.classes.size, c.name, c.fields,
        (linkAll l.classes.size c.methods {} l.owners l.log).1⟩, above⟩ :=
      List.forall_mem_cons.2 ⟨linkAll_of known (by simp), inherited⟩
    refine ⟨fun cls hcls => ?_, forall_insert h.byName new _⟩
    rcases Array.mem_push.1 hcls with hcls | rfl
    · exact h.classes cls hcls
    · exact new

theorem installAll_of {cs : List LoadClass} {l l' : Loader} {log : Log} (h : l.Of ms)
    (known : ∀ c ∈ cs, ∀ p ∈ c.methods, ms[p.1]? = some p.2)
    (installed : installAll cs l = (log, .ok l')) : l'.Of ms := by
  induction cs generalizing l with
  | nil =>
    cases installed
    exact h
  | cons c rest ih =>
    obtain ⟨first, later⟩ := List.forall_mem_cons.1 known
    rw [installAll] at installed
    split at installed
    · cases installed
    · rename_i l₁ hl₁
      exact ih (install_of h first hl₁) later installed

end Image

namespace Memory.Of

variable {m m' : Memory} {v : Value}

theorem congr (h : m.Of ms) (frames : m'.frames = m.frames) (store : m'.store = m.store) :
    m'.Of ms :=
  ⟨store ▸ h.rows, frames ▸ h.frames⟩

theorem add (h : m.Of ms) {values : Array Value} (hv : ∀ v ∈ values, v.Of ms)
    (frames : m'.frames = m.frames) (store : m'.store = (m.store.add values).1) : m'.Of ms := by
  refine ⟨fun r v hr => ?_, frames ▸ h.frames⟩
  rw [store] at hr
  by_cases he : r = (m.store.add values).2
  · rw [he, Store.row_add_self] at hr
    exact hv v hr
  · rw [Store.row_add_of_ne he] at hr
    exact h.rows r v hr

theorem set (h : m.Of ms) (hv : v.Of ms) (r : Ref) (k : Nat) :
    Memory.Of ms { m with store := m.store.set r k v } := by
  refine ⟨fun q w hw => ?_, h.frames⟩
  by_cases he : r = q
  · dsimp only at hw
    rw [he, Store.row_set_self] at hw
    rcases Array.mem_or_eq_of_mem_setIfInBounds hw with hw | rfl
    · exact h.rows q w hw
    · exact hv
  · dsimp only at hw
    rw [Store.row_set_of_ne he] at hw
    exact h.rows q w hw

theorem instantiate (h : m.Of ms) (cls : Class) :
    Memory.Of ms { m with store := (Image.instantiate m.store cls).1 } :=
  h.add (fun v hv => by rw [Array.eq_of_mem_replicate hv]; trivial) rfl rfl

/-- What is logged does not matter. -/
theorem relog (h : m.Of ms) (logs : m.Logs m') : m'.Of ms :=
  h.congr logs.frames logs.data.store

theorem trace (h : m.Of ms) (line : Memory → String) : (m.trace line).Of ms :=
  h.relog (.trace m line)

theorem modify (h : m.Of ms) (id : FrameId) {g : Frame Value → Frame Value}
    (hg : ∀ fr, fr.Of ms → (g fr).Of ms) (frames : m'.frames = m.frames.modify id g)
    (store : m'.store = m.store) : m'.Of ms := by
  refine ⟨store ▸ h.rows, fun f fr hf => ?_⟩
  rw [frames, Arena.get?_modify] at hf
  split at hf
  · obtain ⟨old, hold, rfl⟩ := Option.map_eq_some_iff.1 hf
    exact hg old (h.frames _ old hold)
  · exact h.frames f fr hf

theorem setLocal (h : m.Of ms) (hv : v.Of ms) (id : FrameId) (slot : Nat) :
    (m.setLocal id slot v).Of ms := by
  refine h.modify id (g := fun f => { f with locals := f.locals.setIfInBounds slot v })
    (fun fr hf => ⟨hf.code, fun w hw => ?_, hf.receiver, hf.left⟩) rfl rfl
  rcases Array.mem_or_eq_of_mem_setIfInBounds hw with hw | rfl
  · exact hf.locals w hw
  · exact hv

theorem setPlace (h : m.Of ms) (id : FrameId) (place : Place) : (m.setPlace id place).Of ms :=
  h.modify id (g := fun f => { f with place })
    (fun _ hf => ⟨hf.code, hf.locals, hf.receiver, hf.left⟩) rfl rfl

/-- Fewer frames are still of the same methods. -/
theorem fewer (h : m.Of ms)
    (frames : ∀ f fr, m'.frames.get? f = some fr → m.frames.get? f = some fr)
    (store : m'.store = m.store) : m'.Of ms :=
  ⟨store ▸ h.rows, fun f fr hf => h.frames f fr (frames f fr hf)⟩

theorem frame (h : m.Of ms) {f : FrameId} {fr : Frame Value} (hf : m.frame f = .ok fr) :
    fr.Of ms := by
  unfold Memory.frame at hf
  split at hf
  · cases hf
    exact h.frames f fr ‹_›
  · cases hf

end Memory.Of

theorem Image.finish_of {l : Loader} (h : l.Of ms) {image : Image} {store : Store}
    (finished : finish l = .ok (image, store)) :
    image.Of ms ∧ ∀ transcript, (Machine.start store transcript).Of ms := by
  obtain ⟨known, hknown, finished⟩ := Checked.bind_eq_ok.1 finished
  obtain ⟨cls, hcls, finished⟩ := Checked.bind_eq_ok.1 finished
  cases finished
  have named {cls : Class} (hc : ∃ name : String, l.byName[name]? = some cls) : cls.Of ms :=
    hc.elim fun name hn => h.byName name cls hn
  have builtin := Direct.knownClasses_eq_ok hknown
  simp only [List.forall_mem_cons] at builtin
  obtain ⟨h₁, h₂, h₃, h₄, h₅, h₆, h₇, h₈, -⟩ := builtin
  refine ⟨⟨h.classes, h.byName, fun v hobject hclass => ?_,
    h.byName _ cls (Direct.required_eq_ok hcls)⟩, fun transcript => ⟨?_, List.forall_mem_nil _⟩⟩
  · cases v with
    | nil => exact named h₁
    | bool b => exact named h₂
    | int n => exact named h₃
    | float f => exact named h₄
    | char c => exact named h₅
    | string id text => exact named h₆
    | array r => exact named h₇
    | block c => exact named h₈
    | object cls r => exact absurd rfl (hobject cls r)
    | cls c => exact absurd rfl (hclass c)
  · have empty : Memory.Of ms { transcript } :=
      ⟨fun r v hv => by simp [Store.row] at hv, fun f fr hf => by simp [Arena.get?] at hf⟩
    exact empty.instantiate cls

/-- **What is loaded is of the methods of the program.** -/
theorem Image.of_load {cs : List CompiledClass} {image : Image} {store : Store} {log : Log}
    (loaded : Image.load (LoadClass.ofProgram cs 0).1 = (log, .ok (image, store))) :
    image.Of (cs.flatMap (·.methods))
      ∧ ∀ transcript, (Machine.start store transcript).Of (cs.flatMap (·.methods)) := by
  have placed (before rest : List CompiledClass) (next : Nat)
      (count : next = (before.flatMap (·.methods)).length) :
      ∀ c ∈ (LoadClass.ofProgram rest next).1, ∀ p ∈ c.methods,
        ((before ++ rest).flatMap (·.methods))[p.1]? = some p.2 := by
    induction rest generalizing before next with
    | nil => exact List.forall_mem_nil _
    | cons c rest ih =>
      refine List.forall_mem_cons.2 ⟨fun p hp => ?_, ?_⟩
      · obtain ⟨⟨b, n⟩, hmem, rfl⟩ := List.mem_map.1 hp
        obtain ⟨hle, hb⟩ := List.mem_zipIdx_iff_le_and_getElem?_sub.1 hmem
        obtain ⟨hlt, -⟩ := List.getElem?_eq_some_iff.1 hb
        rw [List.flatMap_append, List.flatMap_cons,
          List.getElem?_append_right (count ▸ hle), ← count, List.getElem?_append_left hlt, hb]
      · have later := ih (before ++ [c]) (next + c.methods.length) (by simp [count])
        rwa [List.append_assoc] at later
  obtain ⟨_, l, installed, finished⟩ := Direct.load_eq_ok loaded
  exact finish_of (installAll_of ⟨by simp, by simp⟩ (placed [] cs 0 rfl) installed) finished

/-! ## Replies -/

def Callee.Of (ms : List Block) : Callee → Prop
  | .method code receiver args => code.Of ms ∧ receiver.Of ms ∧ ∀ v ∈ args, v.Of ms
  | .block c args => (Value.block c).Of ms ∧ ∀ v ∈ args, v.Of ms

def Reply.Of (ms : List Block) : Reply → Prop
  | .answer v m => v.Of ms ∧ m.Of ms
  | .enter callee m => callee.Of ms ∧ m.Of ms
  | .fault _ m => m.Of ms

variable {m m' : Memory} {receiver v : Value} {args : List Value} {i : Image} {c : Call}

theorem Primitive.Gives.of {reply : Reply} (h : Primitive.Gives m receiver args reply)
    (hm : m.Of ms) (hr : receiver.Of ms) (ha : ∀ v ∈ args, v.Of ms) : reply.Of ms := by
  cases h with
  | simple h => exact ⟨h.of, hm⟩
  | element of h => exact ⟨hm.rows _ _ h, hm⟩
  | string text => exact ⟨trivial, hm.congr rfl rfl⟩
  | array h => exact ⟨trivial, hm.add (fun v hv => (h v hv).of) rfl rfl⟩
  | object of =>
    subst of
    exact ⟨hr, hm.instantiate _⟩
  | put r place h => exact ⟨ha _ h, hm.set (ha _ h) r place⟩
  | write transcript => exact ⟨hr, hm.congr rfl rfl⟩
  | enter of h arity =>
    refine ⟨⟨?_, fun v hv => ha v (h v hv)⟩, hm⟩
    rcases List.mem_cons.1 of with rfl | of
    · exact hr
    · exact ha _ of
  | fault h => exact hm

/-- **Calling a method of `ms`** gives values of `ms`, or enters code of `ms`. -/
theorem invoke_of (i : Image) {code : Code} (hc : code.Of ms) (hm : m.Of ms) (hr : receiver.Of ms)
    (ha : ∀ v ∈ args, v.Of ms) : (invoke i m receiver code args).Of ms := by
  rcases invoke_gives i m receiver code args with ⟨-, -, entered⟩ | gives
  · rw [entered]
    exact ⟨⟨hc, hr, ha⟩, hm⟩
  · exact gives.of hm hr ha

/-! ## Effects -/

def Effect.Of (ms : List Block) : Effect → Prop
  | .next stack m | .fault stack _ m => (∀ v ∈ stack, v.Of ms) ∧ m.Of ms
  | .enter stack callee m => (∀ v ∈ stack, v.Of ms) ∧ callee.Of ms ∧ m.Of ms
  | .finish stack v m | .escape stack v m => (∀ v ∈ stack, v.Of ms) ∧ v.Of ms ∧ m.Of ms

theorem Reply.Of.effect {reply : Reply} (h : reply.Of ms) {below : List Value}
    (hb : ∀ v ∈ below, v.Of ms) : (reply.effect below).Of ms := by
  cases reply with
  | answer v m => exact ⟨List.forall_mem_cons.2 ⟨h.1, hb⟩, h.2⟩
  | enter callee m => exact ⟨hb, h⟩
  | fault cause m => exact ⟨hb, h⟩

namespace Memory.Of

theorem closure (h : m.Of ms) {f : FrameId} {index : Nat} {c : Closure Value}
    (hc : m.closure f index = .ok c) : (Value.block c).Of ms := by
  obtain ⟨fr, hf, hc⟩ := Checked.bind_eq_ok.1 hc
  obtain ⟨home, hhome, hc⟩ := Checked.bind_eq_ok.1 hc
  dsimp only at hc
  split at hc
  · rename_i code hcode
    cases hc
    exact Value.of_block.2 ⟨(h.frame hhome).code.nested hcode, (h.frame hf).receiver⟩
  · cases hc

end Memory.Of

namespace Call.Of

theorem fetches (hi : i.Of ms) (hm : m.Of ms) (h : c.Fetches i m v) : v.Of ms := by
  cases h with
  | simple h => exact h.of
  | global h => exact hi.lookup h
  | self here => exact (hm.frames _ _ here).receiver
  | slot here hv => exact (hm.frames _ _ here).locals _ hv
  | field here object hv => exact hm.rows _ _ hv

theorem does (hc : c.Of ms) (hi : i.Of ms) (hm : m.Of ms) {instruction : Instruction}
    {effect : Effect} (h : c.Does i m instruction effect) : effect.Of ms := by
  have under {vs below : List Value} (operands : c.stack = vs ++ below) :
      (∀ v ∈ vs, v.Of ms) ∧ ∀ v ∈ below, v.Of ms := by
    have all := hc.stack
    rwa [operands, List.forall_mem_append] at all
  have top {v : Value} {below : List Value} (operands : c.stack = v :: below) :
      v.Of ms ∧ ∀ v ∈ below, v.Of ms := by
    have all := hc.stack
    rwa [operands, List.forall_mem_cons] at all
  cases h with
  | push fetched => exact ⟨List.forall_mem_cons.2 ⟨fetches hi hm fetched, hc.stack⟩, hm⟩
  | array operands =>
    obtain ⟨values, below⟩ := under operands
    refine ⟨List.forall_mem_cons.2 ⟨trivial, below⟩, hm.add (fun v hv => values v ?_) rfl rfl⟩
    exact List.mem_reverse.2 (Array.mem_toList_iff.2 hv)
  | pop operands => exact ⟨(top operands).2, hm⟩
  | storeField operands found => exact ⟨hc.stack, hm.set (top operands).1 _ _⟩
  | storeLocal operands found => exact ⟨hc.stack, hm.setLocal (top operands).1 _ _⟩
  | block made =>
    refine ⟨List.forall_mem_cons.2 ⟨hm.closure made, hc.stack⟩, hm.fewer (fun f fr hf => ?_) rfl⟩
    rwa [Arena.get?_pin] at hf
  | debug file position => exact ⟨hc.stack, hm.setPlace _ _⟩
  | finish operands | escape operands => exact ⟨(top operands).2, (top operands).1, hm⟩
  | @send _ receiver args below code m₁ _ selects operands logged replies =>
    obtain ⟨given, rest⟩ := under operands
    obtain ⟨hr, hb⟩ := List.forall_mem_cons.1 rest
    have found : code.Of ms := by
      cases selects with
      | send _ _ found => exact hi.method hr found
      | sendSuper _ _ found => exact hi.superMethod found
    have logged := hm.congr logged.frames logged.data.store
    rw [← replies]
    exact (invoke_of i found logged hr fun v hv => given v (List.mem_reverse.2 hv)).effect hb
  | fault cause => exact ⟨hc.stack, hm⟩

/-- **Instructions keep everything of `ms`.** -/
theorem execute (hc : c.Of ms) (hi : i.Of ms) (hm : m.Of ms) (instruction : Instruction) :
    (c.execute i m instruction).Of ms :=
  hc.does hi hm (c.execute_does i m instruction)

end Call.Of

/-! ## Steps -/

namespace Arena

variable {a : Arena Value} {f id : FrameId} {fr : Frame Value}

/-- What is there after a frame was released was there before. -/
theorem get?_of_release (h : (a.release id).get? f = some fr) : a.get? f = some fr :=
  get?_pop.symm.trans ((Sheds.release a id).get? h)

/-- What is there after a frame was made is that frame, or was there before. -/
theorem get?_of_alloc (tidy : a.Tidy) (make : FrameId → Frame Value)
    (h : (a.alloc make).1.get? f = some fr) :
    f = (a.alloc make).2 ∧ fr = make (a.alloc make).2 ∨ a.get? f = some fr := by
  obtain ⟨id, base, eq, lodged⟩ := exists_lodged tidy make
  rw [eq] at h ⊢
  rw [get?_pinAll, lodged.get?] at h
  split at h
  · exact .inl ⟨‹_›, (Option.some.inj h).symm⟩
  · exact .inr ((Sheds.collect a).get? h)

end Arena

namespace Memory.Of

variable {calls : List Call}

theorem pop (h : m.Of ms) {g : Frame Value → Frame Value} (hg : ∀ fr, fr.Of ms → (g fr).Of ms)
    (f : FrameId) (frames : m'.frames = (m.frames.modify f g).release f)
    (store : m'.store = m.store) : m'.Of ms := by
  have changed : Memory.Of ms { m with frames := m.frames.modify f g } := h.modify f hg rfl rfl
  exact changed.fewer (fun f' fr hf => Arena.get?_of_release (frames ▸ hf)) store

theorem leave (h : m.Of ms) (hc : c.Of ms) : (m.leave c).Of ms :=
  h.pop (g := lastWords c) (fun _ hf => ⟨hf.code, hf.locals, hf.receiver, hc.stack⟩) c.frame
    (m.frames_leave c) (m.store_leave c)

theorem leaveReturning (h : m.Of ms) (hc : ∀ c ∈ calls, c.Of ms) :
    (m.leaveReturning calls).Of ms := by
  induction calls generalizing m with
  | nil => exact h
  | cons c calls ih =>
    obtain ⟨first, later⟩ := List.forall_mem_cons.1 hc
    refine ih ?_ later
    exact h.pop (g := lastWordsReturning c)
      (fun _ hf => ⟨hf.code, hf.locals, hf.receiver, first.stack⟩) c.frame
      (m.frames_leave_markReturned c) (m.sameData_leave_markReturned c).store

theorem dropAll (h : m.Of ms) (hc : ∀ c ∈ calls, c.Of ms) :
    (calls.foldl Memory.drop m).Of ms := by
  induction calls generalizing m with
  | nil => exact h
  | cons c calls ih =>
    obtain ⟨first, later⟩ := List.forall_mem_cons.1 hc
    refine ih ?_ later
    exact h.pop (g := fun fr => { fr with left := c.stack })
      (fun _ hf => ⟨hf.code, hf.locals, hf.receiver, first.stack⟩) c.frame rfl rfl

end Memory.Of

theorem Callee.Of.frame {callee : Callee} (h : callee.Of ms) (invoking : Option FrameId)
    (id : FrameId) : (callee.frame invoking id).Of ms ∧ callee.code.Of ms := by
  have slots {code : Code} {args : List Value} (ha : ∀ v ∈ args, v.Of ms) :
      ∀ v ∈ Frame.slots .nil code args, v.Of ms := fun v hv => by
    rcases Array.mem_append.1 hv with hv | hv
    · exact ha v (List.mem_toArray.1 hv)
    · rw [Array.eq_of_mem_replicate hv]
      trivial
  cases callee with
  | method code receiver args => exact ⟨⟨h.1, slots h.2.2, h.2.1, List.forall_mem_nil _⟩, h.1⟩
  | block closure args =>
    obtain ⟨hc, hr⟩ := Value.of_block.1 h.1
    exact ⟨⟨hc, slots h.2, hr, List.forall_mem_nil _⟩, hc⟩

def Progress.Of (ms : List Block) : Progress → Prop
  | .running s | .failed _ s => s.Of ms
  | .finished v s => v.Of ms ∧ s.Of ms

theorem State.Of.abandon {s : State} (h : s.Of ms) : s.abandon.Of ms :=
  ⟨h.memory.dropAll h.calls, List.forall_mem_nil _⟩

theorem State.Of.resume {s : State} (h : s.Of ms) (hv : v.Of ms) : (s.resume v).Of ms := by
  obtain ⟨memory, ⟨calls, depth, hd⟩⟩ := s
  cases calls with
  | nil => exact ⟨hv, h⟩
  | cons c rest =>
    obtain ⟨first, later⟩ := List.forall_mem_cons.1 h.calls
    exact ⟨h.memory, List.forall_mem_cons.2
      ⟨⟨first.code, List.forall_mem_cons.2 ⟨hv, first.stack⟩⟩, later⟩⟩

namespace Machine

variable {machine : Machine} {s : State} {rest : List Call}

theorem enter_of (machine : Machine) (h : s.Of ms) (tidy : s.memory.frames.Tidy) {callee : Callee}
    (hc : callee.Of ms) : (machine.enter s callee).Of ms := by
  by_cases room : s.calls.depth < machine.maxDepth
  · rw [enter_eq room]
    have made : Memory.Of ms { s.memory with
        frames := (s.memory.frames.alloc fun id => callee.frame s.calls.current? id).1 } := by
      refine ⟨h.memory.rows, fun f fr hf => ?_⟩
      rcases Arena.get?_of_alloc tidy (fun id => callee.frame s.calls.current? id) hf with
        ⟨-, rfl⟩ | hf
      · exact (hc.frame _ _).1
      · exact h.memory.frames f fr hf
    exact ⟨made.trace fun _ => "enter " ++ callee.code.block.qualified, List.forall_mem_cons.2
      ⟨⟨(hc.frame none default).2, List.forall_mem_nil _⟩, h.calls⟩⟩
  · rw [enter_eq_fail room]
    exact h

theorem logCalls_of {p : Progress} (h : p.Of ms) : (machine.logCalls p).Of ms :=
  logCalls_keeps (P := (·.Of ms)) h fun _ _ _ logs before =>
    ⟨before.memory.relog logs, before.calls⟩

theorem escape_of (h : s.Of ms) (hv : v.Of ms) : (machine.escape s c v).Of ms := by
  rcases machine.escape_cases s c v with ⟨_, failed⟩ | ⟨n, returned⟩
  · rw [failed]
    exact h
  · rw [returned]
    refine State.Of.resume (s := ⟨_, _⟩)
      ⟨h.memory.leaveReturning fun c hc => ?_, fun c hc => ?_⟩ hv
    · exact h.calls c (List.mem_of_mem_take hc)
    · exact h.calls c (List.mem_of_mem_drop hc)

theorem finish_of (hm : m.Of ms) (hc : c.Of ms) (hrest : ∀ c ∈ rest, c.Of ms) (hv : v.Of ms) :
    (finish ⟨m, .of (c :: rest)⟩ v).Of ms :=
  State.Of.resume (s := ⟨m.leave c, CallStack.drop (.of (c :: rest)) 1⟩) ⟨hm.leave hc, hrest⟩ hv

theorem carryOut_of {effect : Effect} (he : effect.Of ms) (hc : c.Of ms)
    (hrest : ∀ c ∈ rest, c.Of ms) (tidy : m.frames.Tidy) (spared : effect.Spares m) :
    (machine.carryOut c rest effect).Of ms := by
  have restacked {stack : List Value} {m₁ : Memory} (hs : ∀ v ∈ stack, v.Of ms) (hm : m₁.Of ms) :
      State.Of ms ⟨m₁, .of ({ c with stack } :: rest)⟩ :=
    ⟨hm, List.forall_mem_cons.2 ⟨⟨hc.code, hs⟩, hrest⟩⟩
  cases effect with
  | next stack m₁ => exact logCalls_of (p := .running ⟨m₁, _⟩) (restacked he.1 he.2)
  | enter stack callee m₁ =>
    refine logCalls_of (enter_of machine (restacked he.1 he.2.2) ?_ he.2.1)
    show m₁.frames.Tidy
    rw [spared.1]
    exact tidy
  | finish stack v m₁ => exact finish_of he.2.2 ⟨hc.code, he.1⟩ hrest he.2.1
  | escape stack v m₁ => exact escape_of (restacked he.1 he.2.2) he.2.1
  | fault stack cause m₁ => exact restacked he.1 he.2

/-- **A step keeps everything of `ms`.** -/
theorem step_of (machine : Machine) (hi : machine.image.Of ms) (h : s.Of ms)
    (tidy : s.memory.frames.Tidy) : (machine.step s).Of ms := by
  have steps := machine.step_stepsTo s
  generalize machine.step s = p at steps ⊢
  cases steps with
  | idle => exact h
  | unread _ noted | valueless _ noted _ => exact ⟨h.memory.relog noted, h.calls⟩
  | ends _ noted last =>
    obtain ⟨hc, hrest⟩ := List.forall_mem_cons.1 h.calls
    have hm := h.memory.relog noted
    refine finish_of hm hc hrest ?_
    obtain operand | ⟨fr, here, rfl⟩ := lastValue_eq_ok last
    · exact hc.stack _ operand
    · exact (hm.frames _ fr here).receiver
  | @executes _ m₀ c rest i next _ _ noted executed =>
    obtain ⟨hc, hrest⟩ := List.forall_mem_cons.1 h.calls
    have moved : (c.moved next).Of ms := ⟨hc.code, hc.stack⟩
    rw [← executed]
    exact carryOut_of (moved.execute hi (h.memory.relog noted) i) moved hrest
      (noted.frames.symm ▸ tidy) ((c.moved next).execute_spares machine.image m₀ i)

/-! ## Requests -/

def Outcome.Of (ms : List Block) : Outcome → Prop
  | .value v s => v.Of ms ∧ s.Of ms
  | .failure _ s => s.Of ms

theorem run_of (hi : machine.image.Of ms) (h : s.Of ms) (attended : s.Attended) :
    (machine.run s).Of ms := by
  fun_induction machine.run s with
  | case1 s t hstep ih =>
    have stepped := step_of machine hi h attended.tidy
    have kept := step_attended machine attended
    rw [hstep] at stepped kept
    exact ih stepped kept
  | case2 s v t hstep | case3 s f t hstep =>
    have stepped := step_of machine hi h attended.tidy
    rw [hstep] at stepped
    exact stepped

theorem settled_of {o : Outcome} (h : o.Of ms) : o.settled.Of ms := by
  cases o with
  | value v s => exact h
  | failure f s => exact State.Of.abandon h

theorem perform_of (hi : machine.image.Of ms) (h : s.Of ms) (attended : s.Attended) {code : Code}
    (hc : code.Of ms) {receiver : Value} (hr : receiver.Of ms) {args : List Value}
    (ha : ∀ v ∈ args, v.Of ms) : (machine.perform s receiver code args).Of ms := by
  rw [perform_eq]
  have idle := attended.abandon
  have replied := invoke_of machine.image hc h.abandon.memory hr ha
  have spared := invoke_spares machine.image s.abandon.memory receiver code args
  cases hreply : invoke machine.image s.abandon.memory receiver code args with
  | answer v m =>
    rw [hreply] at replied
    exact ⟨replied.1, replied.2, List.forall_mem_nil _⟩
  | fault cause m =>
    rw [hreply] at replied
    exact ⟨replied, List.forall_mem_nil _⟩
  | enter callee m =>
    rw [hreply] at replied spared
    obtain ⟨rfl, -⟩ := spared
    refine settled_of ?_
    have entered := enter_of machine h.abandon idle.tidy replied.1
    have kept := enter_attended machine idle callee
    cases hp : machine.enter s.abandon callee with
    | running t =>
      rw [hp] at entered kept
      rw [show machine.enter ⟨s.abandon.memory, .empty⟩ callee = .running t from hp]
      exact run_of hi entered kept
    | finished v t =>
      rw [hp] at entered
      rw [show machine.enter ⟨s.abandon.memory, .empty⟩ callee = .finished v t from hp]
      exact entered
    | failed f t =>
      rw [hp] at entered
      rw [show machine.enter ⟨s.abandon.memory, .empty⟩ callee = .failed f t from hp]
      exact entered

variable {host : List Value}

theorem held_of (hh : ∀ v ∈ host, v.Of ms) (n : Nat) : (held host n).Of ms := by
  rw [held, List.getD_eq_getElem?_getD]
  cases hn : host[n]? with
  | none => trivial
  | some v => exact hh v (List.mem_of_getElem? hn)

/-- **Requests keep everything of `ms`**, what the host gets included. -/
theorem serve_of (hi : machine.image.Of ms) (h : s.Of ms) (attended : s.Attended)
    (hh : ∀ v ∈ host, v.Of ms) (r : Request) : (machine.serve s host r).Of ms := by
  cases r with
  | make value =>
    cases value with
    | string text => exact ⟨trivial, h.memory.congr rfl rfl, h.calls⟩
    | _ => exact ⟨trivial, h.memory, h.calls⟩
  | array items =>
    refine ⟨trivial, h.memory.add (fun v hv => ?_) rfl rfl, h.calls⟩
    obtain ⟨n, -, rfl⟩ := List.mem_map.1 (List.mem_toArray.1 hv)
    exact held_of hh n
  | global name =>
    refine ⟨?_, h⟩
    cases hv : machine.image.lookup name with
    | none => trivial
    | some v => exact hi.lookup hv
  | element whole index =>
    have row (r : Ref) : ((s.memory.store.row r).getD index .nil).Of ms := by
      rw [Array.getD_eq_getD_getElem?]
      cases hv : (s.memory.store.row r)[index]? with
      | none => trivial
      | some v => exact h.memory.rows r v (Array.mem_of_getElem? hv)
    refine ⟨?_, h⟩
    cases held host whole with
    | array r => exact row r
    | object cls r => exact row r
    | _ => trivial
  | newInstance className =>
    simp only [serve, newInstance]
    split
    · rename_i cls hcls
      exact ⟨hi.byName _ cls hcls, h.memory.instantiate cls, h.calls⟩
    · exact h
  | send receiver selector args =>
    simp only [serve, send]
    split
    · rename_i code found
      refine perform_of hi h attended (hi.method (held_of hh receiver) found)
        (held_of hh receiver) ?_
      intro v hv
      obtain ⟨n, -, rfl⟩ := List.mem_map.1 hv
      exact held_of hh n
    · exact h
  | main =>
    simp only [serve, runMain]
    split
    · exact ⟨trivial, h⟩
    · rename_i cls hcls
      have hcls := hi.byName _ cls hcls
      split
      · exact h
      · rename_i code found
        have made : State.Of ms { s with memory :=
            { s.memory with store := (Image.instantiate s.memory.store cls).1 } } :=
          ⟨h.memory.instantiate cls, h.calls⟩
        have new : (Image.instantiate s.memory.store cls).2.Of ms := hcls
        exact perform_of hi made attended (hcls.lookup found) new (List.forall_mem_nil _)

/-- **Whatever a host asks for, nothing is going on afterwards.** -/
theorem serve_rests (machine : Machine) (h : s.Rests) (host : List Value) (r : Request) :
    (machine.serve s host r).state.Rests := by
  have same {m : Memory} (frames : m.frames = s.memory.frames) : State.Rests ⟨m, s.calls⟩ :=
    ⟨h.attended.touch (Arena.touches_of_eq frames), h.empty⟩
  cases r with
  | make value => cases value <;> exact same rfl
  | array items => exact same rfl
  | global name => exact h
  | element whole index => exact h
  | newInstance className =>
    simp only [serve, newInstance]
    split
    · exact same rfl
    · exact h
  | send receiver selector args => exact handle_rests h (.send _ selector _)
  | main => exact handle_rests h .main

/-- What a host finds after any requests. -/
theorem after_of (hi : machine.image.Of ms) (h : s.Of ms) (rests : s.Rests)
    (hh : ∀ v ∈ host, v.Of ms) (requests : List Request) :
    (machine.after s host requests).1.Of ms ∧ (machine.after s host requests).1.Rests
      ∧ ∀ v ∈ (machine.after s host requests).2, v.Of ms := by
  induction requests generalizing s host with
  | nil => exact ⟨h, rests, hh⟩
  | cons r requests ih =>
    have served := serve_of hi h rests.attended hh r
    have kept := serve_rests machine rests host r
    rw [after]
    cases ho : machine.serve s host r with
    | value v t =>
      rw [ho] at served kept
      exact ih served.2 kept (List.forall_mem_append.2 ⟨hh, List.forall_mem_singleton.2 served.1⟩)
    | failure f t =>
      rw [ho] at served kept
      exact ih served kept (List.forall_mem_append.2 ⟨hh, List.forall_mem_nil _⟩)

end Machine

end Colloquy
