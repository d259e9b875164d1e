import Colloquy.Proofs.Arena.Keeping
import Colloquy.Proofs.Arena.Shape
import Colloquy.Proofs.Quiet
import Colloquy.Proofs.Twin.Images

/-!
# Instructions with and without source positions

Two memories are twins if their frames stand in the same slots and hold twins, source positions
apart, and their data are alike.  Twins can only be told apart by identity hashes.

Main statement: instructions that are twins, none of which takes the identity hash of an object,
have effects that are twins (`Call.Twin.execute`).
-/

namespace Colloquy

open Primitive (Agree)
open Instruction (Reads plain)

/-! ## Twins -/

/-- The frames are the same but for code and source positions. -/
structure Frame.Twin (ms ms' : List Block) (f f' : Frame Value) : Prop where
  code : f.code.Twin ms ms' f'.code
  locals : List.Forall₂ (Value.Twin ms ms') f.locals.toList f'.locals.toList
  receiver : f.receiver.Twin ms ms' f'.receiver
  invoking : f'.invoking = f.invoking
  enclosing : f'.enclosing = f.enclosing
  home : f'.home = f.home
  returned : f'.returned = f.returned

/-- The memories are the same but for code, source positions and logs. -/
structure Memory.Twin (ms ms' : List Block) (m m' : Memory) : Prop where
  frames : m.frames.Alike (Frame.Twin ms ms') m'.frames
  data : m.Like (.twin ms ms') (fun _ => True) m'

/-- The calls have come to the same place: without source positions, the instructions ahead of the
first are those ahead of the second. -/
structure Call.Twin (ms ms' : List Block) (c c' : Call) : Prop where
  frame : c'.frame = c.frame
  code : c.code.Twin ms ms' c'.code
  stack : List.Forall₂ (Value.Twin ms ms') c.stack c'.stack
  ahead : ∃ is is', Reads c.code.block.bytecode c.ip is c.code.block.bytecode.size
    ∧ Reads c'.code.block.bytecode c'.ip is' c'.code.block.bytecode.size
    ∧ List.Forall₂ (Instruction.Twin c.code.block.literals c'.code.block.literals) (plain is) is'

/-- The callees run code that is twins on values that are twins. -/
abbrev Callee.Twin (ms ms' : List Block) : Callee → Callee → Prop :=
  Callee.Like (.twin ms ms') fun _ => True

/-- The effects are of one kind. -/
inductive Effect.Twin (ms ms' : List Block) : Effect → Effect → Prop where
  | next {stack stack' : List Value} {m m' : Memory}
      (hs : List.Forall₂ (Value.Twin ms ms') stack stack') (hm : m.Twin ms ms' m') :
      Twin ms ms' (.next stack m) (.next stack' m')
  | enter {stack stack' : List Value} {callee callee' : Callee} {m m' : Memory}
      (hs : List.Forall₂ (Value.Twin ms ms') stack stack') (hc : callee.Twin ms ms' callee')
      (hm : m.Twin ms ms' m') : Twin ms ms' (.enter stack callee m) (.enter stack' callee' m')
  | finish {stack stack' : List Value} {v v' : Value} {m m' : Memory}
      (hs : List.Forall₂ (Value.Twin ms ms') stack stack') (hv : v.Twin ms ms' v')
      (hm : m.Twin ms ms' m') : Twin ms ms' (.finish stack v m) (.finish stack' v' m')
  | escape {stack stack' : List Value} {v v' : Value} {m m' : Memory}
      (hs : List.Forall₂ (Value.Twin ms ms') stack stack') (hv : v.Twin ms ms' v')
      (hm : m.Twin ms ms' m') : Twin ms ms' (.escape stack v m) (.escape stack' v' m')
  | fault {stack stack' : List Value} {m m' : Memory}
      (hs : List.Forall₂ (Value.Twin ms ms') stack stack') (cause : Cause)
      (hm : m.Twin ms ms' m') : Twin ms ms' (.fault stack cause m) (.fault stack' cause m')

variable {ms ms' : List Block} {i i' : Image} {m m' : Memory} {c c' : Call} {v v' : Value}
  {id : FrameId}

/-! ## Memories -/

theorem Frame.Twin.pins {f f' : Frame Value} (h : f.Twin ms ms' f') : f'.pins = f.pins := by
  rw [Frame.pins_eq, Frame.pins_eq, h.enclosing]

namespace Memory.Twin

/-- The logs may be others. -/
theorem relog {m₁ m₁' : Memory} (h : m.Twin ms ms' m') (logs : m.Logs m₁) (logs' : m'.Logs m₁') :
    m₁.Twin ms ms' m₁' := by
  refine ⟨?_, ⟨?_, ?_, ?_⟩⟩
  · rw [logs.frames, logs'.frames]
    exact h.frames
  · rw [logs.data.store, logs'.data.store]
    exact h.data.store
  · rw [logs.data.serial, logs'.data.serial]
    exact h.data.serial
  · rw [logs.data.transcript, logs'.data.transcript]
    exact h.data.transcript

theorem trace (h : m.Twin ms ms' m') (line line' : Memory → String) :
    (m.trace line).Twin ms ms' (m'.trace line') :=
  h.relog (.trace m line) (.trace m' line')

/-- Source positions do not matter. -/
theorem setPlace (h : m.Twin ms ms' m') (id : FrameId) (place : Place) :
    (m.setPlace id place).Twin ms ms' m' := by
  refine ⟨h.frames.modify_left id fun f f' hf => ?_, h.data.store, h.data.serial, h.data.transcript⟩
  exact ⟨hf.code, hf.locals, hf.receiver, hf.invoking, hf.enclosing, hf.home, hf.returned⟩

theorem frame (h : m.Twin ms ms' m') (id : FrameId) :
    Agree (Frame.Twin ms ms') (m.frame id) (m'.frame id) := by
  have here := h.frames.get? id
  unfold Memory.frame
  generalize m.frames.get? id = o at here
  generalize m'.frames.get? id = o' at here
  cases here with
  | none => rfl
  | some hf => exact hf

theorem context (h : m.Twin ms ms' m') (id : FrameId) (depth : UInt16) :
    Agree Eq (m.context id depth) (m'.context id depth) := by
  unfold Memory.context
  generalize depth.toNat = hops
  induction hops generalizing id with
  | zero => rfl
  | succ hops ih =>
    refine (h.frame id).bind fun f f' hf => ?_
    rw [hf.enclosing]
    cases f.enclosing with
    | none => rfl
    | some outer => exact ih outer

theorem loadLocal (h : m.Twin ms ms' m') (id : FrameId) (depth slot : UInt16) :
    Agree (Value.Twin ms ms') (m.loadLocal id depth slot) (m'.loadLocal id depth slot) := by
  refine (h.context id depth).bind ?_
  rintro holder _ rfl
  refine (h.frame holder).bind fun f f' hf => ?_
  have entry := forall₂_getElem? hf.locals slot.toNat
  rw [Array.getElem?_toList, Array.getElem?_toList] at entry
  generalize f.locals[slot.toNat]? = o at entry
  generalize f'.locals[slot.toNat]? = o' at entry
  cases entry with
  | none => rfl
  | some hv => exact hv

theorem localFrame (h : m.Twin ms ms' m') (id : FrameId) (depth slot : UInt16) :
    Agree Eq (m.localFrame id depth slot) (m'.localFrame id depth slot) := by
  refine (h.context id depth).bind ?_
  rintro holder _ rfl
  refine (h.frame holder).bind fun f f' hf => ?_
  have size : f'.locals.size = f.locals.size := by simpa using hf.locals.length_eq.symm
  rw [size]
  split <;> rfl

theorem setLocal (h : m.Twin ms ms' m') (id : FrameId) (slot : Nat) (hv : v.Twin ms ms' v') :
    (m.setLocal id slot v).Twin ms ms' (m'.setLocal id slot v') := by
  refine ⟨h.frames.modify id fun f f' hf => ?_, h.data.store, h.data.serial, h.data.transcript⟩
  refine ⟨hf.code, ?_, hf.receiver, hf.invoking, hf.enclosing, hf.home, hf.returned⟩
  dsimp only
  rw [Array.toList_setIfInBounds, Array.toList_setIfInBounds]
  exact forall₂_set hf.locals slot hv

theorem fieldRow (h : m.Twin ms ms' m') (hi : i.Twin ms ms' i') (id : FrameId) (index : Nat) :
    Agree Eq (m.fieldRow i id index) (m'.fieldRow i' id index) := by
  refine (h.frame id).bind fun f f' hf => ?_
  have receiver := hf.receiver
  have name := hf.receiver.className_eq hi.lawful.fair
  generalize f.receiver = v at receiver name
  generalize f'.receiver = v' at receiver name
  cases receiver with
  | object same row =>
    dsimp only
    rw [h.data.store.size_row row, hi.lawful.name same]
    split <;> rfl
  | _ => exact congrArg Cause.noFields name

theorem loadField (h : m.Twin ms ms' m') (hi : i.Twin ms ms' i') (id : FrameId) (index : Nat) :
    Agree (Value.Twin ms ms') (m.loadField i id index) (m'.loadField i' id index) := by
  refine (h.fieldRow hi id index).bind ?_
  rintro row _ rfl
  exact h.data.store.getD trivial index

theorem closure (h : m.Twin ms ms' m') (hi : i.Twin ms ms' i') (id : FrameId) (index : Nat) :
    Agree (Closure.Twin ms ms') (m.closure id index) (m'.closure id index) := by
  refine (h.frame id).bind fun f f' hf => ?_
  dsimp only
  rw [hf.home]
  refine (h.frame f.home).bind fun g g' hg => ?_
  have nested := hg.code.nested? hi.methods index
  have name := (hg.code.block hi.methods).head.qualified
  generalize g.code.nested? index = o at nested
  generalize g'.code.nested? index = o' at nested
  cases nested with
  | none => exact congrArg (Cause.noNestedBlock · index) name
  | some code => exact .mk h.data.serial code rfl rfl hf.receiver

/-- The store has changed in both. -/
theorem restore (h : m.Twin ms ms' m') {store store' : Store}
    (hs : store.Like (.twin ms ms') (fun _ => True) store') :
    Memory.Twin ms ms' { m with store } { m' with store := store' } :=
  ⟨h.frames, hs, h.data.serial, h.data.transcript⟩

end Memory.Twin

/-! ## Instructions -/

/-- A value is pushed, or the instruction fails. -/
theorem Effect.push_twin {stack stack' : List Value} {x x' : Checked Value}
    (hs : List.Forall₂ (Value.Twin ms ms') stack stack') (hm : m.Twin ms ms' m')
    (h : Agree (Value.Twin ms ms') x x') :
    Effect.Twin ms ms' (.push stack m x) (.push stack' m' x') := by
  match x, x', h with
  | .ok v, .ok v', hv => exact .next (.cons hv hs) hm
  | .error e, .error _, rfl => exact .fault hs e hm

theorem Call.literal_twin {l l' : UInt16}
    (h : Instruction.SameLiteral c.code.block.literals c'.code.block.literals l l') :
    ∃ s, c.literal l = .ok s ∧ c'.literal l' = .ok s
      ∧ c.code.block.literals[l.toNat]? = some s ∧ c'.code.block.literals[l'.toNat]? = some s := by
  obtain ⟨s, hl, hl'⟩ := h
  exact ⟨s, by rw [literal, Block.literal?, hl], by rw [literal, Block.literal?, hl'], hl, hl'⟩

namespace Call.Twin

theorem buildArray (hc : c.Twin ms ms' c') (hi : i.Twin ms ms' i') (hm : m.Twin ms ms' m')
    (count : Nat) : Effect.Twin ms ms' (c.buildArray m count) (c'.buildArray m' count) := by
  unfold Call.buildArray
  rw [← hc.stack.length_eq]
  split
  · exact .fault hc.stack _ hm
  · have values : List.Forall₂ (Value.Twin ms ms') (c.stack.take count).reverse.toArray.toList
        (c'.stack.take count).reverse.toArray.toList :=
      List.forall₂_reverse_iff.2 (List.forall₂_take count hc.stack)
    obtain ⟨data, hv⟩ := hm.data.newArray hi.lawful.fair values
    rw [Store.grown_true] at data hv
    exact .next (.cons hv (List.forall₂_drop count hc.stack)) ⟨hm.frames, data⟩

/-- Both operand stacks are empty, or both have a value on top. -/
theorem stack_cases (hc : c.Twin ms ms' c') :
    (c.stack = [] ∧ c'.stack = [])
      ∨ ∃ v below v' below', c.stack = v :: below ∧ c'.stack = v' :: below'
        ∧ v.Twin ms ms' v' ∧ List.Forall₂ (Value.Twin ms ms') below below' := by
  have stack := hc.stack
  cases top : c.stack with
  | nil =>
    rw [top] at stack
    exact .inl ⟨rfl, List.forall₂_nil_left_iff.1 stack⟩
  | cons v below =>
    rw [top] at stack
    obtain ⟨v', below', hv, rest, top'⟩ := List.forall₂_cons_left_iff.1 stack
    exact .inr ⟨v, below, v', below', rfl, top', hv, rest⟩

theorem storeLocal (hc : c.Twin ms ms' c') (hm : m.Twin ms ms' m') (depth slot : UInt16) :
    Effect.Twin ms ms' (c.storeLocal m depth slot) (c'.storeLocal m' depth slot) := by
  unfold Call.storeLocal
  rw [hc.frame]
  rcases hc.stack_cases with ⟨top, top'⟩ | ⟨v, below, v', below', top, top', hv, rest⟩
  · rw [top, top']
    exact .fault .nil _ hm
  · rw [top, top']
    rcases (hm.localFrame c.frame depth slot).cases with
      ⟨holder, _, found, found', rfl⟩ | ⟨e, found, found'⟩
    · simp only [found, found']
      exact .next (.cons hv rest) (hm.setLocal holder slot.toNat hv)
    · simp only [found, found']
      exact .fault (.cons hv rest) e hm

theorem storeField (hc : c.Twin ms ms' c') (hi : i.Twin ms ms' i') (hm : m.Twin ms ms' m')
    (index : Nat) : Effect.Twin ms ms' (c.storeField i m index) (c'.storeField i' m' index) := by
  unfold Call.storeField
  rw [hc.frame]
  rcases hc.stack_cases with ⟨top, top'⟩ | ⟨v, below, v', below', top, top', hv, rest⟩
  · rw [top, top']
    exact .fault .nil _ hm
  · rw [top, top']
    rcases (hm.fieldRow hi c.frame index).cases with
      ⟨row, _, found, found', rfl⟩ | ⟨e, found, found'⟩
    · simp only [found, found']
      exact .next (.cons hv rest) (hm.restore (hm.data.store.set index hv))
    · simp only [found, found']
      exact .fault (.cons hv rest) e hm

theorem makeClosure (hc : c.Twin ms ms' c') (hi : i.Twin ms ms' i') (hm : m.Twin ms ms' m')
    (index : Nat) : Effect.Twin ms ms' (c.makeClosure m index) (c'.makeClosure m' index) := by
  unfold Call.makeClosure
  rw [hc.frame]
  rcases (hm.closure hi c.frame index).cases with
      ⟨closure, closure', found, found', made⟩ | ⟨e, found, found'⟩
  · rw [found, found']
    exact .next (.cons (.block made) hc.stack)
      ⟨hm.frames.pin c.frame, hm.data.store, congrArg (· + 1) hm.data.serial, hm.data.transcript⟩
  · rw [found, found']
    exact .fault hc.stack e hm

/-- **A send that does not take the identity hash of an object.** -/
theorem send (hc : c.Twin ms ms' c') (hi : i.Twin ms ms' i') (hm : m.Twin ms ms' m') (argc : Nat)
    (selector : String) {find find' : Value → Checked Code}
    (finds : ∀ v v', v.Twin ms ms' v' → Agree (Code.Twin ms ms') (find v) (find' v'))
    (quiet : ¬c.SendHashes argc find) :
    Effect.Twin ms ms' (c.send i m argc selector find) (c'.send i' m' argc selector find') := by
  have operands := List.forall₂_drop argc hc.stack
  have args := List.forall₂_reverse_iff.2 (List.forall₂_take argc hc.stack)
  unfold Call.send
  cases dropped : c.stack.drop argc with
  | nil =>
    rw [dropped, List.forall₂_nil_left_iff] at operands
    rw [operands]
    exact .fault hc.stack _ hm
  | cons receiver below =>
    rw [dropped] at operands
    obtain ⟨receiver', below', hr, hb, dropped'⟩ := List.forall₂_cons_left_iff.1 operands
    rw [dropped']
    dsimp only
    rcases (finds receiver receiver' hr).cases with
      ⟨code, code', found, found', same⟩ | ⟨e, found, found'⟩
    · rw [found, found']
      dsimp only
      have hash : code.block.primitive = some .objectHash → (c.stack.take argc).reverse = [] →
          receiver'.identityHash = receiver.identityHash := fun primitive none =>
        hr.identityHash_eq fun identity =>
          quiet ⟨receiver, below, code, dropped, found, primitive, none, identity⟩
      have traced := hm.trace (fun m => "send " ++ selector ++ " to " ++ receiver.inspect m.store
          ++ " -> " ++ code.block.qualified)
        (fun m => "send " ++ selector ++ " to " ++ receiver'.inspect m.store
          ++ " -> " ++ code'.block.qualified)
      have reply := invoke_like hi.lawful same traced.data hr args hash
      generalize invoke i _ receiver code _ = r at reply
      generalize invoke i' _ receiver' code' _ = r' at reply
      cases reply with
      | answer beside beside' data hv =>
        rw [Store.grown_true] at data hv
        refine .next (.cons hv hb) ⟨?_, data⟩
        rw [beside.frames, beside'.frames]
        exact traced.frames
      | enter hcallee => exact .enter hb hcallee traced
      | fault cause => exact .fault hb cause traced
    · rw [found, found']
      exact .fault hc.stack e hm

/-- A global name stands for values that are twins. -/
theorem global (hi : i.Twin ms ms' i') {l l' : UInt16}
    (h : Instruction.SameLiteral c.code.block.literals c'.code.block.literals l l') :
    Agree (Value.Twin ms ms') (c.global i l) (c'.global i' l') := by
  obtain ⟨s, hl, hl', -⟩ := Call.literal_twin h
  have names : Agree Eq (c.literal l) (c'.literal l') := by
    rw [hl, hl']
    rfl
  refine names.bind fun name _ same => ?_
  cases same
  have found := hi.lookup name
  generalize i.lookup name = o at found
  generalize i'.lookup name = o' at found
  cases found with
  | none => rfl
  | some hv => exact hv

/-- **Instructions that are twins have effects that are twins**, if no identity hash of an object is
taken. -/
theorem execute (hc : c.Twin ms ms' c') (hi : i.Twin ms ms' i') (hm : m.Twin ms ms' m')
    {j j' : Instruction}
    (hj : Instruction.Twin c.code.block.literals c'.code.block.literals j j')
    (quiet : ¬c.Hashes i j) : Effect.Twin ms ms' (c.execute i m j) (c'.execute i' m' j') := by
  have push {x x' : Checked Value} (h : Agree (Value.Twin ms ms') x x') :
      Effect.Twin ms ms' (.push c.stack m x) (.push c'.stack m' x') :=
    Effect.push_twin hc.stack hm h
  cases hj with
  | pushLiteral h =>
    obtain ⟨s, hl, hl', entry, entry'⟩ := Call.literal_twin h
    have same := StringId.Twin.literal hc.code.here hc.code.here' entry entry'
    refine push ?_
    rw [hl, hl', hc.code.id]
    exact .string same s
  | pushGlobal h => exact push (global hi h)
  | send argc h =>
    obtain ⟨s, hl, hl', -⟩ := Call.literal_twin h
    simp only [Call.execute, hl, hl']
    exact hc.send hi hm _ s (fun v v' hv => hi.method hv s) fun hashes => quiet ⟨s, hl, hashes⟩
  | sendSuper argc h =>
    obtain ⟨s, hl, hl', -⟩ := Call.literal_twin h
    simp only [Call.execute, hl, hl']
    exact hc.send hi hm _ s (fun v v' hv => hi.superMethod hc.code hv s)
      fun hashes => quiet ⟨s, hl, hashes⟩
  | same plain =>
    cases j with
    | pushNil => exact .next (.cons .nil hc.stack) hm
    | pushSelf =>
      refine push ?_
      rw [hc.frame]
      exact (hm.frame c.frame).map fun _ _ hf => hf.receiver
    | pushTrue => exact .next (.cons (.bool true) hc.stack) hm
    | pushFalse => exact .next (.cons (.bool false) hc.stack) hm
    | pushChar code =>
      refine push ?_
      unfold Call.character
      split
      · exact .char _
      · rfl
    | pushInt n => exact .next (.cons (.int n) hc.stack) hm
    | pushFloat x => exact .next (.cons (.float x) hc.stack) hm
    | pushArray count => exact hc.buildArray hi hm count.toNat
    | pushField index =>
      refine push ?_
      rw [hc.frame]
      exact hm.loadField hi c.frame index.toNat
    | pushLocal depth slot =>
      refine push ?_
      rw [hc.frame]
      exact hm.loadLocal c.frame depth slot
    | pop | ret | blockReturn =>
      unfold Call.execute
      rcases hc.stack_cases with ⟨top, top'⟩ | ⟨v, below, v', below', top, top', hv, rest⟩
      · rw [top, top']
        exact .fault .nil _ hm
      · rw [top, top']
        first
          | exact .next rest hm
          | exact .escape rest hv hm
          | exact .finish rest hv hm
    | storeField index => exact hc.storeField hi hm index.toNat
    | storeLocal depth slot => exact hc.storeLocal hm depth slot
    | block index => exact hc.makeClosure hi hm index.toNat
    | pushLiteral | pushGlobal | send | sendSuper | debug => exact plain.elim

end Call.Twin

end Colloquy
