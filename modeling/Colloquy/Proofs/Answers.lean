import Colloquy.Proofs.Compile.BlockTable
import Colloquy.Proofs.Renaming.Sessions
import Colloquy.Proofs.RoundTrip
import Colloquy.Proofs.Unwinding

/-!
# What methods answer

The code of a method ends with `self` and a return.  Where the text has no return statement, neither
the rest of that code nor the code of the blocks in it has a return, so there is only one way for a
call of the method to come to its end by itself (`Block.AnswersSelf`).

A call can also be ended from above, by a return of a block that is called inside it.  The home of
such a block is the call that its code stands in, so the calls of a method without returns are
ended by returns to calls further out only.

* `Machine.Visits.hasDone` — what the last instruction of the innermost call has left;
* `Machine.Fares` — what a step makes of a call in progress;
* `Machine.methods_without_return_answer_self` — the main statement.
-/

namespace Colloquy

open Instruction (Reads)

/-! ## Code without returns -/

/-- The instruction ends the call that carries it out. -/
def Instruction.isReturn : Instruction → Bool
  | .ret | .blockReturn => true
  | _ => false

/-- None of the instructions ends the call. -/
def Straight (is : List Instruction) : Prop := ∀ i ∈ is, i.isReturn = false

section Straight

variable {is js : List Instruction} {i : Instruction}

theorem straight_append : Straight (is ++ js) ↔ Straight is ∧ Straight js :=
  List.forall_mem_append

theorem straight_singleton : Straight [i] ↔ i.isReturn = false := List.forall_mem_singleton

theorem Marks.straight (h : Marks is) : Straight is := by
  rcases h with rfl | ⟨file, position, rfl⟩
  · exact List.forall_mem_nil _
  · exact straight_singleton.2 rfl

theorem ConstantCode.straight {lits : Array String} {value : Literal}
    (h : ConstantCode lits value i) : Straight [i] := by
  cases h <;> exact straight_singleton.2 rfl

theorem Address.ReadBy.straight {a : Address} {lits : Array String} {name : String}
    (h : a.ReadBy lits name i) : Straight [i] := by
  cases i with
  | ret | blockReturn => cases a <;> cases h
  | _ => exact straight_singleton.2 rfl

theorem Address.AssignedBy.straight {a : Address} (h : a.AssignedBy i) : Straight [i] := by
  cases i with
  | ret | blockReturn => cases a <;> cases h
  | _ => exact straight_singleton.2 rfl

end Straight

section Text

variable {selector : String} {table : Array Block}

mutual

/-- **Expressions do not return.**  What stands in a block is code of its own. -/
theorem Expr.Coded.straight {p : Names} {lits : Array String} {n : Nat} {is : List Instruction}
    (e : Expr) (h : e.Coded selector table p lits n is) : Straight is := by
  cases e with
  | literal value =>
    cases h with
    | literal constant => exact constant.straight
  | self =>
    cases h
    exact straight_singleton.2 rfl
  | ident name =>
    cases h with
    | ident read => exact read.straight
  | array items =>
    cases h with
    | array each =>
      exact straight_append.2 ⟨Expr.CodedAll.straight items each, straight_singleton.2 rfl⟩
  | block head body =>
    cases h
    exact straight_singleton.2 rfl
  | send receiver message args position =>
    cases h with
    | send first each marks =>
      exact straight_append.2 ⟨Expr.Coded.straight receiver first, straight_append.2
        ⟨Expr.CodedAll.straight args each, straight_append.2
          ⟨marks.straight, straight_singleton.2 rfl⟩⟩⟩
  | superSend message args position =>
    cases h with
    | superSend each marks =>
      exact List.forall_mem_cons.2 ⟨rfl, straight_append.2 ⟨Expr.CodedAll.straight args each,
        straight_append.2 ⟨marks.straight, straight_singleton.2 rfl⟩⟩⟩
termination_by structural e

theorem Expr.CodedAll.straight {p : Names} {lits : Array String} {n : Nat} {is : List Instruction}
    (es : List Expr) (h : Expr.CodedAll selector table p lits n es is) : Straight is := by
  cases es with
  | nil =>
    cases h
    exact List.forall_mem_nil _
  | cons e rest =>
    cases h with
    | cons first later =>
      exact straight_append.2 ⟨Expr.Coded.straight e first, Expr.CodedAll.straight rest later⟩
termination_by structural es

end

/-- The statement is a return. -/
def Stat.isReturn : Stat → Bool
  | .ret _ _ => true
  | .expr _ | .assign _ _ _ => false

variable {p : Names} {lits : Array String} {n : Nat} {is : List Instruction}

theorem Stat.Coded.straight {s : Stat} (h : s.Coded selector table p lits n is)
    (plain : s.isReturn = false) : Straight is := by
  cases h with
  | @expr _ _ _ value _ first => exact Expr.Coded.straight value first
  | @assign _ _ _ _ value _ _ _ _ marks first store =>
    exact straight_append.2 ⟨marks.straight, straight_append.2
      ⟨Expr.Coded.straight value first, store.straight⟩⟩
  | ret => cases plain

theorem Stat.CodedAll.straight {ss : List Stat} (h : Stat.CodedAll selector table p lits n ss is)
    (plain : ∀ s ∈ ss, s.isReturn = false) : Straight is := by
  induction ss generalizing n is with
  | nil =>
    cases h
    exact List.forall_mem_nil _
  | cons s rest ih =>
    obtain ⟨head, tail⟩ := List.forall_mem_cons.1 plain
    cases h with
    | last first => exact first.straight head
    | cons first later =>
      exact straight_append.2 ⟨first.straight head, List.forall_mem_cons.2 ⟨rfl, ih later tail⟩⟩

end Text

/-- There is no return statement in the body, and none in a block of the body. -/
structure BodyText.Returnless (t : BodyText) : Prop where
  stats : ∀ s ∈ t.stats, s.isReturn = false
  blocks : ∀ l ∈ t.blockLiterals, ∀ s ∈ l.body, s.isReturn = false

/-- The only return in the code is one of `self` at its end, and there is none in the code of the
blocks. -/
structure Block.AnswersSelf (b : Block) : Prop where
  code : ∃ is, Straight is ∧ Reads b.bytecode 0 (is ++ [.pushSelf, .ret]) b.bytecode.size
  nested : ∀ (k : Nat) (e : Block), b.blocks[k]? = some e →
    ∃ is, Straight is ∧ Reads e.bytecode 0 (is ++ [.blockReturn]) e.bytecode.size

/-- **Code without return statements answers `self`**, and its blocks do not return. -/
theorem Block.Tabulates.answersSelf {t : BodyText} {b : Block} (h : b.Tabulates t)
    (method : t.ending = .method) (returnless : t.Returnless) : b.AnswersSelf where
  code := by
    obtain ⟨is, ks, coded, marks, reads⟩ := h.code
    rw [method] at reads
    have pops : Straight (if t.stats.isEmpty then [] else [.pop]) := by
      split
      · exact List.forall_mem_nil _
      · exact straight_singleton.2 rfl
    refine ⟨is ++ (ks ++ if t.stats.isEmpty then [] else [.pop]), ?_, ?_⟩
    · exact straight_append.2 ⟨coded.straight returnless.stats,
        straight_append.2 ⟨marks.straight, pops⟩⟩
    · simpa only [Ending.code, List.append_assoc] using reads
  nested k e entry := by
    obtain ⟨l, found⟩ : ∃ l, t.blockLiterals[k]? = some l := by
      obtain ⟨inside, -⟩ := Array.getElem?_eq_some_iff.1 entry
      rw [h.size] at inside
      exact ⟨_, List.getElem?_eq_getElem inside⟩
    obtain ⟨e', entry', code⟩ := h.entries k l found
    cases entry.symm.trans entry'
    cases code with
    | @intro _ _ _ is ks name nargs nlocals leaf plain each marks reads =>
      have fills : Straight (if l.body.isEmpty then [.pushNil] else []) := by
        split
        · exact straight_singleton.2 rfl
        · exact List.forall_mem_nil _
      refine ⟨is ++ ((if l.body.isEmpty then [.pushNil] else []) ++ ks), ?_, ?_⟩
      · exact straight_append.2 ⟨each.straight (returnless.blocks l (List.mem_of_getElem? found)),
          straight_append.2 ⟨fills, marks.straight⟩⟩
      · simpa only [Ending.code, List.append_assoc] using reads

/-- **The code of a method without return statements answers `self`.** -/
theorem Code.Of.answersSelf {options : CompilerOptions} {p : Program} {log : Log}
    {compiled : CompiledProgram} {n : Nat} {t : BodyText} {code : Code}
    (of : code.Of (compiled.classes.flatMap (·.methods)))
    (accepted : compileBare options p = (log, .ok compiled)) (written : p.texts[n]? = some (some t))
    (method : t.ending = .method) (returnless : t.Returnless) (id : code.id = { method := n }) :
    code.block.AnswersSelf := by
  have each : List.Forall₂ (fun t b => Block.Matches t b) p.texts
      (compiled.classes.flatMap (·.methods)) :=
    compileBare_pairs accepted (fun tree => Resolve.methods_tabulate tree options)
      Resolve.mainBody_tabulates
  have found : codeAt _ code.id = some code.block := of
  rw [id] at found
  have place := forall₂_getElem? each n
  rw [written, show (compiled.classes.flatMap (·.methods))[n]? = some code.block from found]
    at place
  cases place with
  | some fits => exact (fits t rfl).answersSelf method returnless

/-! ## Reading up to a place -/

namespace Instruction.Reads

variable {bytes : Bytes} {p q next : Nat} {is js all : List Instruction} {i : Instruction}

theorem lt_of_cons (h : Reads bytes p (i :: is) q) : p < q := by
  obtain ⟨r, first, rest⟩ := h.uncons
  obtain ⟨forward, room⟩ := decodeAt_bounds first
  exact Nat.lt_of_lt_of_le forward (rest.bounds room).1

/-- There is one way to read up to a place. -/
theorem unique (h : Reads bytes p is q) (h' : Reads bytes p js q) : is = js := by
  induction h generalizing js with
  | nil p =>
    cases js with
    | nil => rfl
    | cons j js => exact absurd h'.lt_of_cons (Nat.lt_irrefl p)
  | @cons p r q i is first rest ih =>
    cases js with
    | nil =>
      cases h'
      exact absurd (Reads.cons first rest).lt_of_cons (Nat.lt_irrefl p)
    | cons j js =>
      obtain ⟨r', first', rest'⟩ := h'.uncons
      cases first.symm.trans first'
      rw [ih rest']

/-- What has been read where the code ends is all there was. -/
theorem whole (all_read : Reads bytes p all bytes.size) (h : Reads bytes p is q)
    (ended : decodeAt bytes q = .ok none) : is = all := by
  induction h generalizing all with
  | nil p =>
    cases all with
    | nil => rfl
    | cons j later =>
      obtain ⟨r, first, -⟩ := all_read.uncons
      cases first.symm.trans ended
  | @cons p r q i is first rest ih =>
    cases all with
    | nil =>
      rw [all_read.ended] at first
      cases first
    | cons j later =>
      obtain ⟨r', first', later⟩ := all_read.uncons
      cases first.symm.trans first'
      rw [ih later ended]

end Instruction.Reads

/-- What the last instruction of a call has left, if it was no send: it was no return, and `self` is
on top of the operands if that was pushed. -/
structure Call.HasDone (a : Arena Value) (c : Call) (i : Instruction) : Prop where
  goesOn : i.isReturn = false
  self : i = .pushSelf → ∃ fr below, a.get? c.frame = some fr ∧ c.stack = fr.receiver :: below

/-- What an instruction leaves after which its call goes on. -/
theorem Call.hasDone_of_next {c : Call} {image : Image} {m m₁ m' : Memory} {i : Instruction}
    {stack : List Value} (effect : c.execute image m i = .next stack m₁) (after : m₁.Logs m') :
    Call.HasDone m'.frames { c with stack } i := by
  constructor
  · cases i with
    | ret | blockReturn =>
      simp only [execute] at effect
      split at effect <;> cases effect
    | _ => rfl
  · rintro rfl
    simp only [execute] at effect
    cases here : m.frame c.frame with
    | error e =>
      rw [here] at effect
      cases effect
    | ok fr =>
      rw [here] at effect
      cases effect
      exact ⟨fr, c.stack, by rw [after.frames, Memory.frame_eq_ok here], rfl⟩

namespace Machine

variable {machine : Machine} {s t : State} {call : HostCall}

/-- **What the last instruction of the innermost call has left**, unless it was a send. -/
theorem Visits.hasDone (visits : machine.Visits s call t) (rests : s.Rests) {c : Call}
    {rest : List Call} (innermost : t.calls.calls = c :: rest) {before : List Instruction}
    {i : Instruction} (reads : Reads c.code.block.bytecode 0 (before ++ [i]) c.ip) :
    i.isSend = true ∨ c.HasDone t.memory.frames i := by
  have begun {bytes : Bytes} : ¬ Reads bytes 0 (before ++ [i]) 0 := fun reads => by
    simpa using reads.unique (.nil 0)
  induction visits with
  | @entered s t receiver code args callee m invoked entered =>
    obtain rfl := enter_eq_running entered
    cases innermost
    exact absurd reads begun
  | send _ _ ih => exact ih rests innermost
  | main _ _ _ _ ih => exact ih ⟨rests.attended, rests.empty⟩ innermost
  | @step s u t call visits hs ih =>
    obtain ⟨ready, waiting⟩ := visits.placed rests
    obtain ⟨d, others, calls, -⟩ := @exists_takes machine u (by simp [hs])
    rw [calls] at ready waiting
    cases takes_of_step hs calls with
    | next decoded logged effect after =>
      cases innermost
      obtain ⟨is, marked⟩ := ready d rfl
      obtain ⟨-, last⟩ := List.append_inj' (reads.unique (marked.reads.snoc decoded)) rfl
      cases last
      exact .inr (Call.hasDone_of_next effect after)
    | enter =>
      cases innermost
      exact absurd reads begun
    | @leave v last past outer _ _ _ _ _ split =>
      cases outer with
      | nil => cases innermost
      | cons e outer =>
        cases innermost
        obtain ⟨offset, is, j, current, marked, decoded, sends⟩ :=
          waiting e (by simp [split])
        obtain ⟨-, last⟩ := List.append_inj' (reads.unique (marked.reads.snoc decoded)) rfl
        cases last
        exact .inl sends

end Machine

/-! ## Visits are moves -/

/-- The values that a host calls with. -/
def HostCall.values : HostCall → List Value
  | .main => []
  | .send receiver _ args | .perform receiver _ args => receiver :: args

namespace Session

variable {machine : Machine} {x : Session}

/-- A host calls with values that it holds. -/
theorem held_of_call? {host : List Value} (hh : ∀ v ∈ host, v ∈ x.host) (hnil : .nil ∈ x.host)
    {r : Request} {call : HostCall} (asked : r.call? host = some call) :
    ∀ v ∈ call.values, v ∈ x.host := by
  cases r with
  | send receiver selector args =>
    cases asked
    refine List.forall_mem_cons.2 ⟨held_mem hh hnil receiver, fun v hv => ?_⟩
    obtain ⟨n, -, rfl⟩ := List.mem_map.1 hv
    exact held_mem hh hnil n
  | main =>
    cases asked
    exact List.forall_mem_nil _
  | _ => cases asked

/-- **What a machine comes by for a host call, it comes by in moves.** -/
theorem visits_moves {s t : State} {call : HostCall} (visits : machine.Visits s call t)
    (state : x.state = s) (held : ∀ v ∈ call.values, v ∈ x.host) :
    ∃ y, Relation.ReflTransGen (Move machine) x y ∧ y.state = t := by
  induction visits generalizing x with
  | @entered s t receiver code args callee m invoked entered =>
    obtain ⟨s₀, host, history⟩ := x
    obtain rfl : s₀ = s := state
    obtain ⟨hr, ha⟩ := List.forall_mem_cons.1 held
    have asks : Asks machine.image s₀.abandon.memory host (.enter callee m) :=
      invoked ▸ .method code hr ha
    exact ⟨_, (Relation.ReflTransGen.single .abandon).tail (.enter asks entered), rfl⟩
  | send _ _ ih => exact ih state held
  | @main s t cls code store receiver known found made visits ih =>
    obtain ⟨⟨m, calls⟩, host, history⟩ := x
    obtain rfl := state
    cases made
    obtain ⟨y, reached, rest⟩ :=
      @ih ⟨⟨_, calls⟩, (Image.instantiate m.store cls).2 :: host, history⟩ rfl
        (List.forall_mem_cons.2 ⟨List.mem_cons_self, List.forall_mem_nil _⟩)
    exact ⟨y, .head (.object cls) reached, rest⟩
  | step _ hs ih =>
    obtain ⟨⟨_, host, history⟩, reached, rfl⟩ := ih state held
    exact ⟨_, reached.tail (.step hs), rfl⟩

/-- A frame that stays on the call stack in a step stays that of the same activation. -/
theorem Coherent.frame_of_step (hx : x.Coherent machine) {s' : State}
    (hs : machine.step x.state = .running s') {f : FrameId} {fr : Frame Value}
    (here : x.state.memory.frames.get? f = some fr) (on : f ∈ x.state.calls.frames)
    (on' : f ∈ s'.calls.frames) :
    ∃ fr', s'.memory.frames.get? f = some fr' ∧ fr.SameLinks fr' := by
  obtain ⟨x', stepped, rfl⟩ := Stepped.exists rfl hs
  have retains : x.Retains f (x.history.number f) fr := ⟨rfl, fr, here, .refl fr⟩
  exact (retains.move stepped.move hx on on').frame

end Session

/-! ## What becomes of a call -/

/-- A call runs in the frame of a method, its own home, or its code is nested in that of its
home. -/
theorem Arena.Coherent.own_or_nested {a : Arena Value} {Q : Closure Value → Prop} {R : Ref → Prop}
    {calls : List Call} (h : a.Coherent Q R calls) {c : Call} (hc : c ∈ calls) {fr : Frame Value}
    (here : a.get? c.frame = some fr) : fr.home = c.frame ∨ a.Nests fr.home c.code := by
  obtain ⟨fr', here', code, -, anchored⟩ := h.call_frame hc
  cases here.symm.trans here'
  generalize hhome : fr.home = home at anchored
  cases anchored with
  | method => exact .inl rfl
  | block there inside home outer kept nested =>
    cases here.symm.trans there
    exact .inr (code ▸ nested)

/-- **A call of code that answers `self` ends with a return of its receiver.** -/
theorem Call.Ends.of_answersSelf {c : Call} {m : Memory} {v : Value} {left : List Value}
    {a : Arena Value} {is : List Instruction} (ends : c.Ends m v left)
    (answers : c.code.block.AnswersSelf) (reads : Reads c.code.block.bytecode 0 is c.ip)
    (latest : ∀ before i, is = before ++ [i] → i.isSend = true ∨ c.HasDone a i) :
    ∃ fr, a.get? c.frame = some fr ∧ v = fr.receiver ∧ c.Returns ∧ c.stack.head? = some v := by
  obtain ⟨straight, plain, all⟩ := answers.code
  cases ends with
  | ranOut decoded =>
    -- the last instruction was the return, after which there is no call
    have read : is = (straight ++ [.pushSelf]) ++ [.ret] := by
      rw [all.whole reads decoded, List.append_assoc]
      rfl
    rcases latest _ _ read with sends | hasDone
    · cases sends
    · cases hasDone.goesOn
  | blockReturn decoded =>
    obtain ⟨later, split⟩ := all.through reads decoded
    have on : Instruction.blockReturn ∈ straight ++ [.pushSelf, .ret] := by simp [split]
    rcases List.mem_append.1 on with on | on
    · cases plain _ on
    · simp at on
  | @ret next decoded operands =>
    obtain ⟨later, split⟩ := all.through reads decoded
    have before : Instruction.ret ∉ straight ++ [.pushSelf] := fun on => by
      rcases List.mem_append.1 on with on | on
      · cases plain _ on
      · simp at on
    rw [List.append_cons] at split
    obtain ⟨read, -⟩ := (List.append_cons_inj_of_notMem before List.not_mem_nil).1 split
    rw [eq_comm] at read
    rcases latest _ _ read with sends | hasDone
    · cases sends
    · obtain ⟨fr, below, here, top⟩ := hasDone.self rfl
      rw [operands] at top
      exact ⟨fr, here, (List.cons.inj top).1, ⟨next, decoded⟩, by rw [operands]; rfl⟩

/-- **A step that is no return leaves the calls below the innermost one**; the next of them may have
got a value. -/
theorem Call.Takes.keeps {machine : Machine} {m : Memory} {c d : Call} {inner outer : List Call}
    {s' : State} (takes : c.Takes machine m (inner ++ d :: outer) s')
    (unreturning : ¬ (c.Returns ∧ c.stack ≠ [])) :
    ∃ inner' d', s'.calls.calls = inner' ++ d' :: outer ∧ d'.frame = d.frame
      ∧ d'.code = d.code := by
  cases takes with
  | next => exact ⟨_ :: inner, d, rfl, rfl, rfl⟩
  | enter => exact ⟨_ :: _ :: inner, d, rfl, rfl, rfl⟩
  | @leave v last past rest _ _ before ends same split left =>
    rcases left with ⟨rfl, -⟩ | ⟨⟨next, ret⟩, -⟩
    · obtain rfl : inner ++ d :: outer = rest := split
      cases inner with
      | nil => exact ⟨[], { d with stack := v :: d.stack }, rfl, rfl, rfl⟩
      | cons e inner => exact ⟨{ e with stack := v :: e.stack } :: inner, d, rfl, rfl, rfl⟩
    · exfalso
      cases ends with
      | ranOut decoded | blockReturn decoded => cases ret.symm.trans decoded
      | ret decoded operands => exact unreturning ⟨⟨next, ret⟩, by simp [operands]⟩

namespace Machine

/-- The call `d`, which `outer` wait for, is still in progress, in its frame and for its receiver;
it is now `d'` and waits for `inner`. -/
structure Continues (s : State) (d : Call) (outer : List Call) (receiver : Value)
    (inner : List Call) (d' : Call) : Prop where
  calls : s.calls.calls = inner ++ d' :: outer
  frame : d'.frame = d.frame
  code : d'.code = d.code
  here : ∃ fr, s.memory.frames.get? d.frame = some fr ∧ fr.receiver = receiver

/-- **What a step from `s` makes of a call in progress**: `inner` are the calls that it waits for,
and `outer` those that wait for it. -/
inductive Fares (s : State) (inner : List Call) (d : Call) (outer : List Call) (receiver : Value) :
    Progress → Prop where
  /-- The call is still in progress. -/
  | goesOn {s' : State} {inner' : List Call} {d' : Call}
      (continues : Continues s' d outer receiver inner' d') :
      Fares s inner d outer receiver (.running s')
  /-- The call was the innermost one and is over; its caller, or the host, gets its
  receiver. -/
  | answers {m : Memory} (innermost : inner = []) :
      Fares s inner d outer receiver (State.resume ⟨m, .of outer⟩ receiver)
  /-- The innermost call has returned to a home among `outer`. -/
  | unwound {c e : Call} {fc : Frame Value} {v : Value} {past further : List Call} {m : Memory}
      (returning : s.Returning c fc v) (home : e.frame = fc.home)
      (split : outer = past ++ e :: further) :
      Fares s inner d outer receiver (State.resume ⟨m, .of further⟩ v)
  | fails {f : Failure} {s' : State} : Fares s inner d outer receiver (.failed f s')

section Steps

variable {machine : Machine} {x : Session} {c d : Call} {inner outer : List Call}
  {fr : Frame Value}

/-- A call that stays on the call stack goes on. -/
theorem fares_of_running (hx : x.Coherent machine)
    (calls : x.state.calls.calls = inner ++ d :: outer)
    (here : x.state.memory.frames.get? d.frame = some fr) {s' : State}
    (hs : machine.step x.state = .running s')
    (stays : ∃ inner' d', s'.calls.calls = inner' ++ d' :: outer ∧ d'.frame = d.frame
      ∧ d'.code = d.code) :
    Fares x.state inner d outer fr.receiver (machine.step x.state) := by
  have on : d.frame ∈ x.state.calls.frames := by simp [CallStack.frames, calls]
  obtain ⟨inner', d', calls', frame, code⟩ := stays
  have on' : d.frame ∈ s'.calls.frames := by simp [CallStack.frames, calls', frame]
  obtain ⟨fr', here', links⟩ := hx.frame_of_step hs here on on'
  rw [hs]
  exact .goesOn ⟨calls', frame, code, fr', here', links.receiver⟩

/-- **The innermost call goes on or answers `self`**, if its code is that of a method that does
so. -/
theorem fares_innermost (hx : x.Coherent machine) (calls : x.state.calls.calls = d :: outer)
    (method : d.code.id.path = []) (answers : d.code.block.AnswersSelf)
    (here : x.state.memory.frames.get? d.frame = some fr) {is : List Instruction}
    (reads : Reads d.code.block.bytecode 0 is d.ip)
    (latest : ∀ before i, is = before ++ [i] →
      i.isSend = true ∨ d.HasDone x.state.memory.frames i) :
    Fares x.state [] d outer fr.receiver (machine.step x.state) := by
  have ended {m : Memory} {v : Value} {left : List Value} (ends : d.Ends m v left) :
      Fares x.state [] d outer fr.receiver (machine.step x.state) := by
    obtain ⟨fr', here', rfl, returns, operand⟩ := ends.of_answersSelf answers reads latest
    cases here.symm.trans here'
    have returning : x.state.Returning d fr fr.receiver :=
      ⟨by rw [calls]; rfl, returns, operand, here⟩
    obtain ⟨R, coherent⟩ := hx
    have home : fr.home = d.frame := by
      rcases coherent.arena.own_or_nested (by simp [calls]) here with own | ⟨_, k, -, nested⟩
      · exact own
      · obtain ⟨_, -, code⟩ := Option.map_eq_some_iff.1 nested
        rw [← code] at method
        cases method
    obtain ⟨_, m', -, -, stepped⟩ :=
      step_of_return coherent returning (show _ = [] ++ d :: outer from calls) home.symm
    rw [stepped]
    exact .answers rfl
  cases hs : machine.step x.state with
  | failed f s' => exact .fails
  | finished v s' =>
    obtain ⟨_, _, calls', takes⟩ := @exists_takes machine x.state (by simp [hs])
    cases calls.symm.trans calls'
    rw [hs] at takes
    obtain ⟨-, m, left, -, ends⟩ := takes
    exact hs ▸ ended ends
  | running s' =>
    rw [← hs]
    have goesOn := fares_of_running hx (show _ = [] ++ d :: outer from calls) here hs
    cases takes_of_step hs calls with
    | next => exact goesOn ⟨[], _, rfl, rfl, rfl⟩
    | enter => exact goesOn ⟨[_], _, rfl, rfl, rfl⟩
    | leave _ ends => exact ended ends

/-- A block in code that answers `self` does not return. -/
theorem not_returns_of_nested (answers : d.code.block.AnswersSelf) {k : Nat}
    (nested : d.code.nested? k = some c.code) {is : List Instruction}
    (reads : Reads c.code.block.bytecode 0 is c.ip) : ¬ c.Returns := by
  rintro ⟨next, decoded⟩
  obtain ⟨e, entry, code⟩ := Option.map_eq_some_iff.1 nested
  obtain ⟨straight, plain, all⟩ := answers.nested k e entry
  rw [← code] at reads decoded
  obtain ⟨later, split⟩ := all.through reads decoded
  have on : Instruction.ret ∈ straight ++ [.blockReturn] := by simp [split]
  rcases List.mem_append.1 on with on | on
  · cases plain _ on
  · simp at on

/-- **A return above a call that answers `self` is one to another home**: to a call further in,
which leaves the call in progress, or further out. -/
theorem fares_returning (hx : x.Coherent machine)
    (calls : x.state.calls.calls = c :: inner ++ d :: outer) (answers : d.code.block.AnswersSelf)
    (here : x.state.memory.frames.get? d.frame = some fr) {is : List Instruction}
    (reads : Reads c.code.block.bytecode 0 is c.ip) {fc : Frame Value} {v : Value}
    (returning : x.state.Returning c fc v) :
    Fares x.state (c :: inner) d outer fr.receiver (machine.step x.state) := by
  have goesOn {s' : State} (hs : machine.step x.state = .running s') :=
    fares_of_running hx calls here hs
  obtain ⟨R, coherent⟩ := hx
  have hc : c ∈ x.state.calls.calls := by simp [calls]
  have away : fc.home ≠ d.frame := by
    intro home
    rcases coherent.arena.own_or_nested hc returning.frame with own | ⟨fr', k, here', nested⟩
    · have distinct := coherent.arena.distinct
      rw [calls, List.cons_append, List.map_cons, ← own, home] at distinct
      exact (List.nodup_cons.1 distinct).1 (by simp)
    · rw [home] at here'
      rw [(coherent.arena.running d (by simp [calls])).code fr' here'] at nested
      exact not_returns_of_nested answers nested reads returning.instruction
  by_cases on : fc.home ∈ x.state.calls.frames
  · obtain ⟨e, he, home⟩ := List.mem_map.1 on
    obtain ⟨past, further, split⟩ := List.append_of_mem he
    obtain ⟨_, m, -, -, stepped⟩ := step_of_return coherent returning split home
    have other : e ≠ d := fun same => away (by rw [← home, same])
    rw [calls] at split
    rcases List.append_eq_append_iff.1 split with ⟨between, -, below⟩ | ⟨between, -, below⟩
    -- the home is `d` itself, or below it
    · cases between with
      | nil => exact absurd (List.cons.inj below).1.symm other
      | cons b between =>
        obtain ⟨rfl, rfl⟩ := List.cons.inj below
        rw [stepped]
        exact .unwound returning home rfl
    -- the home is above `d`, or `d` itself
    · cases between with
      | nil => exact absurd (List.cons.inj below).1 other
      | cons b between =>
        obtain ⟨rfl, rfl⟩ := List.cons.inj below
        cases between with
        | nil => exact goesOn stepped ⟨[], _, rfl, rfl, rfl⟩
        | cons b between => exact goesOn stepped ⟨_ :: between, d, rfl, rfl, rfl⟩
  · obtain ⟨cause, s', stepped, -⟩ := step_of_late_return machine returning on
    rw [stepped]
    exact .fails

/-- **A call that waits goes on or is unwound**, if its code is that of a method that answers
`self`. -/
theorem fares_waiting (hx : x.Coherent machine)
    (calls : x.state.calls.calls = c :: inner ++ d :: outer) (answers : d.code.block.AnswersSelf)
    (here : x.state.memory.frames.get? d.frame = some fr) {is : List Instruction}
    (reads : Reads c.code.block.bytecode 0 is c.ip) :
    Fares x.state (c :: inner) d outer fr.receiver (machine.step x.state) := by
  obtain ⟨fc, frame⟩ : ∃ fc, x.state.memory.frames.get? c.frame = some fc := by
    obtain ⟨R, coherent⟩ := hx
    exact (coherent.arena.running c (by simp [calls])).active.exists_frame
  by_cases returns : c.Returns ∧ c.stack ≠ []
  · obtain ⟨v, operand⟩ : ∃ v, c.stack.head? = some v := by
      cases hstack : c.stack with
      | nil => exact absurd hstack returns.2
      | cons v below => exact ⟨v, rfl⟩
    exact fares_returning hx calls answers here reads
      ⟨by rw [calls]; rfl, returns.1, operand, frame⟩
  · cases hs : machine.step x.state with
    | failed f s' => exact .fails
    | running s' =>
      rw [← hs]
      exact fares_of_running hx calls here hs ((takes_of_step hs calls).keeps returns)
    | finished v s' =>
      -- a call would be left
      obtain ⟨_, _, calls', takes⟩ := @exists_takes machine x.state (by simp [hs])
      cases calls.symm.trans calls'
      rw [hs] at takes
      obtain ⟨_, _, left, -⟩ := takes.1.keeps returns
      obtain ⟨R, coherent⟩ := hx
      have empty := step_restacks coherent
      rw [hs] at empty
      have frames := empty.1
      rw [CallStack.frames, left] at frames
      simp at frames

end Steps

/-! ## Runs of compiled programs -/

variable {machine : Machine} {s t u : State} {call : HostCall} {d : Call} {inner outer : List Call}
  {fr : Frame Value}

section Reached

variable {classes : List LoadClass} {log : Log} {store : Store} {transcript : Transcript}
  {requests : List Request} {host : List Value} {r : Request}

/-- Every state that a machine comes by after requests is that of a session. -/
theorem reached_of_visits (loaded : Image.load classes = (log, .ok (machine.image, store)))
    (after : machine.after (start store transcript) [] requests = (s, host))
    (asked : r.call? host = some call) (visits : machine.Visits s call t) :
    ∃ x : Session, Relation.ReflTransGen (Session.Move machine) (.start store transcript) x
      ∧ x.state = t := by
  obtain ⟨x, reached, state, held⟩ := Session.after_moves (Session.coherent_start loaded transcript)
    (List.forall_mem_nil _) requests
  rw [show (Session.start store transcript).state = start store transcript from rfl, after]
    at state held
  have made : Session.Move machine x ⟨x.state, .nil :: x.host, x.history⟩ := .plain (.inl trivial)
  obtain ⟨y, further, rfl⟩ := Session.visits_moves
    (x := ⟨x.state, .nil :: x.host, x.history⟩) visits state
    (Session.held_of_call? (fun v hv => List.mem_cons_of_mem _ (held v hv)) List.mem_cons_self
      asked)
  exact ⟨y, (reached.tail made).trans further, rfl⟩

/-- In every state that a machine comes by after requests, everything that can be reached is
sound. -/
theorem coherent_of_visits (loaded : Image.load classes = (log, .ok (machine.image, store)))
    (after : machine.after (start store transcript) [] requests = (s, host))
    (asked : r.call? host = some call) (visits : machine.Visits s call t) :
    ∃ x : Session, x.state = t ∧ x.Coherent machine := by
  obtain ⟨x, reached, state⟩ := reached_of_visits loaded after asked visits
  exact ⟨x, state, (Session.linked_of_reached loaded reached).1⟩

end Reached

/-- **What becomes of a call in a step**, if its code is that of a method that answers `self`. -/
theorem Visits.fares (visits : machine.Visits s call t) (rests : s.Rests)
    (coherent : ∃ x : Session, x.state = t ∧ x.Coherent machine)
    (calls : t.calls.calls = inner ++ d :: outer) (method : d.code.id.path = [])
    (answers : d.code.block.AnswersSelf) (here : t.memory.frames.get? d.frame = some fr) :
    Fares t inner d outer fr.receiver (machine.step t) := by
  obtain ⟨ready, -⟩ := visits.placed rests
  obtain ⟨x, rfl, hx⟩ := coherent
  cases inner with
  | nil =>
    obtain ⟨is, marked⟩ := ready d (by rw [calls]; rfl)
    refine fares_innermost hx calls method answers here marked.reads fun before i last => ?_
    exact visits.hasDone rests calls (last ▸ marked.reads)
  | cons c inner =>
    obtain ⟨is, marked⟩ := ready c (by rw [calls]; rfl)
    exact fares_waiting hx calls answers here marked.reads

/-- A step after which a call runs in the frame. -/
def StepsWith (machine : Machine) (f : FrameId) (t u : State) : Prop :=
  machine.step t = .running u ∧ f ∈ u.calls.frames

/-- A call whose frame is on the call stack after a step is still in progress. -/
theorem Fares.continues {receiver : Value} {p : Progress} (fares : Fares t inner d outer receiver p)
    (running : p = .running u) (on : d.frame ∈ u.calls.frames)
    (off : d.frame ∉ outer.map (·.frame)) :
    ∃ inner' d', Continues u d outer receiver inner' d' := by
  have ended {m : Memory} {calls : List Call} {v : Value} (within : calls <:+ outer)
      (resumed : State.resume ⟨m, .of calls⟩ v = .running u) : False := by
    rw [State.resume_of] at resumed
    split at resumed
    · cases resumed
    · cases resumed
      rw [CallStack.frames, CallStack.of, Call.frames_handed] at on
      exact off ((within.map _).subset on)
  cases fares with
  | goesOn continues =>
    cases running
    exact ⟨_, _, continues⟩
  | answers => exact (ended (List.suffix_refl _) running).elim
  | @unwound c e fc v past further m returning home split =>
    refine (ended ?_ running).elim
    rw [split]
    exact (List.suffix_cons e further).trans (List.suffix_append past _)
  | fails => cases running

/-- **As long as the frame of such a call is on the call stack, the call is in progress.** -/
theorem Visits.continues (visits : machine.Visits s call t) (rests : s.Rests)
    (coherent : ∀ u, machine.Visits s call u → ∃ x : Session, x.state = u ∧ x.Coherent machine)
    (calls : t.calls.calls = inner ++ d :: outer) (method : d.code.id.path = [])
    (answers : d.code.block.AnswersSelf) (here : t.memory.frames.get? d.frame = some fr)
    (lasts : Relation.ReflTransGen (machine.StepsWith d.frame) t u) :
    machine.Visits s call u ∧ ∃ inner' d', Continues u d outer fr.receiver inner' d' := by
  have off : d.frame ∉ outer.map (·.frame) := by
    obtain ⟨x, rfl, R, sound⟩ := coherent t visits
    have distinct := sound.arena.distinct
    rw [calls, List.map_append] at distinct
    exact (List.nodup_cons.1 distinct.of_append_right).1
  induction lasts with
  | refl => exact ⟨visits, inner, d, calls, rfl, rfl, fr, here, rfl⟩
  | @tail u u' _ stepped ih =>
    obtain ⟨visits, inner', d', calls', frame, code, fr', here', receiver⟩ := ih
    obtain ⟨hs, on⟩ := stepped
    have fares := visits.fares rests (coherent u visits) calls' (code ▸ method) (code ▸ answers)
      (frame ▸ here')
    rw [receiver] at fares
    obtain ⟨inner'', d'', continues⟩ := fares.continues hs (frame ▸ on) (frame ▸ off)
    exact ⟨visits.step hs, inner'', d'', continues.calls, continues.frame.trans frame,
      continues.code.trans code, frame ▸ continues.here⟩

/-- **Methods without a return statement answer `self`.**  Compile a program, on the library (as
`compile` does) or without it, and load it; let a host have made any requests, and let the next one
have code run.  Take a call of a method, at any point of that run, whose text has no return
statement, neither in its body nor in a block there.  As long as the call is in progress, it is so
for the receiver that it had, and a step leaves it in progress, or it is the innermost call and its
caller or the host gets the receiver, or a block returns to a call further out, or the step
fails. -/
theorem methods_without_return_answer_self {options : CompilerOptions} {p : Program}
    {log log' : Log} {compiled : CompiledProgram} {store : Store} {transcript : Transcript}
    {requests : List Request} {r : Request} {host : List Value} {n : Nat} {text : BodyText}
    (accepted : compileBare options p = (log, .ok compiled))
    (loaded : Image.load (LoadClass.ofProgram compiled.classes 0).1
      = (log', .ok (machine.image, store)))
    (after : machine.after (start store transcript) [] requests = (s, host))
    (asked : r.call? host = some call) (visits : machine.Visits s call t)
    (written : p.texts[n]? = some (some text)) (method : text.ending = .method)
    (returnless : text.Returnless) (calls : t.calls.calls = inner ++ d :: outer)
    (runs : d.code.id = { method := n })
    (lasts : Relation.ReflTransGen (machine.StepsWith d.frame) t u) :
    ∃ fr inner' d', t.memory.frames.get? d.frame = some fr
      ∧ Continues u d outer fr.receiver inner' d'
      ∧ Fares u inner' d' outer fr.receiver (machine.step u) := by
  obtain ⟨hi, began⟩ := Image.of_load loaded
  have served := after_of hi (began transcript) ⟨Arena.attended_empty 1, rfl⟩
    (List.forall_mem_nil _) requests
  rw [after] at served
  obtain ⟨of, rests, handed⟩ := served
  have coherent (u : State) (visits : machine.Visits s call u) :=
    coherent_of_visits loaded after asked visits
  have answers : d.code.block.AnswersSelf := by
    have of := visits.of hi of rests.attended (Request.of_call? handed asked)
    exact (of.calls d (by simp [calls])).code.answersSelf accepted written method returnless runs
  obtain ⟨fr, here⟩ : ∃ fr, t.memory.frames.get? d.frame = some fr := by
    obtain ⟨x, rfl, R, sound⟩ := coherent t visits
    exact (sound.arena.running d (by simp [calls])).active.exists_frame
  have path : d.code.id.path = [] := by rw [runs]
  obtain ⟨visits, inner', d', continues⟩ :=
    visits.continues rests coherent calls path answers here lasts
  obtain ⟨fr', here', receiver⟩ := continues.here
  refine ⟨fr, inner', d', here, continues, receiver ▸ ?_⟩
  exact visits.fares rests (coherent u visits) continues.calls (continues.code ▸ path)
    (continues.code ▸ answers) (continues.frame ▸ here')

/-- The classes that a machine cannot do without, and a method that pushes a number. -/
def touchProgram : Program :=
  { classes :=
      { name := "Object"
        methods := [{ selector := "touch"
                      kind := .code { stats := [.expr (.literal (.int 3))] } }] }
        :: ["UndefinedObject", "Boolean", "Integer", "Float", "Character", "String", "Array",
          "TranscriptStream", "BlockDescriptor"].map fun name => { name } }

/-- The code of the method. -/
def touchCode (qualified : String) : Code :=
  { block := { name := "touch", qualified
               bytecode := Instruction.encodeAll #[.pushInt 3, .pop, .pushSelf, .ret] }
    id := { method := 0 }
    owner := some 0 }

theorem touchProgram_loads : ∃ log compiled log' image store qualified,
    compileBare { debugInfo := false } touchProgram = (log, .ok compiled)
      ∧ Image.load (LoadClass.ofProgram compiled.classes 0).1 = (log', .ok (image, store))
      ∧ image.method .nil "touch" = .ok (touchCode qualified) := by
  simp [touchProgram, touchCode, compileBare, resolve, Resolve.program, Resolve.classes,
    Resolve.cls, Resolve.methods, Resolve.method, Resolve.inheritedFields, Resolve.superclassOf,
    Resolve.addFields, Resolve.check, Resolve.addScope, Resolve.openCode, Resolve.checkVars,
    Resolve.body, Resolve.stats, Resolve.stat, Resolve.expr, Resolve.maxSlots, rootClass,
    ScopeTree.globalId, ScopeTree.add, ScopeTree.empty, generate, Emit.program, Emit.cls,
    Emit.method, Emit.scopeOf, Emit.qualifiedName, Emit.report, Emit.withTable, Emit.inBlock,
    Emit.stats, Emit.stat, Emit.mark, Emit.expr, Emit.constant, Emit.instruction, Emit.statsAfter,
    Emit.finish, Emit.takeBlocks, Emit.tableBlocks, Emit.check, ScopeTree.qualifiedName,
    ScopeTree.get?, LoadClass.ofProgram, LoadClass.ofCompiled, Image.load, Image.installAll,
    Image.install, Image.inherited, Image.linkAll, Image.link, Image.finish, Image.knownClasses,
    Image.required, Image.method, Image.methodFrom, Image.classOf, Class.lookup, Class.chain,
    Image.instantiate, Value.isClass, Std.HashMap.getElem_insert, bind, EStateM.bind, pure,
    EStateM.pure, EStateM.get_apply, modify, EStateM.modifyGet_apply, throw, throwThe,
    MonadExceptOf.throw, Except.bind, Except.pure]

/-- `nil` is touched: a number is pushed and taken off, `nil` is pushed, and the return is next. -/
theorem methods_without_return_answer_self_touch : ∃ (machine : Machine) (store : Store)
    (t u : State) (d d' : Call) (inner : List Call),
    machine.Visits (start store {}) (.send .nil "touch" []) t ∧ t.calls.calls = [d]
      ∧ Relation.ReflTransGen (machine.StepsWith d.frame) t u ∧ Continues u d [] .nil inner d'
      ∧ Fares u inner d' [] .nil (machine.step u) := by
  obtain ⟨log, compiled, log', image, store, qualified, accepted, loaded, found⟩ :=
    touchProgram_loads
  let code := touchCode qualified
  let slot : Slot Value :=
    { generation := 1, frame := some (Frame.ofMethod .nil code .nil [] none ⟨0, 1⟩) }
  let memory : Memory := { frames := { slots := #[slot], live := 1, birth := 1 }, store }
  let state (ip : Nat) (current : Option Nat) (stack : List Value) : State :=
    ⟨memory, .of [⟨⟨0, 1⟩, code, ip, current, stack⟩]⟩
  have decoded : ∀ p : Nat × Instruction × Nat, p ∈ [(0, Instruction.pushInt 3, 5), (5, .pop, 6),
      (6, .pushSelf, 7)] → Instruction.decodeAt code.block.bytecode p.1 = .ok (some p.2) := by
    show ∀ p : Nat × Instruction × Nat, p ∈ _ →
      Instruction.decodeAt (Instruction.encodeAll _) p.1 = .ok (some p.2)
    decide
  have visits : Visits { image } (start store {}) (.send .nil "touch" []) (state 0 none []) := by
    have invoked : invoke image (start store {}).abandon.memory .nil code []
        = .enter (.method code .nil []) { store } := rfl
    refine .send found (.entered invoked ?_)
    rw [enter_eq (show 0 < 10000 by decide)]
    simp only [Arena.alloc_empty]
    rfl
  have steps {ip next : Nat} {i : Instruction} {current : Option Nat} {stack stack' : List Value}
      (decoded : Instruction.decodeAt code.block.bytecode ip = .ok (some (i, next)))
      (effect : Call.execute ⟨⟨0, 1⟩, code, next, some ip, stack⟩ image memory i
        = .next stack' memory) :
      StepsWith { image } ⟨0, 1⟩ (state ip current stack) (state next (some ip) stack') :=
    ⟨step_next rfl decoded effect, List.mem_cons_self⟩
  have lasts : Relation.ReflTransGen (StepsWith { image } ⟨0, 1⟩) (state 0 none [])
      (state 7 (some 6) [.nil]) :=
    ((Relation.ReflTransGen.single (steps (decoded (0, .pushInt 3, 5) (by simp)) rfl)).tail
      (steps (decoded (5, .pop, 6) (by simp)) rfl)).tail
      (steps (decoded (6, .pushSelf, 7) (by simp)) rfl)
  have after : after { image } (start store {}) [] [] = (start store {}, []) := rfl
  have asked : Request.call? [] (.send 0 "touch" []) = some (.send .nil "touch" []) := rfl
  have written : touchProgram.texts[0]? = some (some _) := rfl
  obtain ⟨fr, inner, d', here, continues, fares⟩ :=
    methods_without_return_answer_self accepted loaded after asked visits written rfl
      ⟨by decide, by decide⟩ (show _ = [] ++ _ :: [] from rfl) rfl lasts
  cases here
  exact ⟨{ image }, store, _, _, _, d', inner, visits, rfl, lasts, continues, fares⟩

end Machine

end Colloquy
