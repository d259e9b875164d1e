import Colloquy.Proofs.Closures
import Colloquy.Proofs.Coherence.Progress
import Colloquy.Proofs.Effects

/-!
# One change at a time

Whatever a host or a machine does, a single move adds at most one row, changes at most one value in
a row, or writes at most one line (`Session.Move.alters`).

Main statements: so a row that has been made stays, with as many values as it was made with
(`Session.Move.widens`), and a transcript that is kept in a buffer goes on being kept there
(`Session.Move.buffered`).
-/

namespace Colloquy

/-- Rows may have been added and contents changed, but every row that was there has its width. -/
structure Store.Widens (s s' : Store) : Prop where
  size : s.rows.size ≤ s'.rows.size
  row : ∀ r < s.rows.size, (s'.row r).size = (s.row r).size

namespace Store.Widens

variable {s s' s'' : Store}

theorem refl (s : Store) : s.Widens s := ⟨Nat.le_refl _, fun _ _ => rfl⟩

theorem trans (h : s.Widens s') (h' : s'.Widens s'') : s.Widens s'' :=
  ⟨Nat.le_trans h.size h'.size, fun r hr =>
    (h'.row r (Nat.lt_of_lt_of_le hr h.size)).trans (h.row r hr)⟩

theorem add (s : Store) (values : Array Value) : s.Widens (s.add values).1 :=
  ⟨by simp [Store.add], fun r hr => by rw [row_add_of_ne (Nat.ne_of_lt hr)]⟩

theorem set (s : Store) (r : Ref) (i : Nat) (v : Value) : s.Widens (s.set r i v) := by
  refine ⟨by simp [Store.set], fun r' _ => ?_⟩
  by_cases h : r = r'
  · rw [← h, row_set_self, Array.size_setIfInBounds]
  · rw [row_set_of_ne h]

end Store.Widens

variable {m m₁ m' : Memory} {machine : Machine}

/-! ## Changes -/

/-- Rows and transcript have changed in one place at most. -/
inductive Memory.Alters (m m' : Memory) : Prop where
  | same (store : m'.store = m.store) (transcript : m'.transcript = m.transcript)
  | add (values : Array Value) (store : m'.store = (m.store.add values).1)
      (transcript : m'.transcript = m.transcript)
  | set (r : Ref) (i : Nat) (v : Value) (store : m'.store = m.store.set r i v)
      (transcript : m'.transcript = m.transcript)
  | write (line : String) (store : m'.store = m.store)
      (written : m.transcript.write? line = some m'.transcript)

namespace Memory.Alters

theorem refl (m : Memory) : m.Alters m := .same rfl rfl

theorem of_sameData (h : m.SameData m') : m.Alters m' := .same h.store h.transcript

/-- Data that were the same before. -/
theorem after (same : m.SameData m₁) (h : m₁.Alters m') : m.Alters m' := by
  obtain ⟨rows, -, lines⟩ := same
  cases h with
  | same store transcript => exact .same (store.trans rows) (transcript.trans lines)
  | add values store transcript => exact .add values (rows ▸ store) (transcript.trans lines)
  | set r i v store transcript => exact .set r i v (rows ▸ store) (transcript.trans lines)
  | write line store written => exact .write line (store.trans rows) (lines ▸ written)

/-- Data that stay the same afterwards. -/
theorem before (h : m.Alters m₁) (same : m₁.SameData m') : m.Alters m' := by
  obtain ⟨rows, -, lines⟩ := same
  cases h with
  | same store transcript => exact .same (rows.trans store) (lines.trans transcript)
  | add values store transcript => exact .add values (rows.trans store) (lines.trans transcript)
  | set r i v store transcript => exact .set r i v (rows.trans store) (lines.trans transcript)
  | write line store written => exact .write line (rows.trans store) (lines.symm ▸ written)

theorem widens (h : m.Alters m') : m.store.Widens m'.store := by
  cases h with
  | same store => exact store ▸ .refl _
  | add values store => exact store ▸ .add _ _
  | set r i v store => exact store ▸ .set _ _ _ _
  | write line store => exact store ▸ .refl _

theorem buffered (h : m.Alters m') (buffer : m.transcript.sink = .buffer) :
    m'.transcript.sink = .buffer := by
  cases h with
  | same _ transcript => rwa [transcript]
  | add _ _ transcript => rwa [transcript]
  | set _ _ _ _ transcript => rwa [transcript]
  | write line _ written =>
    have kept : m.transcript = ⟨.buffer, m.transcript.text⟩ := by rw [← buffer]
    rw [kept] at written
    exact (congrArg Transcript.sink (Option.some.inj written)).symm

end Memory.Alters

/-- At most one row has been made. -/
inductive Memory.Grows (m m' : Memory) : Prop where
  | same (store : m'.store = m.store) (transcript : m'.transcript = m.transcript)
  | add (values : Array Value) (store : m'.store = (m.store.add values).1)
      (transcript : m'.transcript = m.transcript)

namespace Memory.Grows

theorem refl (m : Memory) : m.Grows m := .same rfl rfl

/-- Data that were the same before. -/
theorem after (same : m.SameData m₁) (h : m₁.Grows m') : m.Grows m' := by
  cases h with
  | same store transcript =>
    exact .same (store.trans same.store) (transcript.trans same.transcript)
  | add values store transcript =>
    exact .add values (same.store ▸ store) (transcript.trans same.transcript)

/-- Nothing is written. -/
theorem transcript_eq (h : m.Grows m') : m'.transcript = m.transcript := by
  cases h with
  | same store transcript => exact transcript
  | add values store transcript => exact transcript

/-- Rows that are there stay as they are. -/
theorem row_eq (h : m.Grows m') {r : Ref} (there : r < m.store.rows.size) :
    m'.store.row r = m.store.row r := by
  cases h with
  | same store => rw [store]
  | add values store => rw [store, Store.row_add_of_ne (Nat.ne_of_lt there)]

theorem alters (h : m.Grows m') : m.Alters m' := by
  cases h with
  | same store transcript => exact .same store transcript
  | add values store transcript => exact .add values store transcript

end Memory.Grows

/-! ## Replies and effects -/

namespace Primitive

variable (m : Memory)

theorem grows_answer (x : Checked Value) : m.Grows (answer m x).memory := by
  cases x <;> exact .refl _

theorem grows_answerString (x : Checked String) : m.Grows (answerString m x).memory := by
  cases x with
  | error e => exact .refl _
  | ok text => exact .same rfl rfl

theorem grows_answerArray (x : Checked (Array Value)) : m.Grows (answerArray m x).memory := by
  cases x with
  | error e => exact .refl _
  | ok values => exact .add values rfl rfl

theorem grows_answerInstance (x : Checked Class) : m.Grows (answerInstance m x).memory := by
  cases x with
  | error e => exact .refl _
  | ok cls => exact .add _ rfl rfl

theorem grows_enter (x : Checked Callee) : m.Grows (enter m x).memory := by
  cases x <;> exact .refl _

variable {m} {i : Image} {receiver v : Value} {args : List Value}

theorem argument_zero (h : argument args 0 = .ok v) : ∃ rest, args = v :: rest := by
  cases args with
  | nil => cases h
  | cons w rest =>
    cases h
    exact ⟨rest, rfl⟩

/-- A store into an array is one into the place that the index names. -/
theorem arrayPut_eq_ok {s : Store} {r : Ref} {k : Nat}
    (h : arrayPut i s receiver args = .ok (r, k, v)) :
    receiver = .array r ∧ ∃ (index : Int32) (rest : List Value), args = .int index :: v :: rest
      ∧ 1 ≤ index.toInt ∧ index.toInt ≤ (s.row r).size ∧ k = index.toInt.toNat - 1 := by
  obtain ⟨row, array, h⟩ := Checked.bind_eq_ok.1 h
  obtain ⟨first, given, h⟩ := Checked.bind_eq_ok.1 h
  obtain ⟨index, int, h⟩ := Checked.bind_eq_ok.1 h
  obtain ⟨second, given', h⟩ := Checked.bind_eq_ok.1 h
  obtain ⟨place, inside, h⟩ := Checked.bind_eq_ok.1 h
  cases h
  have array : receiver = .array r := by
    cases receiver <;> cases array
    rfl
  have int : first = .int index := by
    cases first <;> cases int
    rfl
  obtain ⟨rest, rfl⟩ := argument_zero given
  obtain ⟨rest, rfl⟩ : ∃ others, rest = v :: others := by
    cases rest with
    | nil => cases given'
    | cons w others =>
      cases given'
      exact ⟨others, rfl⟩
  unfold offset at inside
  dsimp only at inside
  split at inside
  · rename_i bounds
    cases inside
    exact ⟨array, index, rest, by rw [int], bounds.1, bounds.2, rfl⟩
  · cases inside

/-- **What a primitive can have changed:** `at:put:` one place of the array, `show:` the transcript,
and the others at most add a row. -/
inductive Changes (p : Primitive) (m : Memory) (receiver : Value) (args : List Value)
    (m' : Memory) : Prop where
  | grows (h : m.Grows m')
  | put {r : Ref} {index : Int32} {v : Value} {rest : List Value} (puts : p = .arrayAtPut)
      (array : receiver = .array r) (given : args = .int index :: v :: rest)
      (least : 1 ≤ index.toInt) (most : index.toInt ≤ (m.store.row r).size)
      (store : m'.store = m.store.set r (index.toInt.toNat - 1) v)
      (transcript : m'.transcript = m.transcript)
  | write {v : Value} {rest : List Value} (shows : p = .transcriptShow) (given : args = v :: rest)
      (store : m'.store = m.store)
      (written : m.transcript.write? (v.render m.store) = some m'.transcript)

/-- Data that were the same before. -/
theorem Changes.after {p : Primitive} (same : m.SameData m₁) (h : p.Changes m₁ receiver args m') :
    p.Changes m receiver args m' := by
  have rows := same.store
  have lines := same.transcript
  cases h with
  | grows h => exact .grows (h.after same)
  | put puts array given least most store transcript =>
    rw [rows] at most store
    exact .put puts array given least most store (transcript.trans lines)
  | write shows given store written =>
    rw [rows, lines] at written
    exact .write shows given (store.trans rows) written

theorem Changes.alters {p : Primitive} (h : p.Changes m receiver args m') : m.Alters m' := by
  cases h with
  | grows h => exact h.alters
  | put _ _ _ _ _ store transcript => exact .set _ _ _ store transcript
  | write _ _ store written => exact .write _ store written

theorem changes_show (receiver : Value) (args : List Value) :
    transcriptShow.Changes m receiver args
      (showLine m receiver (argumentText m args)).memory := by
  cases given : argument args 0 with
  | error e =>
    rw [argumentText, given]
    exact .grows (.refl _)
  | ok v =>
    obtain ⟨rest, rfl⟩ := argument_zero given
    rw [argumentText, given]
    simp only [showLine, Except.map]
    split
    · rename_i written
      exact .write rfl rfl rfl written
    · exact .grows (.refl _)

theorem changes_put (i : Image) (receiver : Value) (args : List Value) :
    arrayAtPut.Changes m receiver args (putAnswer m (arrayPut i m.store receiver args)).memory := by
  cases put : arrayPut i m.store receiver args with
  | error e => exact .grows (.refl _)
  | ok place =>
    obtain ⟨r, k, v⟩ := place
    obtain ⟨array, index, rest, given, least, most, rfl⟩ := arrayPut_eq_ok put
    exact .put rfl array given least most rfl rfl

theorem apply_changes (p : Primitive) (i : Image) (m : Memory) (receiver : Value)
    (args : List Value) : p.Changes m receiver args (p.apply i m receiver args).memory := by
  cases p with
  | arrayAtPut => exact changes_put i receiver args
  | transcriptShow => exact changes_show receiver args
  | objectHash => exact .grows (.refl _)
  | objectBasicNew => exact .grows (grows_answerInstance m _)
  | stringAsArray | arrayNew => exact .grows (grows_answerArray m _)
  | objectAsString | objectClassName => exact .grows (.same rfl rfl)
  | stringNew | stringCat => exact .grows (grows_answerString m _)
  | booleanIfTrueIfFalse | blockValue | blockValue1 | blockValue2 => exact .grows (grows_enter m _)
  | booleanIfTrue =>
    simp only [apply]
    split <;> exact .grows (.refl _)
  | _ => exact .grows (grows_answer m _)

end Primitive

/-- **What calling a method can have changed** is what its primitive has. -/
theorem invoke_changes (i : Image) (m : Memory) (receiver : Value) (code : Code)
    (args : List Value) :
    m.Grows (invoke i m receiver code args).memory
      ∨ ∃ p, code.block.primitive = some p ∧ args.length = p.arity
        ∧ p.Changes m receiver args (invoke i m receiver code args).memory := by
  unfold invoke
  split
  · exact .inl (.refl _)
  · rename_i arity
    have arity : args.length = code.arity := not_not.1 arity
    split
    · rename_i p primitive
      rw [Code.arity, primitive] at arity
      exact .inr ⟨p, primitive, arity, p.apply_changes i m receiver args⟩
    · exact .inl (.refl _)

theorem invoke_alters (i : Image) (m : Memory) (receiver : Value) (code : Code)
    (args : List Value) : m.Alters (invoke i m receiver code args).memory := by
  rcases invoke_changes i m receiver code args with grows | ⟨p, -, -, changes⟩
  · exact grows.alters
  · exact changes.alters

theorem Session.Asks.alters {image : Image} {host : List Value} {reply : Reply}
    (asks : Session.Asks image m host reply) : m.Alters reply.memory := by
  cases asks with
  | method code _ _ => exact invoke_alters image m _ code _
  | primitive p _ _ => exact (p.apply_changes image m _ _).alters

/-- **Instructions change one place at most.** -/
theorem Call.Does.alters {c : Call} {i : Image} {instruction : Instruction} {effect : Effect}
    (h : c.Does i m instruction effect) : m.Alters effect.memory := by
  cases h with
  | push | pop | finish | escape | fault => exact .refl m
  | array => exact .add _ rfl rfl
  | storeField => exact .set _ _ _ rfl rfl
  | storeLocal | block | debug => exact .same rfl rfl
  | @send _ receiver args below code m₁ _ _ _ logged replies =>
    rw [← replies, Reply.memory_effect]
    exact .after logged.data (invoke_alters i m₁ receiver code args)

/-! ## Steps and moves -/

/-- What a step leaves has changed in one place at most. -/
def Progress.Alters (m : Memory) : Progress → Prop
  | .running s | .finished _ s | .failed _ s => m.Alters s.memory

namespace Machine

variable {s : State} {c : Call} {rest : List Call}

theorem resume_alters (h : m.Alters s.memory) (v : Value) : (s.resume v).Alters m := by
  obtain ⟨memory, ⟨calls, depth, hd⟩⟩ := s
  cases calls <;> exact h

theorem enter_alters (h : m.Alters s.memory) (callee : Callee) :
    (machine.enter s callee).Alters m := by
  by_cases room : s.calls.depth < machine.maxDepth
  · rw [enter_eq room]
    refine h.before ⟨?_, ?_, ?_⟩
    · exact Memory.store_trace _ _
    · exact Memory.serial_trace _ _
    · exact Memory.transcript_trace _ _
  · unfold enter
    rw [if_neg room]
    exact h

theorem logCalls_alters {p : Progress} (h : p.Alters m) : (machine.logCalls p).Alters m :=
  logCalls_keeps (P := (·.Alters m)) h fun _ _ _ logs before =>
    Memory.Alters.before before logs.data

theorem carryOut_alters {effect : Effect} (h : m.Alters effect.memory) :
    (machine.carryOut c rest effect).Alters m := by
  cases effect with
  | next stack m₁ =>
    have running : (Progress.running ⟨m₁, .of ({ c with stack } :: rest)⟩).Alters m := h
    exact logCalls_alters running
  | enter stack callee m₁ =>
    have entered : (machine.enter ⟨m₁, .of ({ c with stack } :: rest)⟩ callee).Alters m :=
      enter_alters h callee
    exact logCalls_alters entered
  | finish stack v m₁ =>
    have left : m.Alters (m₁.leave { c with stack }) := h.before (Memory.sameData_leave m₁ _)
    exact resume_alters left v
  | escape stack v m₁ =>
    simp only [carryOut, escape]
    split
    · exact h
    · split
      · exact h
      · refine resume_alters ?_ v
        exact h.before (Memory.sameData_leaveReturning m₁ _)
  | fault stack cause m₁ => exact h

/-- **A step changes one place at most.** -/
theorem step_alters (machine : Machine) (s : State) : (machine.step s).Alters s.memory := by
  have steps := machine.step_stepsTo s
  generalize machine.step s = p at steps ⊢
  cases steps with
  | idle => exact .refl _
  | unread _ noted | valueless _ noted _ => exact .of_sameData noted.data
  | ends _ noted _ =>
    refine resume_alters ?_ _
    exact .of_sameData (noted.data.trans (Memory.sameData_leave _ _))
  | executes _ noted executed =>
    refine carryOut_alters ?_
    rw [← executed]
    exact .after noted.data (Call.execute_does _ _ _ _).alters

end Machine

namespace Session

variable {x x' : Session}

/-- **Every move changes one place at most.** -/
theorem Move.alters (hm : Move machine x x') : x.state.memory.Alters x'.state.memory := by
  cases hm with
  | @step s s' host h hs | @finish s s' v host h hs | @fail s s' f host h hs =>
    have altered := machine.step_alters s
    rw [hs] at altered
    exact altered
  | @abandon s => exact .of_sameData (Memory.sameData_dropAll s.memory s.calls.calls)
  | answer asks => exact asks.alters
  | @enter m m' calls callee s' host h asks hs =>
    have asked : m.Alters (State.mk m' calls).memory := asks.alters
    have altered : (machine.enter ⟨m', calls⟩ callee).Alters m :=
      Machine.enter_alters asked callee
    rw [hs] at altered
    exact altered
  | plain => exact .refl _
  | string => exact .same rfl rfl
  | array => exact .add _ rfl rfl
  | object => exact .add _ rfl rfl
  | read => exact .refl _
  | write => exact .set _ _ _ rfl rfl
  | forget => exact .refl _
  | census => exact .same rfl rfl

/-- **Every move keeps the rows.** -/
theorem Move.widens (hm : Move machine x x') :
    x.state.memory.store.Widens x'.state.memory.store :=
  hm.alters.widens

/-- **Every move keeps the buffer.** -/
theorem Move.buffered (hm : Move machine x x')
    (buffer : x.state.memory.transcript.sink = .buffer) :
    x'.state.memory.transcript.sink = .buffer :=
  hm.alters.buffered buffer

end Session

end Colloquy
