import Colloquy.Proofs.CallSites
import Colloquy.Proofs.Compile.Addressing
import Colloquy.Proofs.Dispatch
import Colloquy.Proofs.Footprint

/-!
# Identities of strings

A string has an identity besides its text.  That of a literal is its block and its number there, and
no literal stands twice in a block (`compiled_distinct`).  A string that is made while running gets
the next number, and numbers are given out once (`Session.Move.serial_le`).

Main statements: what an instruction pushes for a literal (`Machine.PushesLiteral.string`), and what
a primitive answers that makes a string (`Session.MakesString.made`).
-/

namespace Colloquy

/-! ## Literals of blocks -/

/-- The literals of the block are different, and so are those of each block in its table, which has
no table of its own. -/
structure Block.Distinct (b : Block) : Prop where
  own : b.literals.toList.Nodup
  nested : ∀ (k : Nat) (c : Block), b.blocks[k]? = some c →
    c.literals.toList.Nodup ∧ c.blocks = #[]

theorem Emit.Whole.distinct {options : CompilerOptions} {ks : List Nat} {b : Block}
    (h : Emit.Whole options ks b) : b.Distinct :=
  ⟨h.outer.distinct, fun k c entry =>
    ⟨(h.nested k c entry).1.distinct, (h.nested k c entry).1.leaf⟩⟩

theorem Emit.Makes.distinct {tree : ScopeTree} {options : CompilerOptions} {m : Method} {b : Block}
    (made : Emit.Makes tree options m b) : b.Distinct := by
  obtain ⟨g, g', h⟩ := made
  cases hm : m.kind with
  | primitive tag =>
    obtain ⟨_, -, primitive, -⟩ := Emit.method_code h
    obtain ⟨p, isPrimitive⟩ := primitive tag hm
    refine ⟨by simp [isPrimitive.literals], fun k c entry => ?_⟩
    simp [isPrimitive.blocks] at entry
  | code body => exact (Emit.method_whole hm h).distinct

/-- **No literal stands twice in a block of a compiled program.** -/
theorem compiled_distinct {options : CompilerOptions} {p : Program} {log : Log}
    {compiled : CompiledProgram} (accepted : compileBare options p = (log, .ok compiled)) :
    ∀ b ∈ compiled.classes.flatMap (·.methods), b.Distinct := by
  have pairs := @compileBare_pairs Unit options (fun _ _ => ()) (fun _ _ => ())
    (fun _ b => b.Distinct) p log compiled accepted
    (fun tree _ _ _ _ _ _ _ _ _ _ _ b made => Emit.Makes.distinct made)
    fun _ _ _ made => (Emit.mainBody_whole made).distinct
  intro b hb
  obtain ⟨_, -, distinct⟩ := forall₂_exists_of_mem pairs.flip hb
  exact distinct

/-- **No literal stands twice in the code with a given identity**, a method or a nested block. -/
theorem codeAt_distinct {ms : List Block} (h : ∀ m ∈ ms, m.Distinct) {id : BlockId} {b : Block}
    (found : codeAt ms id = some b) : b.literals.toList.Nodup := by
  obtain ⟨n, path⟩ := id
  have distinct : b.Distinct := by
    change blockAt ms n path = some b at found
    induction path generalizing b with
    | nil => exact h b (List.mem_of_getElem? found)
    | cons k path ih =>
      obtain ⟨outer, houter, hb⟩ := Option.bind_eq_some_iff.1 found
      obtain ⟨own, leaf⟩ := (ih houter).nested k b hb
      exact ⟨own, fun j c entry => by simp [leaf] at entry⟩
  exact distinct.own

/-! ## Pushing literals -/

namespace Machine

variable {machine : Machine} {t u : State} {code code' : Code} {v w : Value} {ms : List Block}

/-- The step from state `t` carries out a `push_literal` of the given code, which pushes `v`. -/
inductive PushesLiteral (machine : Machine) (t : State) : Code → Value → Prop where
  | intro {c d : Call} {rest others : List Call} {index : UInt16} {next : Nat} {t' : State}
      {v : Value} (innermost : t.calls.calls = c :: rest)
      (decoded : Instruction.decodeAt c.code.block.bytecode c.ip
        = .ok (some (.pushLiteral index, next)))
      (stepped : machine.step t = .running t') (after : t'.calls.calls = d :: others)
      (pushed : d.stack = v :: c.stack) : PushesLiteral machine t c.code v

/-- **What is pushed is the string of the literal** that the instruction names. -/
theorem PushesLiteral.reads (h : machine.PushesLiteral t code v) :
    ∃ c rest index next text, t.calls.calls = c :: rest ∧ c.code = code
      ∧ Instruction.decodeAt c.code.block.bytecode c.ip = .ok (some (.pushLiteral index, next))
      ∧ code.block.literal? index = some text
      ∧ v = .string (.literal code.id index.toNat) text := by
  cases h with
  | @intro c d rest others index next t' _ innermost decoded stepped after pushed =>
    obtain ⟨m, calls⟩ := t
    have innermost : calls.calls = c :: rest := innermost
    rw [calls.eq_of, innermost] at stepped
    obtain ⟨m₀, -, same⟩ := machine.step_eq m rest decoded
    rw [stepped] at same
    have literal : (c.moved next).literal index = c.literal index := rfl
    simp only [Call.execute, literal] at same
    cases found : c.code.block.literal? index with
    | none =>
      simp only [Call.literal, found] at same
      cases same
    | some text =>
      simp only [Call.literal, found] at same
      obtain ⟨m', -, logged⟩ := machine.logCalls_running m₀
        (.of ({ c.moved next with
          stack := .string (.literal c.code.id index.toNat) text :: c.stack } :: rest))
      cases same.trans logged
      cases after
      cases pushed
      exact ⟨c, rest, index, next, text, innermost, rfl, decoded, found, rfl⟩

theorem PushesLiteral.string (h : machine.PushesLiteral t code v) :
    ∃ index text, v = .string (.literal code.id index) text
      ∧ code.block.literals[index]? = some text := by
  obtain ⟨-, -, index, -, text, -, -, -, found, rfl⟩ := h.reads
  exact ⟨index.toNat, text, rfl, found⟩

/-- **Literals of loaded code have one identity just if they are of one block and have one
text.** -/
theorem literal_eq_iff (distinct : ∀ m ∈ ms, m.Distinct) (hc : code.Of ms) (hc' : code'.Of ms)
    {k l : Nat} {text text' : String} (entry : code.block.literals[k]? = some text)
    (entry' : code'.block.literals[l]? = some text') :
    StringId.literal code.id k = .literal code'.id l ↔ code.id = code'.id ∧ text = text' := by
  rw [StringId.literal.injEq]
  refine and_congr_right fun same => ?_
  have block : code'.block = code.block := by
    have found : codeAt ms code'.id = some code.block := same ▸ hc
    exact Option.some.inj (hc'.symm.trans found)
  rw [block] at entry'
  exact number_inj (codeAt_distinct distinct hc) entry entry'

theorem PushesLiteral.identical_iff (distinct : ∀ m ∈ ms, m.Distinct)
    (h : machine.PushesLiteral t code v) (h' : machine.PushesLiteral u code' w) (hc : code.Of ms)
    (hc' : code'.Of ms) :
    ∃ a b text text', v = .string a text ∧ w = .string b text'
      ∧ (v.identical w = true ↔ code.id = code'.id ∧ text = text') := by
  obtain ⟨k, text, rfl, entry⟩ := h.string
  obtain ⟨l, text', rfl, entry'⟩ := h'.string
  refine ⟨_, _, text, text', rfl, rfl, ?_⟩
  rw [Value.identical, decide_eq_true_eq]
  exact literal_eq_iff distinct hc hc' entry entry'

end Machine

/-! ## Identities are given out once -/

section Serials

variable {machine : Machine} {m m' : Memory} {i : Image} {receiver v : Value} {args : List Value}
  {c : Call} {rest : List Call} {s' : State}

theorem Primitive.Gives.serial_le {reply : Reply} (h : Primitive.Gives m receiver args reply) :
    m.serial ≤ reply.memory.serial := by
  cases h with
  | string text => exact Nat.le_succ _
  | _ => exact Nat.le_refl _

theorem serial_le_invoke (i : Image) (m : Memory) (receiver : Value) (code : Code)
    (args : List Value) : m.serial ≤ (invoke i m receiver code args).memory.serial := by
  rcases invoke_gives i m receiver code args with ⟨-, -, entered⟩ | gives
  · rw [entered]
    exact Nat.le_refl _
  · exact gives.serial_le

theorem Session.Asks.serial_le {host : List Value} {reply : Reply}
    (asks : Session.Asks i m host reply) : m.serial ≤ reply.memory.serial := by
  cases asks with
  | method code _ _ => exact serial_le_invoke i m _ code _
  | @primitive receiver args p _ _ =>
    rcases p.apply_gives_or_fault i m receiver args with ⟨cause, fault⟩ | ⟨first, -, gives⟩
    · rw [fault]
      exact Nat.le_refl _
    · exact gives.serial_le

theorem Call.Does.serial_le {instruction : Instruction} {effect : Effect}
    (h : c.Does i m instruction effect) : m.serial ≤ effect.memory.serial := by
  cases h with
  | push | array | pop | storeField | storeLocal | debug | finish | escape | fault =>
    exact Nat.le_refl _
  | block => exact Nat.le_succ _
  | @send _ receiver args below code m₁ _ _ _ logged replies =>
    rw [← replies, Reply.memory_effect, ← logged.data.serial]
    exact serial_le_invoke i m₁ receiver code args

theorem Call.Takes.serial_le (h : c.Takes machine m rest s') : m.serial ≤ s'.memory.serial := by
  rcases h.data with same | ⟨i, next, m₀, effect, -, before, does, after⟩
  · exact Nat.le_of_eq same.serial.symm
  · calc m.serial
        = m₀.serial := before.data.serial.symm
      _ ≤ effect.memory.serial := does.serial_le
      _ = s'.memory.serial := after.serial.symm

end Serials

namespace Session

variable {machine : Machine} {x x' y : Session}

/-- **No move takes identities back.** -/
theorem Move.serial_le (hm : Move machine x x') :
    x.state.memory.serial ≤ x'.state.memory.serial := by
  cases hm with
  | @step s s' _ _ hs =>
    obtain ⟨c, rest, -, takes⟩ := machine.exists_takes (s := s) (by simp [hs])
    rw [hs] at takes
    exact Call.Takes.serial_le takes
  | @finish s s' v _ _ hs =>
    obtain ⟨c, rest, -, takes⟩ := machine.exists_takes (s := s) (by simp [hs])
    rw [hs] at takes
    exact takes.1.serial_le
  | @fail s s' f _ _ hs =>
    have stalls := machine.step_stalls s
    rw [hs] at stalls
    cases stalls with
    | here logs | within _ _ logs => exact Nat.le_of_eq logs.data.serial.symm
  | @abandon s => exact Nat.le_of_eq (Memory.sameData_dropAll s.memory s.calls.calls).serial.symm
  | answer asks => exact asks.serial_le
  | @enter m m' calls callee s' _ _ asks hs =>
    obtain ⟨rfl, -⟩ := asks.spares
    obtain rfl := Machine.enter_eq_running hs
    refine Nat.le_of_eq (Eq.symm ?_)
    exact Memory.serial_trace _ _
  | string => exact Nat.le_succ _
  | plain | array | object | read | write | forget | census => exact Nat.le_refl _

theorem serial_le_of_reached (reached : Relation.ReflTransGen (Move machine) x y) :
    x.state.memory.serial ≤ y.state.memory.serial := by
  induction reached with
  | refl => exact Nat.le_refl _
  | tail _ hm ih => exact Nat.le_trans ih hm.serial_le

end Session

/-! ## Making strings -/

namespace Primitive

/-- The primitives that answer a new string. -/
def stringMakers : List Primitive := [objectAsString, objectClassName, stringNew, stringCat]

variable {p : Primitive} {i : Image} {m m' : Memory} {receiver v : Value} {args : List Value}

theorem answerString_made {x : Checked String} (h : answerString m x = .answer v m') :
    ∃ text, v = .string (.made m.serial) text ∧ m'.serial = m.serial + 1 := by
  cases x with
  | error e => cases h
  | ok text =>
    cases h
    exact ⟨text, rfl, rfl⟩

/-- **What makes strings answers a new one or fails.** -/
theorem apply_makes (makes : p ∈ stringMakers) (i : Image) (m : Memory) (receiver : Value)
    (args : List Value) : ∃ x, p.apply i m receiver args = answerString m x := by
  simp only [stringMakers, List.mem_cons, List.not_mem_nil, or_false] at makes
  obtain rfl | rfl | rfl | rfl := makes
  · exact ⟨.ok _, rfl⟩
  · exact ⟨.ok _, rfl⟩
  · exact ⟨_, rfl⟩
  · exact ⟨_, rfl⟩

theorem invoke_makes {code : Code} (primitive : code.block.primitive = some p)
    (makes : p ∈ stringMakers) (i : Image) (m : Memory) (receiver : Value) (args : List Value) :
    ∃ x, invoke i m receiver code args = answerString m x := by
  unfold invoke
  split
  · exact ⟨.error _, rfl⟩
  · rw [primitive]
    exact apply_makes makes i m receiver args

end Primitive

namespace Session

/-- In the move from the first session to the other one, a primitive that makes strings answers the
value: a send of the innermost call is answered by such a method, or the host calls one, or has the
primitive itself carried out. -/
inductive MakesString (machine : Machine) : Session → Value → Session → Prop where
  | send {s s' : State} {host : List Value} {h : History} {toSuper : Bool} {c d : Call}
      {others : List Call} {receiver v : Value} {selector : String} {args : List Value}
      {code : Code} {p : Primitive} (sends : s.Sending toSuper c receiver selector args)
      (found : machine.answering c toSuper receiver selector = .ok code)
      (primitive : code.block.primitive = some p) (makes : p ∈ Primitive.stringMakers)
      (stepped : machine.step s = .running s') (after : s'.calls.calls = d :: others)
      (answered : d.stack.head? = some v) :
      MakesString machine ⟨s, host, h⟩ v ⟨s', host, (h.making s).calling s s'⟩
  | call {m m' : Memory} {calls : CallStack} {host : List Value} {h : History} {receiver v : Value}
      {args : List Value} {code : Code} {p : Primitive} (primitive : code.block.primitive = some p)
      (makes : p ∈ Primitive.stringMakers) (hr : receiver ∈ host) (ha : ∀ v ∈ args, v ∈ host)
      (answers : invoke machine.image m receiver code args = .answer v m') :
      MakesString machine ⟨⟨m, calls⟩, host, h⟩ v ⟨⟨m', calls⟩, v :: host, h⟩
  | ask {m m' : Memory} {calls : CallStack} {host : List Value} {h : History} {receiver v : Value}
      {args : List Value} {p : Primitive} (makes : p ∈ Primitive.stringMakers)
      (hr : receiver ∈ host) (ha : ∀ v ∈ args, v ∈ host)
      (answers : p.apply machine.image m receiver args = .answer v m') :
      MakesString machine ⟨⟨m, calls⟩, host, h⟩ v ⟨⟨m', calls⟩, v :: host, h⟩

variable {machine : Machine} {x x' y y' : Session} {v w : Value}

theorem MakesString.move (h : MakesString machine x v x') : Move machine x x' := by
  cases h with
  | send _ _ _ _ stepped => exact .step stepped
  | call _ _ hr ha answers => exact .answer (answers ▸ .method _ hr ha)
  | ask _ hr ha answers => exact .answer (answers ▸ .primitive _ hr ha)

/-- **A string that is made has the next identity.** -/
theorem MakesString.made (h : MakesString machine x v x') :
    ∃ text, v = .string (.made x.state.memory.serial) text
      ∧ x'.state.memory.serial = x.state.memory.serial + 1 := by
  cases h with
  | @send s s' _ _ toSuper c d others receiver _ selector args code p sends found primitive makes
      stepped after answered =>
    have calls : machine.Calls s c receiver args (.ok code) := found ▸ Machine.step_sends sends
    obtain ⟨rest, below, next, m, -, logged, same⟩ := calls
    rw [stepped] at same
    obtain ⟨x, made⟩ := Primitive.invoke_makes primitive makes machine.image m receiver args
    rw [made] at same
    cases x with
    | error cause => cases same
    | ok text =>
      obtain ⟨m', logs, logged'⟩ := machine.logCalls_running (m.newString text).1
        (.of ({ c.moved next with stack := (m.newString text).2 :: below } :: rest))
      cases same.trans logged'
      cases after
      cases answered
      refine ⟨text, by rw [← logged.data.serial]; rfl, logs.data.serial.trans ?_⟩
      exact congrArg (· + 1) logged.data.serial
  | @call m m' _ _ _ receiver _ args code p primitive makes _ _ answers =>
    obtain ⟨x, made⟩ := Primitive.invoke_makes primitive makes machine.image m receiver args
    exact Primitive.answerString_made (made.symm.trans answers)
  | @ask m m' _ _ _ receiver _ args p makes _ _ answers =>
    obtain ⟨x, made⟩ := Primitive.apply_makes makes machine.image m receiver args
    exact Primitive.answerString_made (made.symm.trans answers)

/-- **Strings that are made one after the other are different objects.** -/
theorem MakesString.not_identical (first : MakesString machine x v x')
    (between : Relation.ReflTransGen (Move machine) x' y) (later : MakesString machine y w y') :
    v.identical w = false ∧ w.identical v = false := by
  obtain ⟨text, rfl, next⟩ := first.made
  obtain ⟨text', rfl, -⟩ := later.made
  have grown := serial_le_of_reached between
  have apart : x.state.memory.serial ≠ y.state.memory.serial := by omega
  simp [Value.identical, apart, apart.symm]

/-- **A string that is made is no literal.** -/
theorem MakesString.not_literal (made : MakesString machine x v x') {t : State} {code : Code}
    (pushes : machine.PushesLiteral t code w) : v.identical w = false ∧ w.identical v = false := by
  obtain ⟨text, rfl, -⟩ := made.made
  obtain ⟨k, text', rfl, -⟩ := pushes.string
  simp [Value.identical]

end Session

/-! ## Runs -/

/-- The machine comes by the state while it serves a host, whatever that has asked for before. -/
def Machine.ComesBy (machine : Machine) (store : Store) (t : State) : Prop :=
  ∃ transcript requests s host r call,
    machine.after (start store transcript) [] requests = (s, host)
    ∧ Request.call? host r = some call ∧ machine.Visits s call t

/-- All along its runs, a machine runs code of the program that it was loaded with. -/
theorem Machine.ComesBy.of {cs : List CompiledClass} {machine : Machine} {store : Store} {log : Log}
    {t : State} (h : machine.ComesBy store t)
    (loaded : Image.load (LoadClass.ofProgram cs 0).1 = (log, .ok (machine.image, store))) :
    t.Of (cs.flatMap (·.methods)) := by
  obtain ⟨transcript, requests, s, host, r, call, after, asked, visits⟩ := h
  obtain ⟨hi, began⟩ := Image.of_load loaded
  have rests : (start store transcript).Rests := ⟨Arena.attended_empty 1, rfl⟩
  have served := after_of hi (began transcript) rests (List.forall_mem_nil _) requests
  rw [after] at served
  obtain ⟨of, rests, handed⟩ := served
  exact visits.of hi of rests.attended (Request.of_call? handed asked)

theorem Machine.PushesLiteral.of {machine : Machine} {ms : List Block} {t : State} {code : Code}
    {v : Value} (h : machine.PushesLiteral t code v) (ht : t.Of ms) : code.Of ms := by
  cases h with
  | @intro c _ _ _ _ _ _ _ innermost => exact (ht.calls c (by simp [innermost])).code

end Colloquy
