import Colloquy.Proofs.Calling
import Colloquy.Proofs.Lifetimes
import Colloquy.Proofs.LoadedCode
import Colloquy.Proofs.Renaming.Steps
import Colloquy.Proofs.Twin.Sessions

/-!
# Runs do not influence each other

After any number of requests a machine differs from a new one in what the earlier runs have left:
frames, rows, identities that were given out, and what was written.  Its state is that of the new
machine, renamed, as far as the main body can see.

Main statement: the main body comes to the same on a machine that has been in use as on a new one
(`Machine.main_repeats`), if it takes no identity hash of an object.
-/

namespace Colloquy

/-! ## Requests are moves -/

namespace Session

variable {machine : Machine} {x x' : Session} {host : List Value}

/-- The session after a request: the host has got what it is told. -/
structure Answered (host : List Value) (o : Machine.Outcome) (x : Session) : Prop where
  state : x.state = o.state
  host : ∀ v ∈ host ++ o.answer.toOption.toList, v ∈ x.host

theorem Answered.value {v : Value} {s : State} (hh : ∀ w ∈ host, w ∈ x.host)
    (state : x.state = s) (got : v ∈ x.host) : Answered host (.value v s) x := by
  refine ⟨state, fun w hw => ?_⟩
  rcases List.mem_append.1 hw with hw | hw
  · exact hh w hw
  · obtain rfl : w = v := List.mem_singleton.1 hw
    exact got

theorem Answered.failure {f : Failure} {s : State} (hh : ∀ w ∈ host, w ∈ x.host)
    (state : x.state = s) : Answered host (.failure f s) x := by
  refine ⟨state, fun w hw => ?_⟩
  rcases List.mem_append.1 hw with hw | hw
  · exact hh w hw
  · cases hw

theorem Ended.answered {before : List Value} {o : Machine.Outcome} (ended : Ended before o x')
    (hh : ∀ v ∈ host, v ∈ before) : Answered host o x' := by
  cases o with
  | value v s =>
    obtain ⟨state, got⟩ := ended
    refine .value (fun w hw => ?_) state ?_
    · exact got ▸ List.mem_cons_of_mem v (hh w hw)
    · exact got ▸ List.mem_cons_self
  | failure f s =>
    obtain ⟨state, kept⟩ := ended
    exact .failure (fun w hw => kept ▸ hh w hw) state

/-- A host that holds `nil` has got something under every number. -/
theorem held_mem (hh : ∀ v ∈ host, v ∈ x.host) (hnil : .nil ∈ x.host) (n : Nat) :
    held host n ∈ x.host := by
  rw [held, List.getD_eq_getElem?_getD]
  cases here : host[n]? with
  | none => exact hnil
  | some v => exact hh v (List.mem_of_getElem? here)

/-- **A request is a sequence of moves.** -/
theorem serve_moves (hx : x.Coherent machine) (hh : ∀ v ∈ host, v ∈ x.host) (r : Request) :
    ∃ x', Relation.ReflTransGen (Move machine) x x'
      ∧ Answered host (machine.serve x.state host r) x' := by
  obtain ⟨⟨m, calls⟩, before, history⟩ := x
  -- the host makes up a `nil` first, which stands for the values that it has not got
  have first : Move machine ⟨⟨m, calls⟩, before, history⟩ ⟨⟨m, calls⟩, .nil :: before, history⟩ :=
    .plain (.inl trivial)
  have hx := hx.move first
  have hh : ∀ v ∈ host, v ∈ Value.nil :: before := fun v hv => List.mem_cons_of_mem _ (hh v hv)
  have got (n : Nat) : held host n ∈ Value.nil :: before :=
    held_mem (x := ⟨⟨m, calls⟩, .nil :: before, history⟩) hh List.mem_cons_self n
  have gets {v : Value} {m' : Memory} (move : Move machine
      ⟨⟨m, calls⟩, .nil :: before, history⟩ ⟨⟨m', calls⟩, v :: .nil :: before, history⟩) :
      ∃ x', Relation.ReflTransGen (Move machine) ⟨⟨m, calls⟩, before, history⟩ x'
        ∧ Answered host (.value v ⟨m', calls⟩) x' :=
    ⟨_, (Relation.ReflTransGen.single first).tail move,
      .value (fun w hw => List.mem_cons_of_mem v (hh w hw)) rfl List.mem_cons_self⟩
  cases r with
  | make value =>
    cases value with
    | string text => exact gets .string
    | _ => exact gets (.plain (.inl trivial))
  | array items =>
    refine gets (.array fun v hv => ?_)
    obtain ⟨n, -, rfl⟩ := List.mem_map.1 (List.mem_toArray.1 hv)
    exact got n
  | global name =>
    refine gets (.plain ?_)
    simp only [Image.lookup]
    split
    · exact .inl trivial
    · split
      · exact .inr rfl
      · cases machine.image.byName[name]? <;> exact .inl trivial
  | element whole index =>
    have names := got whole
    have reads {v : Value} {r : Ref} (hv : v ∈ Value.nil :: before) (named : Names r v) :
        ∃ x', Relation.ReflTransGen (Move machine) ⟨⟨m, calls⟩, before, history⟩ x'
          ∧ Answered host (.value ((m.store.row r).getD index .nil) ⟨m, calls⟩) x' := by
      rw [Array.getD_eq_getD_getElem?]
      cases here : (m.store.row r)[index]? with
      | none => exact gets (.plain (.inl trivial))
      | some w => exact gets (.read hv named (Array.mem_of_getElem? here))
    rw [Machine.serve]
    cases value : held host whole with
    | array r => exact reads (v := .array r) (value ▸ names) rfl
    | object cls r => exact reads (v := .object cls r) (value ▸ names) rfl
    | _ => exact gets (.plain (.inl trivial))
  | newInstance className =>
    simp only [Machine.serve, Machine.newInstance]
    split
    · exact gets (.object _)
    · exact ⟨_, .single first, .failure hh rfl⟩
  | send receiver selector args =>
    have sent : ∀ v ∈ args.map (held host), v ∈ Value.nil :: before := by
      intro v hv
      obtain ⟨n, -, rfl⟩ := List.mem_map.1 hv
      exact got n
    obtain ⟨x', reached, ended⟩ := send_moves hx selector (got receiver) sent
    exact ⟨x', .head first reached, ended.answered hh⟩
  | main =>
    obtain ⟨x', reached, ended⟩ := runMain_moves hx
    exact ⟨x', .head first reached, ended.answered hh⟩

/-- **Requests are moves.** -/
theorem after_moves (hx : x.Coherent machine) (hh : ∀ v ∈ host, v ∈ x.host)
    (requests : List Request) :
    ∃ x', Relation.ReflTransGen (Move machine) x x'
      ∧ x'.state = (machine.after x.state host requests).1
      ∧ ∀ v ∈ (machine.after x.state host requests).2, v ∈ x'.host := by
  induction requests generalizing x host with
  | nil => exact ⟨x, .refl, rfl, hh⟩
  | cons r requests ih =>
    obtain ⟨x₁, reached, answered⟩ := serve_moves hx hh r
    have hx₁ : x₁.Coherent machine := by
      clear answered
      induction reached with
      | refl => exact hx
      | tail _ hm ih => exact ih.move hm
    obtain ⟨x', later, rest⟩ := ih hx₁ answered.host
    refine ⟨x', reached.trans later, ?_⟩
    rw [answered.state] at rest
    exact rest

end Session

/-! ## The main body -/

/-- How a memory that has been in use names what a new one has. -/
def Renaming.since (m : Memory) : Renaming where
  frame := id
  rows := m.store.rows.size - 1
  serials := m.serial
  written := m.transcript.text

/-- The second call ends as the first one does, renamed. -/
inductive Machine.Outcome.Repeats (ρ : Renaming) : Outcome → Outcome → Prop where
  | value (v : Value) {s s' : State} (h : s.memory.Doubles ρ s'.memory) :
      Repeats ρ (.value v s) (.value (ρ.value v) s')
  | failure (f : Failure) {s s' : State} (h : s.memory.Copies ρ s'.memory) :
      Repeats ρ (.failure f s) (.failure f s')

namespace Machine

variable {machine : Machine} {ρ : Renaming} {s s' : State} {m m' : Memory} {receiver : Value}
  {code : Code} {cls : Class}

theorem Outcome.Copies.repeats {o o' : Outcome} (h : o.Copies ρ o') :
    o.settled.Repeats ρ o'.settled := by
  cases h with
  | value v h => exact .value v h.memory
  | @failure f s s' h =>
    exact .failure f (h.memory.data.congr (Memory.sameData_dropAll s.memory s.calls.calls)
      (Memory.sameData_dropAll s'.memory s'.calls.calls))

theorem Outcome.Repeats.transcript {o o' : Outcome} (h : o.Repeats ρ o') :
    o'.state.memory.transcript = ρ.transcript o.state.memory.transcript := by
  cases h with
  | value v h => exact h.data.transcript
  | failure f h => exact h.transcript

theorem Outcome.Repeats.render {o o' : Outcome} (h : o.Repeats ρ o') {v v' : Value} {t t' : State}
    (ended : o = .value v t) (ended' : o' = .value v' t') :
    v'.render t'.memory.store = v.render t.memory.store := by
  subst ended ended'
  cases h with
  | value v h => exact h.data.store.render v

/-- Outside of calls, a failure has no trace. -/
theorem failure_idle (m m' : Memory) (cause : Cause) :
    State.failure ⟨m', .empty⟩ cause = State.failure ⟨m, .empty⟩ cause := by
  simp only [State.failure, CallStack.trace, CallStack.empty, List.map_nil]

/-- **A method that is run on renamed operands** ends as it does on the operands themselves. -/
theorem concluded_repeats (args : List Value) (hm : m.Doubles ρ m')
    (whole : m.Whole machine.image [] (receiver :: args))
    (tended : m'.Tended machine.image [] (ρ.value receiver :: args.map ρ.value))
    (shared : machine.image.transcript = .object cls 0) (still : ¬ code.Hashes receiver args)
    (quiet : ∀ callee t,
      invoke machine.image m' (ρ.value receiver) code (args.map ρ.value) = .enter callee m' →
      machine.enter ⟨m', .empty⟩ callee = .running t → machine.Quiet t) :
    ∃ frame, Outcome.Repeats { ρ with frame }
      (machine.concluded (invoke machine.image m receiver code args))
      (machine.concluded (invoke machine.image m' (ρ.value receiver) code (args.map ρ.value))) := by
  obtain ⟨R, coherent'⟩ := tended
  obtain ⟨hr, ha⟩ := List.forall_mem_cons.1 whole.host
  obtain ⟨hr', ha'⟩ := List.forall_mem_cons.1 coherent'.host
  have sound := whole.invoke hr ha code
  have sound' := coherent'.invoke hr' ha' code
  rcases hm.invoke machine.image receiver code args still with
    ⟨v, m₁, m₁', replied, replied', later⟩ | ⟨callee, entered, entered'⟩ | ⟨cause, failed, failed'⟩
  · rw [replied, replied']
    exact ⟨ρ.frame, .value v later⟩
  · rw [entered] at sound
    rw [entered'] at sound'
    rw [entered, entered']
    have hs : State.Copies ρ ⟨m, .empty⟩ ⟨m', .empty⟩ := ⟨hm, rfl⟩
    have held := whole.hold sound.2
    have held' := coherent'.hold sound'.2
    obtain ⟨frame, both⟩ : ∃ frame, Progress.Copies { ρ with frame }
        (machine.enter ⟨m, .empty⟩ callee) (machine.enter ⟨m', .empty⟩ (ρ.callee callee)) :=
      enter_copies hs callee held ⟨R, held'⟩
    -- both calls begin in coherent states
    have after : AfterProgress machine.image (fun _ => True) _ m 0 []
        (machine.enter ⟨m, .empty⟩ callee) :=
      enter_coherent (by rw [List.append_nil]; exact held.follows)
    have after' : AfterProgress machine.image (fun _ => True) R m' 0 []
        (machine.enter ⟨m', .empty⟩ (ρ.callee callee)) :=
      enter_coherent (by rw [List.append_nil]; exact held'.follows)
    simp only [concluded]
    have running (t : State) (ht : machine.enter ⟨m', .empty⟩ (ρ.callee callee) = .running t) :=
      quiet _ t entered' ht
    generalize machine.enter ⟨m, .empty⟩ callee = p at both after
    generalize machine.enter ⟨m', .empty⟩ (ρ.callee callee) = p' at both after' running
    cases both with
    | running copies =>
      obtain ⟨last, ends⟩ :=
        run_copies copies after.1.whole after'.1.tended shared (running _ rfl)
      exact ⟨last, ends.repeats⟩
    | finished v copies => exact ⟨frame, (Outcome.Copies.value v copies).repeats⟩
    | failed f copies => exact ⟨frame, (Outcome.Copies.failure f copies).repeats⟩
  · rw [failed, failed', concluded, concluded, failure_idle m m']
    exact ⟨ρ.frame, .failure _ hm.data⟩

/-- **The main body** ends as it does in the memory that is renamed. -/
theorem runMain_repeats (hm : m.Doubles ρ m') (whole : m.Whole machine.image [] [])
    (tended : m'.Tended machine.image [] []) (shared : machine.image.transcript = .object cls 0)
    {host : List Value} (quiet : machine.QuietRequest ⟨m', .empty⟩ host .main) :
    ∃ frame, Outcome.Repeats { ρ with frame } (machine.runMain ⟨m, .empty⟩)
      (machine.runMain ⟨m', .empty⟩) := by
  unfold QuietRequest at quiet
  unfold runMain
  cases known : machine.image.byName[mainClass]? with
  | none => exact ⟨ρ.frame, .value .nil hm⟩
  | some main =>
    cases found : main.lookup mainSelector with
    | none =>
      dsimp only
      rw [found, failure_idle m m']
      exact ⟨ρ.frame, .failure _ hm.data⟩
    | some code =>
      obtain ⟨still, running⟩ := quiet main code known found
      obtain ⟨R, coherent'⟩ := tended
      -- both make an instance for the main body to run on
      obtain ⟨store, receiver⟩ := hm.data.store.instantiate main
      have follows : Memory.Follows { m with store := (Image.instantiate m.store main).1 } m
          machine.image (fun _ => True) (fun r => r < m.store.rows.size) []
          [(Image.instantiate m.store main).2] := ⟨Nat.le_refl _, whole.instantiate main⟩
      have made' : Memory.Tended machine.image
          { m' with store := (Image.instantiate m'.store main).1 } []
          [(Image.instantiate m'.store main).2] := ⟨_, coherent'.instantiate main⟩
      dsimp only
      rw [found]
      dsimp only
      rw [perform_eq, perform_eq]
      rw [receiver] at made' still running ⊢
      refine concluded_repeats [] ⟨⟨store, hm.data.serial, hm.data.transcript⟩, hm.frames⟩
        follows.whole made' shared (fun hashes => still ⟨hashes.primitive, rfl, ?_⟩)
        fun callee t entered => running callee _ t entered
      exact (ρ.hasIdentity_value _).2 hashes.receiver

/-- What a new machine has in its memory. -/
theorem whole_start {classes : List LoadClass} {log : Log} {store : Store}
    (loaded : Image.load classes = (log, .ok (machine.image, store))) (transcript : Transcript) :
    (start store transcript).memory.Whole machine.image [] [] :=
  Session.coherent_of_load loaded _ rfl rfl

/-- A row that was never made is empty. -/
theorem row_unmade {store : Store} {r : Ref} (beyond : store.rows.size ≤ r) :
    store.row r = #[] := by
  rw [Store.row, Array.getD_eq_getD_getElem?, Array.getElem?_eq_none beyond]
  rfl

/-- **A machine that has been in use names what a new one has**, if the transcript has no fields:
the new one has no frames, and no rows but that of the transcript. -/
theorem start_doubles (rows : 0 < s.memory.store.rows.size) (bare : s.memory.store.row 0 = #[])
    (buffer : s.memory.transcript.sink = .buffer) :
    (start ⟨#[#[]]⟩ {}).memory.Doubles (.since s.memory) s.memory := by
  have store : Store.Copies (.since s.memory) ⟨#[#[]]⟩ s.memory.store := by
    refine ⟨Nat.zero_lt_one, ?_, fun (r : Nat) => ?_⟩
    · show s.memory.store.rows.size = 1 + (s.memory.store.rows.size - 1)
      omega
    · by_cases first : r = 0
      · subst first
        exact bare.trans Array.map_empty.symm
      · have beyond : s.memory.store.rows.size ≤ r + (s.memory.store.rows.size - 1) := by omega
        have none : (⟨#[#[]]⟩ : Store).row r = #[] := row_unmade (Nat.one_le_iff_ne_zero.2 first)
        rw [Renaming.row, if_neg first, none, Array.map_empty]
        exact row_unmade beyond
  have transcript : s.memory.transcript = Renaming.transcript (.since s.memory) {} := by
    rw [Renaming.transcript, ← buffer, Renaming.since, String.append_empty]
  refine ⟨⟨store, (Nat.zero_add _).symm, transcript⟩, fun f fr here => ?_,
    fun f g fr gr here => ?_, fun f kept => ?_⟩
  · cases here
  · cases here
  · obtain ⟨slot, here⟩ := kept.exists_slot
    cases here

/-- **Runs do not influence each other.**  A program was compiled and loaded, and a host has made
any requests, some of which may have failed.  If the main body takes no identity hash of an object,
it then comes to what it comes to on a new machine: the same failure, its trace included, or the
same value up to the names of frames, rows and strings, which is shown alike; and it writes the
same. -/
theorem main_repeats {options : CompilerOptions} {p : Program} {log log' : Log}
    {compiled : CompiledProgram} {store : Store} {requests : List Request} {host : List Value}
    (accepted : compile options p = (log, .ok compiled))
    (loaded : Image.load (LoadClass.ofProgram compiled.classes 0).1
      = (log', .ok (machine.image, store)))
    (after : machine.after (start store {}) [] requests = (s, host))
    (quiet : machine.QuietRequest s host .main) :
    (∃ ρ : Renaming, (machine.runMain (start store {})).Repeats ρ (machine.runMain s))
      ∧ (∀ v t v' t', machine.runMain (start store {}) = .value v t →
        machine.runMain s = .value v' t' → v'.render t'.memory.store = v.render t.memory.store)
      ∧ (machine.runMain s).state.memory.transcript.text = s.memory.transcript.text
        ++ (machine.runMain (start store {})).state.memory.transcript.text := by
  obtain ⟨cls, shared, -, rfl⟩ := transcript_of_load accepted loaded
  obtain ⟨x, reached, rfl⟩ : ∃ x, Relation.ReflTransGen (Session.Move machine)
      (Session.start ⟨#[#[]]⟩ {}) x ∧ x.state = s := by
    obtain ⟨x, reached, state, -⟩ := Session.after_moves (Session.coherent_start loaded {})
      (List.forall_mem_nil _) requests
    exact ⟨x, reached, state.trans (congrArg Prod.fst after)⟩
  obtain ⟨⟨R, coherent⟩, -⟩ := Session.linked_of_reached loaded reached
  have widens := Session.widens_of_reached reached
  have idle : x.state.calls = .empty := by
    obtain ⟨hi, began⟩ := Image.of_load loaded
    have rests : (start ⟨#[#[]]⟩ {}).Rests := ⟨Arena.attended_empty 1, rfl⟩
    have served := (after_of hi (began {}) rests (List.forall_mem_nil _) requests).2.1
    rw [after] at served
    rw [x.state.calls.eq_of, List.map_eq_nil_iff.1 served.empty]
    rfl
  have buffer : x.state.memory.transcript.sink = .buffer := by
    clear after quiet coherent widens idle
    induction reached with
    | refl => rfl
    | tail _ hm ih => exact hm.buffered ih
  have bare : x.state.memory.store.row 0 = #[] :=
    Array.eq_empty_of_size_eq_zero (widens.row 0 Nat.zero_lt_one)
  have doubles := start_doubles widens.size bare buffer
  have tended : x.state.memory.Tended machine.image [] [] := by
    rw [idle] at coherent
    exact ⟨R, (coherent.mono fun _ _ => trivial).hold (List.forall_mem_nil _)⟩
  have split : x.state = ⟨x.state.memory, .empty⟩ := by rw [← idle]
  rw [split] at quiet
  obtain ⟨frame, repeats⟩ :=
    runMain_repeats doubles (whole_start loaded {}) tended shared quiet
  rw [← split] at repeats
  refine ⟨⟨_, repeats⟩, fun v t v' t' ended ended' => repeats.render ended ended', ?_⟩
  rw [repeats.transcript]
  rfl

end Machine

/-! ## Code without sends -/

/-- No send can be read in the code, at whatever offset. -/
def Block.Sendless (b : Block) : Prop :=
  ∀ offset i next, Instruction.decodeAt b.bytecode offset = .ok (some (i, next)) → i.isSend = false

theorem keepingBlock_sendless (q q' : String) : (keepingBlock q q').Sendless := by
  have none : ∀ k < 25, ∀ i next,
      (Instruction.decodeAt (keepingBlock "" "").bytecode k).toOption.join = some (i, next) →
        i.isSend = false := by
    have checked : (List.range 25).all (fun k =>
        ((Instruction.decodeAt (keepingBlock "" "").bytecode k).toOption.join).all
          fun found => !found.1.isSend) = true := by decide
    intro k hk i next decoded
    have here := List.all_eq_true.1 checked k (List.mem_range.2 hk)
    rw [decoded] at here
    simpa using here
  intro offset i next decoded
  obtain ⟨before, within⟩ := Instruction.decodeAt_bounds decoded
  refine none offset (Nat.lt_of_lt_of_le before within) i next ?_
  rw [show Instruction.decodeAt (keepingBlock "" "").bytecode offset = _ from decoded]
  rfl

namespace Machine

/-- **Code without sends takes no identity hash**: it makes no calls, so that it stays the only code
that runs. -/
theorem quiet_of_sendless {machine : Machine} {s : State}
    (sendless : ∀ c ∈ s.calls.calls, c.code.block.Sendless) :
    machine.Quiet s := by
  intro t reaches
  have still : ∀ c ∈ t.calls.calls, c.code.block.Sendless := by
    induction reaches with
    | refl => exact sendless
    | @tail t u _ stepped ih =>
      cases calls : t.calls.calls with
      | nil =>
        obtain ⟨m, stack⟩ := t
        rw [stack.eq_of, calls] at stepped
        cases stepped
      | cons c rest =>
        rw [calls] at ih
        obtain ⟨here, others⟩ := List.forall_mem_cons.1 ih
        cases takes_of_step stepped calls with
        | next => exact List.forall_mem_cons.2 ⟨here, others⟩
        | enter decoded before effect =>
          have sends := Call.isSend_of_enter _ _ _ effect
          cases sends.symm.trans (here _ _ _ decoded)
        | @leave v last past outer _ _ _ _ _ split =>
          have outside : ∀ d ∈ outer, d.code.block.Sendless := fun d hd =>
            others d (split ▸ List.mem_append_right past hd)
          cases outer with
          | nil => exact List.forall_mem_nil _
          | cons d outer =>
            obtain ⟨next, outside⟩ := List.forall_mem_cons.1 outside
            exact List.forall_mem_cons.2 ⟨next, outside⟩
  rintro ⟨c, rest, j, next, innermost, decoded, hashes⟩
  have none := still c (by simp [innermost]) c.ip j next decoded
  cases j with
  | send | sendSuper => cases none
  | _ => exact hashes

/-- The main body of pixels takes no identity hash. -/
theorem quiet_keeping {image : Image} {pixel main : Class} {show_ y entry : Code}
    (has : image.HasPixels pixel main show_ y entry) (s : State) (host : List Value) :
    QuietRequest { image } s host .main := by
  obtain ⟨lookup, q, q', coded⟩ := has.mainMethod
  intro cls code known found
  cases known.symm.trans has.mainClass
  cases found.symm.trans lookup
  have plain : entry.block.primitive = none := by
    rw [coded]
    rfl
  refine ⟨fun hashes => ?_, fun callee m t asked entered => ?_⟩
  · cases plain.symm.trans hashes.primitive
  · have code : callee.code = entry := by
      simp only [invoke, plain] at asked
      split at asked <;> cases asked
      rfl
    refine quiet_of_sendless fun c hc => ?_
    rw [enter_eq (show 0 < 10000 by decide)] at entered
    cases entered
    obtain rfl : c = _ := List.mem_singleton.1 hc
    show callee.code.block.Sendless
    rw [code, coded]
    exact keepingBlock_sendless q q'

/-- The main body of pixels, on a new machine and when it has run before. -/
theorem main_repeats_pixels :
    ∃ log compiled log' image store s host, compile {} pixelProgram = (log, .ok compiled)
      ∧ Image.load (LoadClass.ofProgram compiled.classes 0).1 = (log', .ok (image, store))
      ∧ after { image } (start store {}) [] [.main] = (s, host)
      ∧ ∃ ρ : Renaming, (runMain { image } (start store {})).Repeats ρ (runMain { image } s) := by
  obtain ⟨log, compiled, log', image, store, _, _, _, _, _, accepted, loaded, has⟩ :=
    pixelProgram_loads
  have ran : after { image } (start store {}) [] [.main] = (_, _) := rfl
  exact ⟨log, compiled, log', image, store, _, _, accepted, loaded, ran,
    (main_repeats accepted loaded ran (quiet_keeping has _ _)).1⟩

end Machine

end Colloquy
