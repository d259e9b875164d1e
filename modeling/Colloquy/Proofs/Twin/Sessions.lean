import Colloquy.Compile.Library
import Colloquy.Proofs.Compile.Loading
import Colloquy.Proofs.Twin.Steps

/-!
# Sessions with and without source positions

A host holds the same session with two machines.  One has loaded what the compiler made of a program
with source positions, the other what it made of the program without them.

Main statement: as long as no identity hash of an object is taken, the host cannot tell the machines
apart; and the compiler accepts the program either way or neither way, unless the source positions
leave no room for a literal (`same_without_source_positions`).
-/

namespace Colloquy

open Primitive (Agree)

variable {ms ms' : List Block} {machine machine' : Machine} {m m' : Memory} {s s' : State}
  {receiver receiver' v v' : Value} {args args' host host' : List Value} {code code' : Code}
  {o o' : Machine.Outcome}

/-! ## Host calls -/

namespace Machine.Outcome.Twin

theorem settled (h : o.Twin ms ms' o') : o.settled.Twin ms ms' o'.settled := by
  cases h with
  | value hv hs => exact .value hv hs
  | failure cause hs => exact .failure cause hs.abandon

theorem state (h : o.Twin ms ms' o') : o.state.Twin ms ms' o'.state := by
  cases h with
  | value hv hs => exact hs
  | failure cause hs => exact hs

theorem answer (h : o.Twin ms ms' o') : Agree (Value.Twin ms ms') o.answer o'.answer := by
  cases h with
  | value hv hs => exact hv
  | failure cause hs => exact cause

/-- What the host has got besides. -/
theorem got (h : o.Twin ms ms' o') (hh : List.Forall₂ (Value.Twin ms ms') host host') :
    List.Forall₂ (Value.Twin ms ms') (host ++ o.answer.toOption.toList)
      (host' ++ o'.answer.toOption.toList) := by
  refine List.rel_append hh ?_
  cases h with
  | value hv hs => exact .cons hv .nil
  | failure cause hs => exact .nil

end Machine.Outcome.Twin

/-- What the host has got under a number. -/
theorem held_twin (h : List.Forall₂ (Value.Twin ms ms') host host') (n : Nat) :
    (held host n).Twin ms ms' (held host' n) :=
  Value.Like.getD h n

theorem heldAll_twin (h : List.Forall₂ (Value.Twin ms ms') host host') (ns : List Nat) :
    List.Forall₂ (Value.Twin ms ms') (ns.map (held host)) (ns.map (held host')) :=
  List.forall₂_map_left_iff.2 (List.forall₂_map_right_iff.2
    (List.forall₂_same.2 fun n _ => held_twin h n))

namespace State.Twin

theorem failure (h : s.Twin ms ms' s') (cause : Cause) :
    Machine.Outcome.Twin ms ms' (.failure (s.failure cause) s) (.failure (s'.failure cause) s') :=
  .failure rfl h

/-- The store has changed in both. -/
theorem restore (h : s.Twin ms ms' s') {store store' : Store}
    (hs : store.Like (.twin ms ms') (fun _ => True) store') :
    State.Twin ms ms' { s with memory := { s.memory with store } }
      { s' with memory := { s'.memory with store := store' } } :=
  ⟨h.memory.restore hs, h.calls⟩

end State.Twin

namespace Machine.Twin

/-- A run that follows a step. -/
theorem outcome (h : machine.Twin ms ms' machine') {p p' : Progress} (hp : p.Twin ms ms' p')
    (quiet : ∀ t, p = .running t → machine.Quiet t) :
    (machine.outcome p).Twin ms ms' (machine'.outcome p') := by
  cases hp with
  | running hs => exact h.run hs (quiet _ rfl)
  | finished hv hs => exact .value hv hs
  | failed cause hs => exact .failure cause hs

/-- **A method is run to its end.** -/
theorem perform (h : machine.Twin ms ms' machine') (hs : s.Twin ms ms' s')
    (hr : receiver.Twin ms ms' receiver') (hc : code.Twin ms ms' code')
    (ha : List.Forall₂ (Value.Twin ms ms') args args')
    (quiet : machine.QuietCall s receiver code args) :
    (machine.perform s receiver code args).Twin ms ms'
      (machine'.perform s' receiver' code' args') := by
  have memory := hs.abandon.memory
  have reply := invoke_like h.image.lawful hc memory.data hr ha fun primitive none =>
    hr.identityHash_eq fun identity => quiet.1 ⟨primitive, none, identity⟩
  have running := quiet.2
  rw [perform_eq, perform_eq]
  generalize invoke machine.image s.abandon.memory receiver code args = r at reply running
  generalize invoke machine'.image s'.abandon.memory receiver' code' args' = r' at reply
  cases reply with
  | answer beside beside' data hv =>
    rw [Store.grown_true] at data hv
    refine .value hv ⟨⟨?_, data⟩, .nil⟩
    rw [beside.frames, beside'.frames]
    exact memory.frames
  | enter callee => exact (h.outcome (h.enter ⟨memory, .nil⟩ callee) (running _ _ · rfl)).settled
  | fault cause => exact State.Twin.failure ⟨memory, .nil⟩ cause

theorem send (h : machine.Twin ms ms' machine') (hs : s.Twin ms ms' s')
    (hr : receiver.Twin ms ms' receiver') (selector : String)
    (ha : List.Forall₂ (Value.Twin ms ms') args args')
    (quiet : ∀ code, machine.image.method receiver selector = .ok code →
      machine.QuietCall s receiver code args) :
    (machine.send s receiver selector args).Twin ms ms'
      (machine'.send s' receiver' selector args') := by
  unfold Machine.send
  rcases (h.image.method hr selector).cases with
    ⟨code, code', found, found', hc⟩ | ⟨cause, found, found'⟩
  · rw [found, found']
    exact h.perform hs hr hc ha (quiet code found)
  · rw [found, found']
    exact hs.failure cause

/-- A new object of a class. -/
theorem instantiate (h : machine.Twin ms ms' machine') (hs : s.Twin ms ms' s') {cls cls' : Class}
    (hc : cls.Twin ms ms' cls') :
    State.Twin ms ms'
        { s with memory := { s.memory with store := (Image.instantiate s.memory.store cls).1 } }
        { s' with memory := { s'.memory with store := (Image.instantiate s'.memory.store cls').1 } }
      ∧ (Image.instantiate s.memory.store cls).2.Twin ms ms'
        (Image.instantiate s'.memory.store cls').2 := by
  obtain ⟨store, value⟩ := Image.instantiate_like h.image.lawful.fair hs.memory.data.store hc
  rw [Store.grown_true] at store value
  exact ⟨hs.restore store, value⟩

theorem newInstance (h : machine.Twin ms ms' machine') (hs : s.Twin ms ms' s') (name : String) :
    (machine.newInstance s name).Twin ms ms' (machine'.newInstance s' name) := by
  have found := h.image.byName name
  unfold Machine.newInstance
  generalize machine.image.byName[name]? = c at found
  generalize machine'.image.byName[name]? = c' at found
  cases found with
  | none => exact hs.failure _
  | some cls =>
    obtain ⟨twin, value⟩ := h.instantiate hs cls
    exact .value value twin

theorem runMain (h : machine.Twin ms ms' machine') (hs : s.Twin ms ms' s')
    (quiet : machine.QuietRequest s host .main) :
    (machine.runMain s).Twin ms ms' (machine'.runMain s') := by
  have found := h.image.byName mainClass
  unfold Machine.QuietRequest at quiet
  unfold Machine.runMain
  generalize machine.image.byName[mainClass]? = c at found quiet
  generalize machine'.image.byName[mainClass]? = c' at found
  cases found with
  | none => exact .value .nil hs
  | @some cls cls' hcls =>
    have method := hcls.lookup mainSelector
    have quiet := quiet cls
    dsimp only
    generalize cls.lookup mainSelector = f at method quiet
    generalize cls'.lookup mainSelector = f' at method
    cases method with
    | none => exact hs.failure _
    | some hc =>
      obtain ⟨twin, value⟩ := h.instantiate hs hcls
      exact h.perform twin value hc .nil (quiet _ rfl rfl)

/-- A value that the host makes up. -/
theorem make (hs : s.Twin ms ms' s') (value : Literal) :
    Outcome.Twin ms ms'
      (.value (s.memory.make value).2 { s with memory := (s.memory.make value).1 })
      (.value (s'.memory.make value).2 { s' with memory := (s'.memory.make value).1 }) := by
  cases value with
  | nil => exact .value .nil hs
  | bool b => exact .value (.bool b) hs
  | int n => exact .value (.int n) hs
  | float x => exact .value (.float x) hs
  | char c => exact .value (.char c) hs
  | string text =>
    have serial := hs.memory.data.serial
    have same : (s'.memory.newString text).2 = (s.memory.newString text).2 :=
      congrArg (fun n => Value.string (.made n) text) serial
    have hv : (s.memory.newString text).2.Twin ms ms' (s'.memory.newString text).2 := by
      rw [same]
      exact .string (StringId.Twin.made _) text
    exact .value hv ⟨⟨hs.memory.frames, hs.memory.data.store, congrArg (· + 1) serial,
      hs.memory.data.transcript⟩, hs.calls⟩

/-- An element or a field that the host looks at. -/
theorem element (hs : s.Twin ms ms' s') (index : Nat) (hv : v.Twin ms ms' v') :
    (s.memory.element index v).Twin ms ms' (s'.memory.element index v') := by
  cases hv with
  | array row => exact hs.memory.data.store.getD row index
  | object same row => exact hs.memory.data.store.getD row index
  | _ => exact .nil

/-- **A request** comes to the same. -/
theorem serve (h : machine.Twin ms ms' machine') (hs : s.Twin ms ms' s')
    (hh : List.Forall₂ (Value.Twin ms ms') host host') (r : Request)
    (quiet : machine.QuietRequest s host r) :
    (machine.serve s host r).Twin ms ms' (machine'.serve s' host' r) := by
  cases r with
  | make value => exact make hs value
  | array items =>
    have values : List.Forall₂ (Value.Twin ms ms') (items.map (held host)).toArray.toList
        (items.map (held host')).toArray.toList := heldAll_twin hh items
    obtain ⟨data, hv⟩ := hs.memory.data.newArray h.image.lawful.fair values
    rw [Store.grown_true] at data hv
    exact .value hv ⟨⟨hs.memory.frames, data⟩, hs.calls⟩
  | global name =>
    have found := h.image.lookup name
    rw [Machine.serve, Machine.serve]
    generalize machine.image.lookup name = g at found
    generalize machine'.image.lookup name = g' at found
    cases found with
    | none => exact .value .nil hs
    | some hv => exact .value hv hs
  | element whole index => exact .value (element hs index (held_twin hh whole)) hs
  | newInstance className => exact h.newInstance hs className
  | send receiver selector args =>
    exact h.send hs (held_twin hh receiver) selector (heldAll_twin hh args) quiet
  | main => exact h.runMain hs quiet

/-- **A session** comes to the same, request by request. -/
theorem session (h : machine.Twin ms ms' machine') (requests : List Request)
    (hs : s.Twin ms ms' s') (hh : List.Forall₂ (Value.Twin ms ms') host host')
    (quiet : machine.QuietSession s host requests) :
    List.Forall₂ (Outcome.Twin ms ms') (machine.session s host requests)
      (machine'.session s' host' requests) := by
  induction requests generalizing s s' host host' with
  | nil => exact .nil
  | cons r rest ih =>
    obtain ⟨first, later⟩ := quiet
    have served := h.serve hs hh r first
    exact .cons served (ih served.state (served.got hh) later)

end Machine.Twin

/-! ## Programs that cannot take identity hashes -/

/-- A program without a method that takes identity hashes. -/
def Hashless (ms : List Block) : Prop := ∀ b ∈ ms, b.primitive ≠ some .objectHash

/-- Neither methods nor the blocks nested in them take identity hashes. -/
theorem Hashless.codeAt (none : Hashless ms) (methods : List.Forall₂ Block.OuterTwin ms ms')
    {id : BlockId} {b : Block} (here : codeAt ms id = some b) :
    b.primitive ≠ some .objectHash := by
  obtain ⟨number, path⟩ := id
  cases path with
  | nil => exact none b (List.mem_of_getElem? here)
  | cons k path =>
    obtain ⟨outer, around, nested⟩ := Option.bind_eq_some_iff.1 here
    have around : Colloquy.codeAt ms ⟨number, path⟩ = some outer := around
    have twin := codeAt_twin methods ⟨number, path⟩
    rw [around] at twin
    generalize Colloquy.codeAt ms' ⟨number, path⟩ = o at twin
    cases twin with
    | some twin =>
      have entry := forall₂_getElem? twin.nested k
      rw [Array.getElem?_toList, nested] at entry
      generalize (_ : List Block)[k]? = o at entry
      cases entry with
      | some inner => simp [inner.primitive]

namespace Machine.Twin

/-- No method that is found takes identity hashes. -/
theorem not_hashes (h : machine.Twin ms ms' machine') (none : Hashless ms)
    (hc : code.Twin ms ms' code') : ¬code.Hashes receiver args :=
  fun hashes => none.codeAt h.image.methods hc.here hashes.primitive

theorem not_sendHashes (h : machine.Twin ms ms' machine') (none : Hashless ms) {c c' : Call}
    (hc : c.Twin ms ms' c') {argc : Nat} {find find' : Value → Checked Code}
    (finds : ∀ v v', v.Twin ms ms' v' → Agree (Code.Twin ms ms') (find v) (find' v')) :
    ¬c.SendHashes argc find := by
  rintro ⟨receiver, below, code, dropped, found, hashes⟩
  have operands := List.forall₂_drop argc hc.stack
  rw [dropped] at operands
  obtain ⟨receiver', -, hr, -⟩ := List.forall₂_cons_left_iff.1 operands
  have same := finds receiver receiver' hr
  rw [found] at same
  obtain ⟨code', -, twin⟩ := same.of_ok
  exact h.not_hashes none twin hashes

/-- The next step takes no identity hash. -/
theorem quiet_here (h : machine.Twin ms ms' machine') (none : Hashless ms) (hs : s.Twin ms ms' s') :
    ¬s.Hashes machine := by
  rintro ⟨c, rest, j, next, calls, -, hashes⟩
  have twins := hs.calls
  rw [calls] at twins
  obtain ⟨c', -, hc, -⟩ := List.forall₂_cons_left_iff.1 twins
  cases j with
  | send argc index =>
    obtain ⟨selector, -, hashes⟩ := hashes
    exact h.not_sendHashes none hc (fun v v' hv => h.image.method hv selector) hashes
  | sendSuper argc index =>
    obtain ⟨selector, -, hashes⟩ := hashes
    exact h.not_sendHashes none hc (fun v v' hv => h.image.superMethod hc.code hv selector) hashes
  | _ => exact hashes

/-- A state that has a twin is followed by one that has a twin. -/
theorem twin_of_step (h : machine.Twin ms ms' machine') (none : Hashless ms) {t : State}
    (hs : s.Twin ms ms' s') (step : machine.step s = .running t) : ∃ t', t.Twin ms ms' t' := by
  rcases h.step hs (h.quiet_here none hs) with ⟨u, alone, twin⟩ | both
  · cases step.symm.trans alone
    exact ⟨s', twin⟩
  · rw [step] at both
    generalize machine'.step s' = p at both
    cases both with
    | running twin => exact ⟨_, twin⟩

/-- **No run takes an identity hash** if no method does. -/
theorem quiet (h : machine.Twin ms ms' machine') (none : Hashless ms) (hs : s.Twin ms ms' s') :
    machine.Quiet s := by
  intro t reaches
  have twin : ∃ t', t.Twin ms ms' t' := by
    induction reaches with
    | refl => exact ⟨s', hs⟩
    | tail _ step ih =>
      obtain ⟨u', hu⟩ := ih
      exact h.twin_of_step none hu step
  obtain ⟨t', ht⟩ := twin
  exact h.quiet_here none ht

theorem quietCall (h : machine.Twin ms ms' machine') (none : Hashless ms) (hs : s.Twin ms ms' s')
    (hr : receiver.Twin ms ms' receiver') (hc : code.Twin ms ms' code')
    (ha : List.Forall₂ (Value.Twin ms ms') args args') :
    machine.QuietCall s receiver code args := by
  refine ⟨h.not_hashes none hc, fun callee m t replied entered => ?_⟩
  have idle : State.Twin ms ms' ⟨s.abandon.memory, .empty⟩ ⟨s'.abandon.memory, .empty⟩ := hs.abandon
  have reply := invoke_like h.image.lawful hc idle.memory.data hr ha
    fun primitive => (none.codeAt h.image.methods hc.here primitive).elim
  rw [replied] at reply
  generalize invoke machine'.image s'.abandon.memory receiver' code' args' = r' at reply
  cases reply with
  | enter callee =>
    have called := h.enter idle callee
    rw [entered] at called
    generalize machine'.enter _ _ = p at called
    cases called with
    | running twin => exact h.quiet none twin

theorem quietRequest (h : machine.Twin ms ms' machine') (none : Hashless ms)
    (hs : s.Twin ms ms' s') (hh : List.Forall₂ (Value.Twin ms ms') host host') (r : Request) :
    machine.QuietRequest s host r := by
  cases r with
  | send receiver selector args =>
    intro code found
    have same := h.image.method (held_twin hh receiver) selector
    rw [found] at same
    obtain ⟨code', -, twin⟩ := same.of_ok
    exact h.quietCall none hs (held_twin hh receiver) twin (heldAll_twin hh args)
  | main =>
    intro cls code found method
    have same := h.image.byName mainClass
    rw [found] at same
    generalize machine'.image.byName[mainClass]? = c' at same
    cases same with
    | @some _ cls' hcls =>
      have twin := hcls.lookup mainSelector
      rw [method] at twin
      generalize cls'.lookup mainSelector = f at twin
      cases twin with
      | some hc =>
        obtain ⟨twin, value⟩ := h.instantiate hs hcls
        exact h.quietCall none twin value hc .nil
  | _ => trivial

/-- **No session takes an identity hash** if no method does. -/
theorem quietSession (h : machine.Twin ms ms' machine') (none : Hashless ms)
    (requests : List Request) (hs : s.Twin ms ms' s')
    (hh : List.Forall₂ (Value.Twin ms ms') host host') :
    machine.QuietSession s host requests := by
  induction requests generalizing s s' host host' with
  | nil => trivial
  | cons r rest ih =>
    have first := h.quietRequest none hs hh r
    have served := h.serve hs hh r first
    exact ⟨first, ih served.state (served.got hh)⟩

end Machine.Twin

/-! ## Main result -/

/-- The host is told the same and leaves the same behind: the answers are values that are twins or
one and the same fault, all rows hold values that are twins, and the transcripts are equal.  Traces
of failures and logs may be others. -/
structure Machine.Outcome.Alike (ms ms' : List Block) (o o' : Outcome) : Prop where
  answer : Agree (Value.Twin ms ms') o.answer o'.answer
  store : o.state.memory.store.Like (.twin ms ms') (fun _ => True) o'.state.memory.store
  transcript : o'.state.memory.transcript = o.state.memory.transcript

theorem Machine.Outcome.Twin.alike (h : o.Twin ms ms' o') : o.Alike ms ms' o' :=
  ⟨h.answer, h.state.memory.data.store, h.state.memory.data.transcript⟩

namespace CompiledProgram

variable {p p' : CompiledProgram}

/-- The image and the store that a machine starts with. -/
def load (p : CompiledProgram) : Except Cause (Image × Store) :=
  (Image.load (LoadClass.ofProgram p.classes 0).1).2

/-- No host can tell the programs apart, as long as no identity hash of an object is taken. -/
structure Indistinct (p p' : CompiledProgram) : Prop where
  /-- Both can be loaded, or neither for the same cause. -/
  loads : Agree (fun _ _ => True) p.load p'.load
  /-- Every session comes to the same, however much the machines log. -/
  sessions : ∀ {machine machine' : Machine} {store store' : Store},
    p.load = .ok (machine.image, store) → p'.load = .ok (machine'.image, store') →
    machine'.maxDepth = machine.maxDepth →
    ∀ (transcript : Transcript) (logging logging' : Bool) (requests : List Request),
      machine.QuietSession { memory := { store, transcript, logging } } [] requests →
      List.Forall₂ (Machine.Outcome.Alike p.methods p'.methods)
        (machine.session { memory := { store, transcript, logging } } [] requests)
        (machine'.session
          { memory := { store := store', transcript, logging := logging' } } [] requests)
  /-- Objects that are twins are as identical as each other. -/
  identical : ∀ {loaded : Image × Store}, p.load = .ok loaded → ∀ {v v' w w' : Value},
    v.Twin p.methods p'.methods v' → w.Twin p.methods p'.methods w' →
    v'.identical w' = v.identical w

/-- Before anything has run, there are no frames. -/
theorem start_twin {store store' : Store} (h : store.Like (.twin ms ms') (fun _ => True) store')
    (transcript : Transcript) (logging logging' : Bool) :
    State.Twin ms ms' { memory := { store, transcript, logging } }
      { memory := { store := store', transcript, logging := logging' } } :=
  ⟨⟨⟨.nil, rfl, rfl, rfl, rfl⟩, h, rfl, rfl⟩, .nil⟩

/-- **Programs that are twins cannot be told apart.** -/
theorem indistinct (h : List.Forall₂ CompiledClass.Twin p.classes p'.classes) :
    p.Indistinct p' := by
  have loads : Agree (Image.LoadedTwin p.methods p'.methods) p.load p'.load := load_twin h
  refine ⟨?_, ?_, ?_⟩
  · rcases loads.cases with ⟨r, r', loaded, loaded', -⟩ | ⟨cause, failed, failed'⟩
    · rw [loaded, loaded']
      trivial
    · rw [failed, failed']
      rfl
  · intro machine machine' store store' loaded loaded' depth transcript logging logging' requests
      quiet
    rw [loaded, loaded'] at loads
    have machines : machine.Twin p.methods p'.methods machine' := ⟨loads.image, depth⟩
    have start := start_twin loads.store transcript logging logging'
    exact (machines.session requests start .nil quiet).imp fun _ _ twin => twin.alike
  · intro r loaded v v' w w' hv hw
    rw [loaded] at loads
    obtain ⟨r', -, twin⟩ := loads.of_ok
    exact hv.identical_eq twin.image.lawful.fair hw

/-- **A program without a method that takes identity hashes** can be asked for anything. -/
theorem quietSession_of_hashless (h : List.Forall₂ CompiledClass.Twin p.classes p'.classes)
    (none : Hashless p.methods) {store : Store} (loaded : p.load = .ok (machine.image, store))
    (transcript : Transcript) (logging : Bool) (requests : List Request) :
    machine.QuietSession { memory := { store, transcript, logging } } [] requests := by
  have loads : Agree (Image.LoadedTwin p.methods p'.methods) p.load p'.load := load_twin h
  rw [loaded] at loads
  obtain ⟨⟨image', store'⟩, -, twin⟩ := loads.of_ok
  have machines : machine.Twin p.methods p'.methods { machine with image := image' } :=
    ⟨twin.image, rfl⟩
  exact machines.quietSession none requests (start_twin twin.store transcript logging logging) .nil

end CompiledProgram

/-- **Source positions change nothing but traces.**  For every program, with the class library in
front of it or without: if the compiler accepts it with whatever options, it accepts it without
source positions too, with the same warnings, and no host can tell the two results apart as long as
no identity hash of an object is taken.  If the compiler rejects it, it rejects it without source
positions too and for the same reason, unless a literal found no room. -/
theorem same_without_source_positions
    {entry : CompilerOptions → Program → Log × Except CompileError CompiledProgram}
    (which : entry = compile ∨ entry = compileBare) (options : CompilerOptions)
    {plain : CompilerOptions} (off : plain.debugInfo = false) (p : Program) :
    (∀ compiled, (entry options p).2 = .ok compiled →
      ∃ compiled', (entry plain p).2 = .ok compiled' ∧ compiled'.warnings = compiled.warnings
        ∧ compiled.Indistinct compiled')
      ∧ ∀ e, (entry options p).2 = .error e →
        (∃ s, e = .tooManyLiterals s) ∨ (entry plain p).2 = .error e := by
  have follows : CompiledProgram.Follows (entry options p).2 (entry plain p).2 := by
    rcases which with rfl | rfl
    · exact compileBare_follows off _
    · exact compileBare_follows off p
  generalize (entry options p).2 = r at follows
  generalize (entry plain p).2 = r' at follows
  cases follows with
  | @ok c c' warnings classes =>
    refine ⟨fun compiled accepted => ?_, fun e rejected => ?_⟩
    · cases accepted
      exact ⟨c', rfl, warnings, CompiledProgram.indistinct classes⟩
    · cases rejected
  | error e =>
    refine ⟨fun compiled accepted => ?_, fun e rejected => ?_⟩
    · cases accepted
    · cases rejected
      exact .inr rfl
  | full s r' =>
    refine ⟨fun compiled accepted => ?_, fun e rejected => ?_⟩
    · cases accepted
    · cases rejected
      exact .inl ⟨s, rfl⟩

/-- A main body that asks a block for the value of a variable, run twice, with a message in between
that an integer does not understand. -/
theorem same_without_source_positions_block :
    ∃ compiled compiled', (compileBare {} Direct.blockProgram).2 = .ok compiled
      ∧ (compileBare { debugInfo := false } Direct.blockProgram).2 = .ok compiled'
      ∧ ∃ (machine machine' : Machine) (store store' : Store),
        compiled.load = .ok (machine.image, store) ∧ compiled'.load = .ok (machine'.image, store')
        ∧ machine.QuietSession { memory := { store, transcript := {}, logging := false } } []
          [.main, .send 0 "value" [], .main]
        ∧ List.Forall₂ (Machine.Outcome.Alike compiled.methods compiled'.methods)
          (machine.session { memory := { store, transcript := {}, logging := false } } []
            [.main, .send 0 "value" [], .main])
          (machine'.session { memory := { store := store', transcript := {}, logging := true } } []
            [.main, .send 0 "value" [], .main]) := by
  obtain ⟨log, compiled, accepted, ⟨log', image, store, loaded⟩, hashless⟩ :=
    Direct.blockProgram_compiles true
  have accepted : (compileBare {} Direct.blockProgram).2 = .ok compiled :=
    congrArg Prod.snd accepted
  have loaded : compiled.load = .ok (image, store) := congrArg Prod.snd loaded
  obtain ⟨compiled', accepted', -, same⟩ :=
    (@same_without_source_positions compileBare (.inr rfl) {} { debugInfo := false } rfl
      Direct.blockProgram).1 compiled accepted
  have loads := same.loads
  rw [loaded] at loads
  obtain ⟨⟨image', store'⟩, loaded', -⟩ := loads.of_ok
  have follows := @compileBare_follows {} { debugInfo := false } rfl Direct.blockProgram
  rw [accepted, accepted'] at follows
  cases follows with
  | ok _ classes =>
    have none : Hashless compiled.methods := by
      intro b hb
      obtain ⟨c, hc, hb⟩ := List.mem_flatMap.1 hb
      exact hashless c hc b hb
    have quiet := @CompiledProgram.quietSession_of_hashless { image } compiled compiled' classes
      none store loaded {} false [.main, .send 0 "value" [], .main]
    exact ⟨compiled, compiled', accepted, accepted', { image }, { image := image' }, store, store',
      loaded, loaded', quiet, @CompiledProgram.Indistinct.sessions _ _ same { image }
        { image := image' } store store' loaded loaded' rfl {} false true _ quiet⟩

end Colloquy
