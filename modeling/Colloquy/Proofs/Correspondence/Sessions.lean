import Colloquy.Proofs.Correspondence.Steps
import Colloquy.Proofs.Renaming.Sessions

/-!
# Sessions that correspond

Suppose that steps of two machines come to the same, from states that are in step, if the first of
them is one that a session can come to (`Machine.InStep`).  Then so do runs, host calls and whole
sessions: the host is told the same, up to what corresponds.

Main statements: `Machine.InStep.session`, `CompiledProgram.indistinctUpTo`.
-/

namespace Colloquy

/-! ## Outcomes -/

/-- The runs end with values that correspond, or with faults that do. -/
inductive Machine.Outcome.UpTo (K : Correspondence) : Outcome → Outcome → Prop where
  | value {v v' : Value} {s s' : State} (hv : v.UpTo K v') (h : s.UpTo K s') :
      UpTo K (.value v s) (.value v' s')
  | failure {f f' : Failure} {s s' : State} (akin : K.faults f.cause f'.cause) (h : s.UpTo K s') :
      UpTo K (.failure f s) (.failure f' s')

variable {K : Correspondence} {machine machine' : Machine} {x : Session} {s s' : State}
  {v v' receiver receiver' : Value} {args args' host host' : List Value} {code code' : Code}
  {o o' : Machine.Outcome}

namespace Machine.Outcome.UpTo

theorem settled (h : o.UpTo K o') : o.settled.UpTo K o'.settled := by
  cases h with
  | value hv hs => exact .value hv hs
  | failure akin hs => exact .failure akin hs.abandon.upTo

theorem state (h : o.UpTo K o') : o.state.UpTo K o'.state := by
  cases h with
  | value hv hs => exact hs
  | failure akin hs => exact hs

theorem answer (h : o.UpTo K o') : Checked.Akin K.faults (Value.UpTo K) o.answer o'.answer := by
  cases h with
  | value hv hs => exact .ok hv
  | failure akin hs => exact .error akin

/-- What the host has got besides. -/
theorem got (h : o.UpTo K o') (hh : List.Forall₂ (Value.UpTo K) host host') :
    List.Forall₂ (Value.UpTo K) (host ++ o.answer.toOption.toList)
      (host' ++ o'.answer.toOption.toList) := by
  refine List.rel_append hh ?_
  cases h with
  | value hv hs => exact .cons hv .nil
  | failure akin hs => exact .nil

end Machine.Outcome.UpTo

/-- What the host has got under a number. -/
theorem held_upTo (h : List.Forall₂ (Value.UpTo K) host host') (n : Nat) :
    (held host n).UpTo K (held host' n) :=
  Value.Like.getD h n

theorem heldAll_upTo (h : List.Forall₂ (Value.UpTo K) host host') (ns : List Nat) :
    List.Forall₂ (Value.UpTo K) (ns.map (held host)) (ns.map (held host')) :=
  List.forall₂_map_left_iff.2 (List.forall₂_map_right_iff.2
    (List.forall₂_same.2 fun n _ => held_upTo h n))

namespace State.UpTo

theorem failure (h : s.UpTo K s') (lawful : K.Lawful) (cause : Cause) :
    Machine.Outcome.UpTo K (.failure (s.failure cause) s) (.failure (s'.failure cause) s') :=
  .failure (lawful.same cause) h

/-- The store has changed in both. -/
theorem restore (h : s.UpTo K s') {store store' : Store}
    (hs : store.Like K.toLikeness (fun _ => True) store') :
    State.UpTo K { s with memory := { s.memory with store } }
      { s' with memory := { s'.memory with store := store' } } :=
  ⟨h.memory.restore hs, h.frames⟩

end State.UpTo

/-! ## Moves of sessions -/

namespace Session.Coherent

/-- Any number of moves keep a session coherent. -/
theorem moves {x' : Session} (hx : x.Coherent machine)
    (reached : Relation.ReflTransGen (Session.Move machine) x x') : x'.Coherent machine := by
  induction reached with
  | refl => exact hx
  | tail _ hm ih => exact ih.move hm

/-- The session that a run begins with, after a host has called a method. -/
theorem entered {history : History} (hx : Session.Coherent machine ⟨s, host, history⟩)
    (hr : receiver ∈ host) (ha : ∀ v ∈ args, v ∈ host) {callee : Callee} {m : Memory} {t : State}
    (asked : invoke machine.image s.abandon.memory receiver code args = .enter callee m)
    (entered : machine.enter ⟨m, .empty⟩ callee = .running t) :
    ∃ history', Session.Coherent machine ⟨t, host, history'⟩ := by
  have abandoned := hx.move .abandon
  have asks : Session.Asks machine.image s.abandon.memory host (.enter callee m) :=
    asked ▸ .method code hr ha
  exact ⟨_, abandoned.move (.enter asks entered)⟩

end Session.Coherent

/-! ## Runs -/

/-- Steps of the machines come to the same, if the first machine is in a state that a session can
come to and takes no identity hash of an object. -/
structure Machine.InStep (K : Correspondence) (machine machine' : Machine) : Prop extends
    Machine.UpTo K machine machine' where
  lawful : K.Lawful
  step : ∀ {x : Session} {s' : State}, x.Coherent machine → x.state.InStep K s' →
    ¬x.state.Hashes machine → Progress.UpTo K (machine.step x.state) (machine'.step s')

namespace Machine.InStep

variable (h : machine.InStep K machine')
include h

/-- **Runs from states that are in step** end with values that correspond, or with faults that do,
if no identity hash of an object is taken. -/
theorem run {host : List Value} {history : History}
    (hx : Session.Coherent machine ⟨s, host, history⟩) (hs : s.InStep K s')
    (quiet : machine.Quiet s) : Outcome.UpTo K (machine.run s) (machine'.run s') := by
  fun_induction Machine.run machine s generalizing s' history with
  | case1 s after step ih =>
    have both := h.step hx hs quiet.here
    rw [step] at both
    rw [run_eq machine' s']
    generalize machine'.step s' = p at both
    cases both with
    | running later => exact ih (hx.move (.step step)) later (quiet.next step)
  | case2 s v after step =>
    have both := h.step hx hs quiet.here
    rw [step] at both
    rw [run_eq machine' s']
    generalize machine'.step s' = p at both
    cases both with
    | finished hv states => exact .value hv states
  | case3 s f after step =>
    have both := h.step hx hs quiet.here
    rw [step] at both
    rw [run_eq machine' s']
    generalize machine'.step s' = p at both
    cases both with
    | failed akin states => exact .failure akin states

/-! ## Host calls -/

/-- **A method is run to its end.** -/
theorem perform {history : History} (hx : Session.Coherent machine ⟨s, host, history⟩)
    (hmem : receiver ∈ host) (amem : ∀ v ∈ args, v ∈ host) (hs : s.UpTo K s')
    (hr : receiver.UpTo K receiver') (hc : K.codes code code')
    (ha : List.Forall₂ (Value.UpTo K) args args')
    (quiet : machine.QuietCall s receiver code args) :
    (machine.perform s receiver code args).UpTo K (machine'.perform s' receiver' code' args') := by
  have reply := invoke_upTo h.lawful h.image hc hs.abandon.memory hr ha fun primitive none =>
    hr.identityHash_eq fun identity => quiet.1 ⟨primitive, none, identity⟩
  have running := quiet.2
  have sound {callee m t} := @Session.Coherent.entered machine s receiver args host code history hx
    hmem amem callee m t
  rw [perform_eq, perform_eq]
  generalize invoke machine.image s.abandon.memory receiver code args = r at reply running sound
  generalize invoke machine'.image s'.abandon.memory receiver' code' args' = r' at reply
  cases reply with
  | answer hv hm => exact .value hv ⟨hm, .nil⟩
  | @enter callee callee' m m' hcallee hm =>
    have idle : State.InStep K ⟨m, .empty⟩ ⟨m', .empty⟩ := ⟨hm, .nil⟩
    have called := h.enter h.lawful idle hcallee
    have sound {t : State} := @sound callee m t rfl
    have running {t : State} := running callee m t rfl
    refine Outcome.UpTo.settled ?_
    generalize machine.enter ⟨m, .empty⟩ callee = p at called sound running
    generalize machine'.enter ⟨m', .empty⟩ callee' = p' at called
    cases called with
    | running begun =>
      obtain ⟨history', coherent⟩ := sound rfl
      exact h.run coherent begun (running rfl)
    | finished hv states => exact .value hv states
    | failed akin states => exact .failure akin states
  | fault akin hm => exact .failure akin ⟨hm, .nil⟩

theorem send {history : History} (hx : Session.Coherent machine ⟨s, host, history⟩)
    (hmem : receiver ∈ host) (amem : ∀ v ∈ args, v ∈ host) (hs : s.UpTo K s')
    (hr : receiver.UpTo K receiver') (selector : String)
    (ha : List.Forall₂ (Value.UpTo K) args args')
    (quiet : ∀ code, machine.image.method receiver selector = .ok code →
      machine.QuietCall s receiver code args) :
    (machine.send s receiver selector args).UpTo K
      (machine'.send s' receiver' selector args') := by
  unfold Machine.send
  rcases (h.image.method h.lawful.linked hr selector).cases with
    ⟨code, code', found, found', hc⟩ | ⟨cause, found, found'⟩
  · rw [found, found']
    exact h.perform hx hmem amem hs hr hc ha (quiet code found)
  · rw [found, found']
    exact hs.failure h.lawful cause

/-- A new object of a class. -/
theorem instantiate (hs : s.UpTo K s') {cls cls' : Class} (hc : cls.UpTo K.codes cls') :
    State.UpTo K
        { s with memory := { s.memory with store := (Image.instantiate s.memory.store cls).1 } }
        { s' with memory := { s'.memory with store := (Image.instantiate s'.memory.store cls').1 } }
      ∧ (Image.instantiate s.memory.store cls).2.UpTo K
        (Image.instantiate s'.memory.store cls').2 := by
  obtain ⟨store, value⟩ := Image.instantiate_like (h.image.fair h.lawful.linked)
    hs.memory.data.store (h.lawful.linked.classes ▸ hc)
  rw [Store.grown_true] at store value
  exact ⟨hs.restore store, value⟩

theorem newInstance (hs : s.UpTo K s') (name : String) :
    (machine.newInstance s name).UpTo K (machine'.newInstance s' name) := by
  have found := h.image.byName name
  unfold Machine.newInstance
  generalize machine.image.byName[name]? = c at found
  generalize machine'.image.byName[name]? = c' at found
  cases found with
  | none => exact hs.failure h.lawful _
  | some cls =>
    obtain ⟨states, value⟩ := h.instantiate hs cls
    exact .value value states

theorem runMain {history : History} (hx : Session.Coherent machine ⟨s, host, history⟩)
    (hs : s.UpTo K s') {held : List Value} (quiet : machine.QuietRequest s held .main) :
    (machine.runMain s).UpTo K (machine'.runMain s') := by
  have found := h.image.byName mainClass
  unfold Machine.QuietRequest at quiet
  unfold Machine.runMain
  generalize machine.image.byName[mainClass]? = c at found quiet
  generalize machine'.image.byName[mainClass]? = c' at found
  cases found with
  | none => exact .value .nil hs
  | @some cls cls' hcls =>
    have method := hcls.lookup mainSelector
    have quiet := quiet cls
    dsimp only
    generalize cls.lookup mainSelector = f at method quiet
    generalize cls'.lookup mainSelector = f' at method
    cases method with
    | none => exact hs.failure h.lawful _
    | some hc =>
      obtain ⟨states, value⟩ := h.instantiate hs hcls
      exact h.perform (hx.move (.object cls)) List.mem_cons_self (List.forall_mem_nil _)
        states value hc .nil (quiet _ rfl rfl)

omit h in
/-- A value that the host makes up. -/
theorem make (lawful : K.Lawful) (hs : s.UpTo K s') (value : Literal) :
    Outcome.UpTo K (.value (s.memory.make value).2 { s with memory := (s.memory.make value).1 })
      (.value (s'.memory.make value).2 { s' with memory := (s'.memory.make value).1 }) := by
  cases value with
  | nil => exact .value .nil hs
  | bool b => exact .value (.bool b) hs
  | int n => exact .value (.int n) hs
  | float x => exact .value (.float x) hs
  | char c => exact .value (.char c) hs
  | string text =>
    have serial := hs.memory.data.serial
    have same : (s'.memory.newString text).2 = (s.memory.newString text).2 :=
      congrArg (fun n => Value.string (.made n) text) serial
    have hv : (s.memory.newString text).2.UpTo K (s'.memory.newString text).2 := by
      rw [same]
      exact .string (lawful.linked.made _) text
    exact .value hv ⟨⟨hs.memory.frames, hs.memory.data.store, congrArg (· + 1) serial,
      hs.memory.data.transcript⟩, hs.frames⟩

omit h in
/-- An element or a field that the host looks at. -/
theorem element (hs : s.UpTo K s') (index : Nat) (hv : v.UpTo K v') :
    (s.memory.element index v).UpTo K (s'.memory.element index v') := by
  cases hv with
  | array row => exact hs.memory.data.store.getD row index
  | object same row => exact hs.memory.data.store.getD row index
  | _ => exact .nil

/-- **A request** comes to the same. -/
theorem serve (hx : x.Coherent machine) (hmem : ∀ v ∈ host, v ∈ x.host) (hs : x.state.UpTo K s')
    (hh : List.Forall₂ (Value.UpTo K) host host') (r : Request)
    (quiet : machine.QuietRequest x.state host r) :
    (machine.serve x.state host r).UpTo K (machine'.serve s' host' r) := by
  cases r with
  | make value => exact make h.lawful hs value
  | array items =>
    have values : List.Forall₂ (Value.UpTo K) (items.map (held host)).toArray.toList
        (items.map (held host')).toArray.toList := heldAll_upTo hh items
    obtain ⟨data, hv⟩ := hs.memory.data.newArray (h.image.fair h.lawful.linked) values
    rw [Store.grown_true] at data hv
    exact .value hv ⟨⟨hs.memory.frames, data⟩, hs.frames⟩
  | global name =>
    have found := h.image.lookup h.lawful.linked name
    rw [Machine.serve, Machine.serve]
    generalize machine.image.lookup name = g at found
    generalize machine'.image.lookup name = g' at found
    cases found with
    | none => exact .value .nil hs
    | some hv => exact .value hv hs
  | element whole index => exact .value (element hs index (held_upTo hh whole)) hs
  | newInstance className => exact h.newInstance hs className
  | send receiver selector args =>
    obtain ⟨s, before, history⟩ := x
    -- the host makes up a `nil` first, which stands for the values that it has not got
    have hx : Session.Coherent machine ⟨s, .nil :: before, history⟩ :=
      hx.move (.plain (.inl trivial))
    have got (n : Nat) : held host n ∈ Value.nil :: before :=
      Session.held_mem (x := ⟨s, .nil :: before, history⟩)
        (fun v hv => List.mem_cons_of_mem _ (hmem v hv)) List.mem_cons_self n
    exact h.send hx (got receiver) (List.forall_mem_map.2 fun n _ => got n) hs
      (held_upTo hh receiver) selector (heldAll_upTo hh args) quiet
  | main => exact h.runMain hx hs quiet

/-- **A session** comes to the same, request by request. -/
theorem session (requests : List Request) (hx : x.Coherent machine) (hmem : ∀ v ∈ host, v ∈ x.host)
    (hs : x.state.UpTo K s') (hh : List.Forall₂ (Value.UpTo K) host host')
    (quiet : machine.QuietSession x.state host requests) :
    List.Forall₂ (Outcome.UpTo K) (machine.session x.state host requests)
      (machine'.session s' host' requests) := by
  induction requests generalizing x s' host host' with
  | nil => exact .nil
  | cons r rest ih =>
    obtain ⟨first, later⟩ := quiet
    have served := h.serve hx hmem hs hh r first
    obtain ⟨x', reached, answered⟩ := Session.serve_moves hx hmem r
    refine .cons served ?_
    rw [← answered.state] at later ⊢
    exact ih (hx.moves reached) answered.host (answered.state ▸ served.state) (served.got hh) later

end Machine.InStep

/-! ## Programs -/

/-- The host is told the same and leaves the same behind, up to what corresponds: the answers are
values or faults that correspond, all rows hold values that do, and the transcripts are equal.
Traces of failures and logs may be others. -/
structure Machine.Outcome.Matches (K : Correspondence) (o o' : Outcome) : Prop where
  answer : Checked.Akin K.faults (Value.UpTo K) o.answer o'.answer
  store : o.state.memory.store.Like K.toLikeness (fun _ => True) o'.state.memory.store
  transcript : o'.state.memory.transcript = o.state.memory.transcript

theorem Machine.Outcome.UpTo.matched (h : o.UpTo K o') : o.Matches K o' :=
  ⟨h.answer, h.state.memory.data.store, h.state.memory.data.transcript⟩

namespace CompiledProgram

variable {p p' : CompiledProgram}

/-- No host can tell the programs apart, up to what corresponds, as long as no identity hash of an
object is taken. -/
structure IndistinctUpTo (K : Correspondence) (p p' : CompiledProgram) : Prop where
  /-- Both can be loaded, or neither for the same cause. -/
  loads : Primitive.Agree (fun _ _ => True) p.load p'.load
  /-- Every session comes to the same, however much the machines log. -/
  sessions : ∀ {machine machine' : Machine} {store store' : Store},
    p.load = .ok (machine.image, store) → p'.load = .ok (machine'.image, store') →
    machine'.maxDepth = machine.maxDepth →
    ∀ (transcript : Transcript) (logging logging' : Bool) (requests : List Request),
      machine.QuietSession { memory := { store, transcript, logging } } [] requests →
      List.Forall₂ (Machine.Outcome.Matches K)
        (machine.session { memory := { store, transcript, logging } } [] requests)
        (machine'.session
          { memory := { store := store', transcript, logging := logging' } } [] requests)
  /-- Objects that correspond are as identical as each other. -/
  identical : ∀ {loaded : Image × Store}, p.load = .ok loaded → ∀ {v v' w w' : Value},
    v.UpTo K v' → w.UpTo K w' → v'.identical w' = v.identical w

/-- **Programs whose images correspond cannot be told apart**, if machines that have loaded them
stay in step. -/
theorem indistinctUpTo (lawful : K.Lawful)
    (loads : Primitive.Agree (Image.LoadedUpTo K.toLikeness) p.load p'.load)
    (inStep : ∀ {machine machine' : Machine}, machine.UpTo K machine' →
      machine.InStep K machine') : p.IndistinctUpTo K p' := by
  refine ⟨?_, ?_, ?_⟩
  · rcases loads.cases with ⟨r, r', loaded, loaded', -⟩ | ⟨cause, failed, failed'⟩
    · rw [loaded, loaded']
      trivial
    · rw [failed, failed']
      rfl
  · intro machine machine' store store' loaded loaded' depth transcript logging logging' requests
      quiet
    have began : Session.Coherent machine ⟨{ memory := { store, transcript, logging } }, [], {}⟩ :=
      ⟨_, Session.coherent_of_load (Prod.ext rfl loaded) _ rfl rfl⟩
    rw [loaded, loaded'] at loads
    have machines := @inStep machine machine' ⟨loads.image, depth⟩
    -- before anything has run, there are no frames
    have start : State.UpTo K { memory := { store, transcript, logging } }
        { memory := { store := store', transcript, logging := logging' } } :=
      ⟨⟨⟨.nil, rfl, rfl, rfl, rfl⟩, loads.store, rfl, rfl⟩, .nil⟩
    exact (machines.session requests began (List.forall_mem_nil _) start .nil quiet).imp
      fun _ _ same => same.matched
  · intro r loaded v v' w w' hv hw
    rw [loaded] at loads
    obtain ⟨r', -, same⟩ := loads.of_ok
    exact hv.identical_eq (same.image.fair lawful.linked) hw

end CompiledProgram

end Colloquy
