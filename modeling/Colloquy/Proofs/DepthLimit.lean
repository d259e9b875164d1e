import Colloquy.Proofs.Faults
import Colloquy.Proofs.HostCalls
import Colloquy.Proofs.Termination

/-!
# The limit on the depth of calls

A machine refuses a call when as many calls are in progress as its limit allows, and nothing else
depends on the limit.  So two machines that differ in their limits take the same steps until the one
with the smaller limit refuses a call, which is the only way for a run to overflow the call stack
(`Machine.step_raises`).

Main statement: raising the limit changes what a host call comes to only if it has overflowed the
call stack, and only from the refused call on (`Machine.limit_raises_only_overflow`).
-/

namespace Colloquy

/-! ## Steps under two limits -/

/-- What a step comes to is not a refused call. -/
def Progress.Roomy : Progress → Prop
  | .failed f _ => f.cause ≠ .callStackOverflow
  | _ => True

theorem State.roomy_resume (s : State) (v : Value) : (s.resume v).Roomy := by
  obtain ⟨memory, ⟨calls, depth, hd⟩⟩ := s
  cases calls <;> trivial

namespace Machine

variable {machine : Machine} {s t : State} {limit more : Nat} {p p' : Progress}

/-- The machine with another limit on the number of calls at a time. -/
def limited (machine : Machine) (limit : Nat) : Machine := { machine with maxDepth := limit }

/-- What a step comes to under one limit, and under another one that is no smaller. -/
inductive Raises (limit more : Nat) : Progress → Progress → Prop where
  | alike {p : Progress} (roomy : p.Roomy) : Raises limit more p p
  /-- As many calls are in progress as the smaller limit allows, and the larger one allows more. -/
  | refused {s : State} {p : Progress} (full : s.calls.depth = limit)
      (allowed : limit < more → ∃ t, p = .running t ∧ t.calls.depth = limit + 1) :
      Raises limit more (s.fail .callStackOverflow) p

theorem Raises.eq_of_roomy (h : Raises limit more p p') (roomy : p.Roomy) : p' = p := by
  cases h with
  | alike _ => rfl
  | refused full allowed => exact absurd rfl roomy

theorem Raises.of_overflow {f : Failure} (h : Raises limit more (.failed f t) p')
    (overflow : f.cause = .callStackOverflow) :
    t.calls.depth = limit
      ∧ (limit < more → ∃ u, p' = .running u ∧ u.calls.depth = limit + 1) := by
  cases h with
  | alike roomy => exact absurd overflow roomy
  | refused full allowed => exact ⟨full, allowed⟩

theorem enter_raises (within : s.calls.depth ≤ machine.maxDepth) (raised : machine.maxDepth ≤ more)
    (callee : Callee) :
    Raises machine.maxDepth more (machine.enter s callee)
      ((machine.limited more).enter s callee) := by
  by_cases room : s.calls.depth < machine.maxDepth
  · have larger : s.calls.depth < (machine.limited more).maxDepth := Nat.lt_of_lt_of_le room raised
    rw [enter_eq room, enter_eq larger]
    exact .alike trivial
  · have full : s.calls.depth = machine.maxDepth := Nat.le_antisymm within (Nat.not_lt.1 room)
    rw [enter_eq_fail room]
    refine .refused full fun larger => ?_
    have larger : s.calls.depth < (machine.limited more).maxDepth := full ▸ larger
    exact ⟨_, enter_eq larger callee, congrArg (· + 1) full⟩

theorem logCalls_raises (h : Raises limit more p p') :
    Raises limit more (machine.logCalls p) ((machine.limited more).logCalls p') := by
  cases h with
  | alike roomy =>
    refine .alike ?_
    cases p with
    | running s =>
      obtain ⟨m, -, logged⟩ := machine.logCalls_running s.memory s.calls
      rw [logged]
      trivial
    | finished v s => trivial
    | failed f s => exact roomy
  | refused full allowed =>
    refine .refused full fun larger => ?_
    obtain ⟨t, rfl, deeper⟩ := allowed larger
    obtain ⟨m, -, logged⟩ := (machine.limited more).logCalls_running t.memory t.calls
    exact ⟨_, logged, deeper⟩

theorem roomy_finish (s : State) (v : Value) : (finish s v).Roomy := by
  obtain ⟨memory, ⟨calls, depth, hd⟩⟩ := s
  cases calls with
  | nil => trivial
  | cons c rest => exact State.roomy_resume _ v

theorem roomy_escape (machine : Machine) (s : State) (c : Call) (v : Value) :
    (machine.escape s c v).Roomy := by
  have here := s.memory.roomy_frame c.frame
  unfold escape
  split
  · rename_i cause failed
    exact here.ne failed
  · split
    · exact Cause.noConfusion
    · exact State.roomy_resume _ v

theorem carryOut_raises {c : Call} {rest : List Call} {effect : Effect}
    (within : rest.length + 1 ≤ machine.maxDepth) (raised : machine.maxDepth ≤ more)
    (spared : effect.Roomy) :
    Raises machine.maxDepth more (machine.carryOut c rest effect)
      ((machine.limited more).carryOut c rest effect) := by
  cases effect with
  | next stack m =>
    have same : Raises machine.maxDepth more (.running ⟨m, .of ({ c with stack } :: rest)⟩)
        (.running ⟨m, .of ({ c with stack } :: rest)⟩) := .alike trivial
    exact logCalls_raises same
  | enter stack callee m => exact logCalls_raises (enter_raises within raised callee)
  | finish stack v m => exact .alike (roomy_finish ⟨m, .of ({ c with stack } :: rest)⟩ v)
  | escape stack v m =>
    exact .alike (machine.roomy_escape ⟨m, .of ({ c with stack } :: rest)⟩ { c with stack } v)
  | fault stack cause m => exact .alike spared

/-- **A step is the same under a larger limit**, unless it is refused a call: then as many calls are
in progress as the limit allows. -/
theorem step_raises (within : s.calls.depth ≤ machine.maxDepth)
    (raised : machine.maxDepth ≤ more) :
    Raises machine.maxDepth more (machine.step s) ((machine.limited more).step s) := by
  obtain ⟨m, calls⟩ := s
  rw [calls.eq_of] at within ⊢
  cases hcalls : calls.calls with
  | nil => exact .alike Cause.noConfusion
  | cons c rest =>
    rw [hcalls] at within
    cases decoded : Instruction.decodeAt c.code.block.bytecode c.ip with
    | error e =>
      simp only [step, CallStack.of, decoded]
      exact .alike Cause.noConfusion
    | ok found =>
      cases found with
      | none =>
        simp only [step, CallStack.of, decoded]
        refine .alike ?_
        generalize (if machine.traceInstructions then _ else _) = noted
        split
        · exact roomy_finish _ _
        · rename_i cause failed
          unfold lastValue at failed
          split at failed
          · cases failed
          · exact (noted.roomy_frame c.frame).map.ne failed
      | some found =>
        obtain ⟨instruction, next⟩ := found
        -- both machines log alike, so the instruction finds the same memory
        have stepped (other : Machine) : other.step ⟨m, .of (c :: rest)⟩
            = other.carryOut (c.moved next) rest ((c.moved next).execute other.image
              (if other.traceInstructions then m.trace fun _ => c.code.block.line c.ip else m)
              instruction) := by
          simp only [step, CallStack.of, decoded]
          rfl
        rw [stepped, stepped]
        exact carryOut_raises within raised (Call.execute_roomy _ _ _ _)

/-- A step that goes on leaves no more calls than the limit allows. -/
theorem step_within (within : s.calls.depth ≤ machine.maxDepth)
    (h : machine.step s = .running t) : t.calls.depth ≤ machine.maxDepth := by
  have moves := step_moves h
  rw [s.calls.depth_eq] at within
  rw [t.calls.depth_eq]
  generalize s.calls.calls = before at *
  generalize t.calls.calls = after at *
  cases moves with
  | forward frame code ahead inside => exact within
  | enter frame code ahead inside room => exact room
  | leave suffix =>
    have := suffix.length_le
    simp only [List.length_cons] at *
    omega

/-! ## Runs under two limits -/

/-- A run has not ended with a refused call. -/
def Outcome.Roomy : Outcome → Prop
  | .failure f _ => f.cause ≠ .callStackOverflow
  | .value _ _ => True

@[simp] theorem Outcome.roomy_settled (o : Outcome) : o.settled.Roomy ↔ o.Roomy := by
  cases o <;> rfl

/-- **A run that is not refused a call is the same under a larger limit.** -/
theorem run_limited (within : s.calls.depth ≤ machine.maxDepth) (raised : machine.maxDepth ≤ more)
    (roomy : (machine.run s).Roomy) : (machine.limited more).run s = machine.run s := by
  fun_induction machine.run s with
  | case1 s after hstep ih =>
    have same := (step_raises within raised).eq_of_roomy (by rw [hstep]; trivial)
    rw [run_eq, same, hstep]
    exact ih (step_within within hstep) roomy
  | case2 s v after hstep =>
    have same := (step_raises within raised).eq_of_roomy (by rw [hstep]; trivial)
    rw [run_eq, same, hstep]
    rfl
  | case3 s f after hstep =>
    have same := (step_raises within raised).eq_of_roomy (by rw [hstep]; exact roomy)
    rw [run_eq, same, hstep]
    rfl

theorem outcome_limited (raises : Raises machine.maxDepth more p p')
    (raised : machine.maxDepth ≤ more)
    (within : ∀ s, p = .running s → s.calls.depth ≤ machine.maxDepth)
    (roomy : (machine.outcome p).Roomy) :
    (machine.limited more).outcome p' = machine.outcome p := by
  cases p with
  | running s =>
    rw [raises.eq_of_roomy trivial]
    exact run_limited (within s rfl) raised roomy
  | finished v s =>
    rw [raises.eq_of_roomy trivial]
    rfl
  | failed f s =>
    rw [raises.eq_of_roomy roomy]
    rfl

/-- A call is refused `n` steps from `p`, where `p'` is what a larger limit makes of `p`; `f` tells
of it, and `t` is the state then. -/
structure Refused (machine : Machine) (more : Nat) (p p' : Progress) (n : Nat) (f : Failure)
    (t : State) : Prop where
  failed : machine.advance n p = .failed f t
  /-- As many calls are in progress as the limit allows. -/
  full : t.calls.calls.length = machine.maxDepth
  /-- All steps before are the same. -/
  before : ∀ k < n, (machine.limited more).advance k p' = machine.advance k p
  /-- A larger limit lets the call in, on top of the others. -/
  beyond : machine.maxDepth < more → ∃ u, (machine.limited more).advance n p' = .running u
    ∧ u.calls.calls.length = machine.maxDepth + 1

theorem Raises.refused_now {f : Failure} (h : Raises machine.maxDepth more (.failed f t) p')
    (overflow : f.cause = .callStackOverflow) : machine.Refused more (.failed f t) p' 0 f t := by
  obtain ⟨full, allowed⟩ := h.of_overflow overflow
  refine ⟨rfl, t.calls.depth_eq ▸ full, fun k hk => absurd hk (Nat.not_lt_zero k), fun larger => ?_⟩
  obtain ⟨u, rfl, deeper⟩ := allowed larger
  exact ⟨u, rfl, u.calls.depth_eq ▸ deeper⟩

theorem Refused.earlier {n : Nat} {f : Failure}
    (h : machine.Refused more (machine.step s) ((machine.limited more).step s) n f t) :
    machine.Refused more (.running s) (.running s) (n + 1) f t := by
  refine ⟨h.failed, h.full, fun k hk => ?_, h.beyond⟩
  cases k with
  | zero => rfl
  | succ k => exact h.before k (Nat.lt_of_succ_lt_succ hk)

/-- **A run that overflows the call stack is refused a call**, and is the same under a larger limit
up to then. -/
theorem refused_of_run {f : Failure} (within : s.calls.depth ≤ machine.maxDepth)
    (raised : machine.maxDepth ≤ more) (h : machine.run s = .failure f t)
    (overflow : f.cause = .callStackOverflow) :
    ∃ n, machine.Refused more (.running s) (.running s) n f t := by
  fun_induction machine.run s with
  | case1 s after hstep ih =>
    obtain ⟨n, refused⟩ := ih (step_within within hstep) h
    have same := (step_raises within raised).eq_of_roomy (by rw [hstep]; trivial)
    rw [hstep] at same
    refine ⟨n + 1, .earlier ?_⟩
    rw [same, hstep]
    exact refused
  | case2 s v after hstep => cases h
  | case3 s f after hstep =>
    cases h
    have raises := step_raises within raised
    rw [hstep] at raises
    refine ⟨1, .earlier ?_⟩
    rw [hstep]
    exact raises.refused_now overflow

theorem refused_of_outcome {f : Failure} (raises : Raises machine.maxDepth more p p')
    (raised : machine.maxDepth ≤ more)
    (within : ∀ s, p = .running s → s.calls.depth ≤ machine.maxDepth)
    (h : machine.outcome p = .failure f t) (overflow : f.cause = .callStackOverflow) :
    ∃ n, machine.Refused more p p' n f t := by
  cases p with
  | running s =>
    rw [raises.eq_of_roomy trivial]
    exact refused_of_run (within s rfl) raised h overflow
  | finished v s => cases h
  | failed f' s =>
    cases h
    exact ⟨0, raises.refused_now overflow⟩

/-! ## Host calls under two limits -/

/-- What calling a method from the host comes to before the first instruction. -/
def called (machine : Machine) : Reply → Progress
  | .answer v m => .finished v ⟨m, .empty⟩
  | .enter callee m => machine.enter ⟨m, .empty⟩ callee
  | .fault cause m => State.fail ⟨m, .empty⟩ cause

/-- What a host call comes to before the first instruction. -/
def opening (machine : Machine) (s : State) : HostCall → Progress
  | .perform receiver code args =>
    machine.called (invoke machine.image s.abandon.memory receiver code args)
  | .send receiver selector args =>
    match machine.image.method receiver selector with
    | .ok code => machine.called (invoke machine.image s.abandon.memory receiver code args)
    | .error cause => s.fail cause
  | .main =>
    match machine.image.byName[mainClass]? with
    | none => .finished .nil s
    | some cls =>
      match cls.lookup mainSelector with
      | none => s.fail (.notUnderstood mainClass mainSelector)
      | some code =>
        let (store, receiver) := Image.instantiate s.memory.store cls
        let s : State := { s with memory := { s.memory with store } }
        machine.called (invoke machine.image s.abandon.memory receiver code [])

theorem perform_eq_called (machine : Machine) (s : State) (receiver : Value) (code : Code)
    (args : List Value) : machine.perform s receiver code args
      = (machine.outcome (machine.called
        (invoke machine.image s.abandon.memory receiver code args))).settled := by
  rw [perform_eq]
  cases invoke machine.image s.abandon.memory receiver code args <;> rfl

/-- With no call in progress, there is nothing to drop. -/
theorem abandon_of_rests (h : s.Rests) : s.abandon = s := by
  obtain ⟨m, calls⟩ := s
  have empty : calls.calls = [] := List.map_eq_nil_iff.1 h.empty
  rw [calls.eq_of, empty]
  rfl

/-- **What a host call comes to follows from its opening.** -/
theorem handle_eq_opening (h : s.Rests) (call : HostCall) :
    machine.handle s call = (machine.outcome (machine.opening s call)).settled := by
  have failed (cause : Cause) :
      Outcome.failure (s.failure cause) s = (machine.outcome (s.fail cause)).settled := by
    simp only [State.fail, outcome, Outcome.settled, abandon_of_rests h]
  cases call with
  | perform receiver code args => exact perform_eq_called machine s receiver code args
  | send receiver selector args =>
    cases found : machine.image.method receiver selector with
    | ok code =>
      simp only [handle, send, opening, found]
      exact perform_eq_called machine s receiver code args
    | error cause =>
      simp only [handle, send, opening, found]
      exact failed cause
  | main =>
    cases known : machine.image.byName[mainClass]? with
    | none =>
      simp only [handle, runMain, opening, known]
      rfl
    | some cls =>
      cases found : cls.lookup mainSelector with
      | none =>
        simp only [handle, runMain, opening, known, found]
        exact failed _
      | some code =>
        simp only [handle, runMain, opening, known, found]
        exact perform_eq_called machine _ _ code []

theorem called_raises (raised : machine.maxDepth ≤ more) {reply : Reply} (spared : reply.Roomy) :
    Raises machine.maxDepth more (machine.called reply) ((machine.limited more).called reply) := by
  cases reply with
  | answer v m => exact .alike trivial
  | enter callee m => exact enter_raises (Nat.zero_le _) raised callee
  | fault cause m => exact .alike spared

/-- A host call opens in the same way under a larger limit, unless its first call is refused. -/
theorem opening_raises (raised : machine.maxDepth ≤ more) (call : HostCall) :
    Raises machine.maxDepth more (machine.opening s call)
      ((machine.limited more).opening s call) := by
  cases call with
  | perform receiver code args => exact called_raises raised (invoke_roomy _ _ _ _ _)
  | send receiver selector args =>
    cases found : machine.image.method receiver selector with
    | ok code =>
      simp only [opening, limited, found]
      exact called_raises raised (invoke_roomy _ _ _ _ _)
    | error cause =>
      simp only [opening, limited, found]
      exact .alike ((machine.image.roomy_method receiver selector).ne found)
  | main =>
    cases known : machine.image.byName[mainClass]? with
    | none =>
      simp only [opening, limited, known]
      exact .alike trivial
    | some cls =>
      cases found : cls.lookup mainSelector with
      | none =>
        simp only [opening, limited, known, found]
        exact .alike Cause.noConfusion
      | some code =>
        simp only [opening, limited, known, found]
        exact called_raises raised (invoke_roomy _ _ _ _ _)

theorem called_within {reply : Reply} (h : machine.called reply = .running t) :
    t.calls.depth ≤ machine.maxDepth := by
  cases reply with
  | answer v m => cases h
  | fault cause m => cases h
  | enter callee m =>
    obtain ⟨room, new, hnew⟩ := calls_of_enter h
    rw [t.calls.depth_eq, hnew]
    exact room

theorem opening_within {call : HostCall} (h : machine.opening s call = .running t) :
    t.calls.depth ≤ machine.maxDepth := by
  cases call with
  | perform receiver code args => exact called_within h
  | send receiver selector args =>
    simp only [opening] at h
    split at h
    · exact called_within h
    · cases h
  | main =>
    simp only [opening] at h
    split at h
    · cases h
    · split at h
      · cases h
      · exact called_within h

/-- **Raising the limit changes nothing but overflows.**  Between host calls, with any code loaded:
a host call that does not overflow the call stack comes to the same under a larger limit, with the
same value or failure and the same state after it, and so does making an instance; and one that does
is refused a call after some number of steps, with exactly as many calls in progress as the limit
allows.  The steps before are the same under the larger limit, which lets the call in. -/
theorem limit_raises_only_overflow (served : machine.Served s) (raised : machine.maxDepth ≤ more) :
    (∀ call, (machine.handle s call).Roomy →
      (machine.limited more).handle s call = machine.handle s call)
    ∧ (∀ name, (machine.limited more).newInstance s name = machine.newInstance s name)
    ∧ ∀ call f t, machine.handle s call = .failure f t → f.cause = .callStackOverflow →
      ∃ n u, t = u.abandon
        ∧ machine.Refused more (machine.opening s call) ((machine.limited more).opening s call)
          n f u := by
  have rests := served.rests
  refine ⟨fun call roomy => ?_, fun name => rfl, fun call f t h overflow => ?_⟩
  · rw [handle_eq_opening rests, Outcome.roomy_settled] at roomy
    rw [handle_eq_opening rests, handle_eq_opening rests]
    exact congrArg Outcome.settled
      (outcome_limited (opening_raises raised call) raised (fun _ => opening_within) roomy)
  · rw [handle_eq_opening rests] at h
    cases ended : machine.outcome (machine.opening s call) with
    | value v u =>
      rw [ended] at h
      cases h
    | failure f' u =>
      rw [ended] at h
      cases h
      obtain ⟨n, refused⟩ := refused_of_outcome (opening_raises raised call) raised
        (fun _ => opening_within) ended overflow
      exact ⟨n, u, rfl, refused⟩

/-- A method that sends its own selector to `nil`. -/
def endless : Code :=
  { block := { (default : Block) with
      bytecode := Instruction.encodeAll #[.pushNil, .send 0 0]
      literals := #["again"] }
    id := default }

/-- A machine whose `nil` answers `again` with the endless method. -/
def endlessMachine (limit : Nat) : Machine :=
  let methods : Std.HashMap String Code := Std.HashMap.emptyWithCapacity.insert "again" endless
  let undefinedObject : Class := { info := { (default : ClassInfo) with methods } }
  { image := { (default : Image) with
      known := { (default : KnownClasses) with undefinedObject } }
    maxDepth := limit }

theorem method_endlessMachine (limit : Nat) :
    (endlessMachine limit).image.method .nil "again" = .ok endless := by
  have found : (endlessMachine limit).image.known.undefinedObject.lookup "again"
      = some endless := by
    simp [Class.lookup, Class.chain, endlessMachine]
  rw [Image.method, Image.classOf, Image.methodFrom, found]
  rfl

/-- The endless method is refused its second call, if there is room for one. -/
theorem step_endlessMachine (m : Memory) (frame : FrameId) : ∃ t,
    (endlessMachine 1).step ⟨m, .of [{ frame, code := endless }]⟩ = .running t
      ∧ ∃ u : State, (endlessMachine 1).step t = u.fail .callStackOverflow := by
  refine ⟨⟨m, .of [{ frame, code := endless, ip := 1, current := some 0, stack := [.nil] }]⟩, rfl,
    ?_⟩
  have found := method_endlessMachine 1
  have decoded : Instruction.decodeAt endless.block.bytecode 1 = .ok (some (.send 0 0, 6)) := rfl
  simp only [step, CallStack.of, decoded, Call.execute]
  have named (c : Call) (hc : c.code = endless) : c.literal 0 = .ok "again" := by
    rw [Call.literal, hc]
    rfl
  rw [named _ rfl]
  simp only [Call.send, UInt16.toNat_ofNat, Nat.zero_mod, List.drop_zero, found]
  exact ⟨_, rfl⟩

/-- The second call of the endless method is refused with one call in progress, and let in where
there is room for two. -/
theorem limit_raises_only_overflow_endless : ∃ f t n u,
    (endlessMachine 1).perform (start {} {}) .nil endless [] = .failure f t
      ∧ f.cause = .callStackOverflow
      ∧ (endlessMachine 1).Refused 2
        ((endlessMachine 1).opening (start {} {}) (.perform .nil endless []))
        (((endlessMachine 1).limited 2).opening (start {} {}) (.perform .nil endless []))
        n f u := by
  let call : HostCall := .perform .nil endless []
  have asked : invoke (endlessMachine 1).image (start {} {}).abandon.memory .nil endless []
      = .enter (.method endless .nil []) (start {} {}).memory := rfl
  have entered := enter_eq (show (start {} {}).calls.depth < (endlessMachine 1).maxDepth by decide)
    (.method endless .nil [])
  obtain ⟨t, moved, u, refused⟩ := step_endlessMachine _ _
  have visits : (endlessMachine 1).Visits (start {} {}) call t :=
    .step (.entered asked entered) moved
  have overflow : (endlessMachine 1).handle (start {} {}) call
      = .failure (u.failure .callStackOverflow) u.abandon := by
    have run := visits.handle_eq
    rw [run_eq, refused] at run
    exact run
  have served : (endlessMachine 1).Served (start {} {}) := .start {} {}
  have raised : (endlessMachine 1).maxDepth ≤ 2 := by decide
  obtain ⟨n, w, -, refused⟩ := (limit_raises_only_overflow served raised).2.2 call _ _ overflow rfl
  exact ⟨_, _, n, w, overflow, rfl, refused⟩

end Machine

end Colloquy
