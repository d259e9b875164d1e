import Colloquy.Proofs.Direct.Instructions

/-!
# Running code is evaluating trees

The machine that runs the code of a tree comes to what the evaluator says of the tree: it goes on
with the value on its stack, fails for the same cause, or takes calls off its stack up to that of
the activation that a return escapes to (`Direct.Simulates`).

Main statements: the code of expressions and statements (`Direct.expr_simulated`,
`Direct.stats_simulated`), and calls, by induction on the room that is left on the call stack
(`Direct.enter_simulated`).
-/

namespace Colloquy

namespace Direct

open Instruction (Reads)
open View

/-! ## Outcomes and results -/

/-- The outcome `o` of the machine goes with a result of the evaluator: a value that continues as
`P` says, a failure for an ordinary cause, or a return to one of the calls. -/
inductive Simulates (machine : Machine) (x : Setting) (s : View) (calls : List Call)
    (host : List Value) (o : Machine.Outcome) {α : Type} (P : α → View → Prop) :
    EStateM.Result Stop World α → Prop where
  | ok {a : α} {s' : View} (h : P a s') : Simulates machine x s calls host o P (.ok a s'.world)
  | fault {s' : View} {calls' : List Call} {f : Failure}
      (ran : o = .failure f ⟨s'.memory, .of calls'⟩) (shows : s'.Shows x calls' host)
      (later : s.Later [] s') (ordinary : f.cause.Ordinary) :
      Simulates machine x s calls host o P (.error (.fault f.cause) s'.world)
  | escape {s' : View} {past below : List Call} {c : Call} {v v' : Value}
      (unwinds : calls = past ++ c :: below)
      (ran : o = machine.outcome (State.resume ⟨s'.memory, .of below⟩ v))
      (shows : s'.Shows x below (v :: host)) (later : s.Later below s') (same : s'.Same v v')
      (typed : s'.world.Types x v') :
      Simulates machine x s calls host o P (.error (.escape (s.number c.frame) v') s'.world)

variable {machine : Machine} {x : Setting} {s s' : View} {calls rest : List Call} {c c' : Call}
  {host : List Value} {o : Machine.Outcome} {α β : Type} {P : α → View → Prop}
  {Q : β → View → Prop} {v' : Value} {below vs' : List Value} {i : Instruction} {next : Nat}
  {here : Place} {p : Standing} {call : Callee → Eval Value}

/-- Evaluation in two parts. -/
theorem Simulates.bind {f : Eval α} {g : α → Eval β} {w : World}
    (first : Simulates machine x s calls host o P (f w))
    (later : ∀ a s', P a s' → Simulates machine x s calls host o Q (g a s'.world)) :
    Simulates machine x s calls host o Q ((f >>= g) w) := by
  change Simulates machine x s calls host o Q (EStateM.bind f g w)
  unfold EStateM.bind
  cases hf : f w with
  | ok a w' =>
    rw [hf] at first
    cases first with
    | ok h => exact later _ _ h
  | error e w' =>
    rw [hf] at first
    cases first with
    | fault ran shows later ordinary => exact .fault ran shows later ordinary
    | escape unwinds ran shows later same typed =>
      exact .escape unwinds ran shows later same typed

/-- What comes of a later view. -/
theorem Simulates.since {P' : α → View → Prop} {r : EStateM.Result Stop World α}
    (h : Simulates machine x s' calls host o P r) (later : s.Later calls s')
    (himp : ∀ a s'', P a s'' → P' a s'') : Simulates machine x s calls host o P' r := by
  cases h with
  | ok h => exact .ok (himp _ _ h)
  | fault ran shows later' ordinary =>
    exact .fault ran shows ((later.mono (by simp)).trans later' fun _ => id) ordinary
  | @escape s'' past below target v v' unwinds ran shows later' same typed =>
    subst unwinds
    rw [later.number target.frame (.inl (List.mem_map_of_mem (by simp)))]
    refine .escape rfl ran shows ((later.mono fun f hf => ?_).trans later' fun _ => id) same typed
    rw [List.map_append, List.map_cons]
    exact List.mem_append_right _ (List.mem_cons_of_mem _ hf)

/-- What comes of a later view, in which the innermost call has gone on. -/
theorem Simulates.before {P' : α → View → Prop} {r : EStateM.Result Stop World α}
    (h : Simulates machine x s' (c' :: rest) host o P r) (frame : c'.frame = c.frame)
    (later : s.Later (c :: rest) s') (himp : ∀ a s'', P a s'' → P' a s'') :
    Simulates machine x s (c :: rest) host o P' r := by
  have earlier := h.since (later.of_calls frame) himp
  clear h later
  cases earlier with
  | ok h => exact .ok h
  | fault ran shows later ordinary => exact .fault ran shows later ordinary
  | @escape s'' past below target v v' unwinds ran shows later same typed =>
    cases past with
    | nil =>
      cases unwinds
      rw [frame]
      exact .escape (show c :: rest = [] ++ c :: rest from rfl) ran shows later same typed
    | cons d past =>
      cases unwinds
      exact .escape (show _ = c :: past ++ target :: below from rfl) ran shows later same typed

/-- What comes after some steps of the innermost call. -/
theorem Simulates.after {P' : α → View → Prop} {r : EStateM.Result Stop World α}
    (go : Goes machine x host rest s c s' c')
    (h : Simulates machine x s' (c' :: rest) host (machine.run ⟨s'.memory, .of (c' :: rest)⟩) P r)
    (himp : ∀ a s'', P a s'' → P' a s'') :
    Simulates machine x s (c :: rest) host (machine.run ⟨s.memory, .of (c :: rest)⟩) P' r := by
  rw [go.ran]
  exact h.before go.frame go.later himp

/-- The innermost call has come to offset `next`, with the given values above `below`. -/
def Reached (machine : Machine) (x : Setting) (host : List Value) (rest : List Call) (s : View)
    (c : Call) (next : Nat) (below vs' : List Value) (s' : View) : Prop :=
  ∃ c', Goes machine x host rest s c s' c' ∧ c'.ip = next ∧ s'.Tops x vs' below c'.stack

theorem Reached.after {s'' : View} (go : Goes machine x host rest s c s' c')
    (h : Reached machine x host rest s' c' next below vs' s'') :
    Reached machine x host rest s c next below vs' s'' := by
  obtain ⟨c'', go', ip, tops⟩ := h
  exact ⟨c'', go.trans go', ip, tops⟩

/-- The calls below have gone on with a value. -/
structure Resumed (machine : Machine) (x : Setting) (host : List Value) (calls : List Call)
    (s : View) (o : Machine.Outcome) (v' : Value) (s' : View) (v : Value) : Prop where
  ran : o = machine.outcome (State.resume ⟨s'.memory, .of calls⟩ v)
  shows : s'.Shows x calls (v :: host)
  later : s.Later calls s'
  same : s'.Same v v'
  typed : s'.world.Types x v'

/-- **What is asked of calls:** with the given activations active, the machine that enters a callee
comes to what `call` says. -/
def Serves (machine : Machine) (x : Setting) (host : List Value) (active : List Nat)
    (call : Callee → Eval Value) : Prop :=
  ∀ (s : View) (calls : List Call) (callee callee' : Callee) (p : Progress),
    s.Shows x calls host → calls.map (fun c => s.number c.frame) = active →
    callee.Match s.Renames s.Rows callee' → (∀ v ∈ callee.values, s.Sound v) →
    s.world.Calls x callee' →
    (p = machine.enter ⟨s.memory, .of calls⟩ callee
      ∨ p = machine.logCalls (machine.enter ⟨s.memory, .of calls⟩ callee)) →
    Simulates machine x s calls host (machine.outcome p)
      (fun v' s' => ∃ v, Resumed machine x host calls s (machine.outcome p) v' s' v)
      (call callee' s.world)

/-! ## Sends -/

/-- What calling a method comes to at once, in the memory and in the world of a view. -/
inductive Invoked (x : Setting) (s : View) (calls : List Call) (host : List Value) :
    Reply → Reply → Prop where
  | answer {v v' : Value} {m m' : Memory} (gains : s.Gains x calls host m v m' v') :
      Invoked x s calls host (.answer v m) (.answer v' m')
  | enter {callee callee' : Callee} (matches_ : callee.Match s.Renames s.Rows callee')
      (sound : ∀ v ∈ callee.values, s.Sound v) (can : s.world.Calls x callee') :
      Invoked x s calls host (.enter callee s.memory) (.enter callee' s.world.memory)
  | fault {cause : Cause} (ordinary : cause.Ordinary) :
      Invoked x s calls host (.fault cause s.memory) (.fault cause s.world.memory)

/-- **Calling a method does the same in both.** -/
theorem invoked (h : s.Shows x calls host) {receiver receiver' : Value} {args args' : List Value}
    {code : Code} (hr : s.Same receiver receiver') (ha : List.Forall₂ s.Same args args')
    (soundReceiver : s.Sound receiver) (soundArgs : ∀ v ∈ args, s.Sound v)
    (finds : x.Finds receiver' code) (typedReceiver : s.world.Types x receiver')
    (typedArgs : ∀ v ∈ args', s.world.Types x v) :
    Invoked x s calls host (invoke x.image s.memory receiver code args)
      (invoke x.image s.world.memory receiver' code args') := by
  have reply := invoke_match (i := x.image) h.data hr ha code
  have coherent := h.coherent.invoke soundReceiver soundArgs code
  have accepts := h.typed.invoke finds typedReceiver typedArgs
  generalize invoke x.image s.memory receiver code args = r at reply coherent
  generalize invoke x.image s.world.memory receiver' code args' = r' at reply accepts
  cases reply with
  | @answer v v' m m' beside beside' data same =>
    exact .answer (h.gains beside.frames coherent.coherent data same accepts)
  | enter hc => exact .enter hc coherent.2 accepts.2
  | fault cause => exact .fault accepts.2

/-- The code of an activation is run by the innermost call. -/
structure At (x : Setting) (host : List Value) (rest : List Call) (here : Place) (p : Standing)
    (s : View) (c : Call) : Prop where
  shows : s.Shows x (c :: rest) host
  me : s.number c.frame = here.me
  active : (c :: rest).map (fun d => s.number d.frame) = here.active
  stands : s.world.Stands x here.me p

theorem At.lt (h : At x host rest here p s c) : here.me < s.world.activations.size := by
  obtain ⟨-, -, -, lt, -⟩ := h.shows.call List.mem_cons_self
  exact h.me ▸ lt

theorem At.code (h : At x host rest here p s c) : (s.world.activation here.me).code = c.code := by
  obtain ⟨fr, -, code, -, depicts⟩ := h.shows.call List.mem_cons_self
  rw [← h.me, depicts.code, code]

theorem At.later (h : At x host rest here p s c) (shows : s'.Shows x (c' :: rest) host)
    (frame : c'.frame = c.frame) (later : s.Later (c :: rest) s') :
    At x host rest here p s' c' := by
  have numbered {d : Call} (hd : d ∈ c :: rest) : s'.number d.frame = s.number d.frame :=
    later.number _ (.inl (List.mem_map_of_mem hd))
  refine ⟨shows, ?_, ?_, h.stands.mono h.lt later.world⟩
  · rw [frame, numbered List.mem_cons_self, h.me]
  · rw [← h.active, List.map_cons, List.map_cons, frame, numbered List.mem_cons_self]
    exact congrArg _ (List.map_congr_left fun d hd => numbered (List.mem_cons_of_mem _ hd))

theorem At.goes (h : At x host rest here p s c) (go : Goes machine x host rest s c s' c') :
    At x host rest here p s' c' := h.later go.shows go.frame go.later

/-- An instruction that goes on with a value, beside an evaluation that answers it. -/
theorem simulates_next {w' : World} {r : EStateM.Result Stop World Value} (result : r = .ok v' w')
    (goes : ∃ s' c', Goes machine x host rest s c s' c' ∧ c'.ip = next
      ∧ s'.Tops x [v'] below c'.stack ∧ s'.world = w') :
    Simulates machine x s (c :: rest) host o
      (fun v' => Reached machine x host rest s c next below [v']) r := by
  obtain ⟨s', c', go, ip, tops, rfl⟩ := goes
  rw [result]
  exact .ok ⟨c', go, ip, tops⟩

/-- An instruction that fails, beside an evaluation that stops for the same cause. -/
theorem simulates_fault (hm : machine.image = x.image) (h : s.Shows x (c :: rest) host)
    (decoded : Instruction.decodeAt c.code.block.bytecode c.ip = .ok (some (i, next)))
    {cause : Cause} {r : EStateM.Result Stop World α}
    (result : r = .error (.fault cause) s.world) (ordinary : cause.Ordinary)
    (does : ∀ m₀, View.Shows { s with memory := m₀ } x (c.moved next :: rest) host →
      s.Later (c :: rest) { s with memory := m₀ } →
      ∃ m₁ stack, (c.moved next).execute x.image m₀ i = .fault stack cause m₁
        ∧ m₀.Logs m₁ ∧ ∀ v ∈ stack, v ∈ c.stack) :
    Simulates machine x s (c :: rest) host (machine.run ⟨s.memory, .of (c :: rest)⟩) P r := by
  obtain ⟨m₁, calls, f, ran, rfl, shows, later⟩ := run_fault hm h decoded does
  rw [result]
  exact @Simulates.fault _ _ _ _ _ _ _ _ { s with memory := m₁ } calls f ran shows
    (later.mono (List.forall_mem_nil _)) ordinary

/-- A message to a receiver that has a method for it. -/
theorem send_eq {receiver : Value} {args : List Value} {code : Code} {argc : Nat}
    {find : Value → Checked Code} (selector : String)
    (hstack : c.stack = args.reverse ++ receiver :: below) (length : args.reverse.length = argc)
    (found : find receiver = .ok code) (m : Memory) :
    ∃ m₁, m.Logs m₁ ∧ c.send x.image m argc selector find
      = (invoke x.image m₁ receiver code args).effect below := by
  let line (m : Memory) : String :=
    "send " ++ selector ++ " to " ++ receiver.inspect m.store ++ " -> " ++ code.block.qualified
  refine ⟨m.trace line, .trace m line, ?_⟩
  simp only [Call.send, hstack, List.drop_left' length, List.take_left' length,
    List.reverse_reverse, found]
  cases invoke x.image (m.trace line) receiver code args <;> rfl

/-- **A message that is sent** does what calling its method does to the world. -/
theorem send_invoked (h : s.Shows x (c :: rest) host) {receiver receiver' : Value}
    {args args' : List Value} {code : Code} {find : Value → Checked Code} (selector : String)
    (hstack : c.stack = args.reverse ++ receiver :: below) (hr : s.Same receiver receiver')
    (ha : List.Forall₂ s.Same args args') (found : find receiver = .ok code)
    (finds : x.Finds receiver' code) (typedReceiver : s.world.Types x receiver')
    (typedArgs : ∀ v ∈ args', s.world.Types x v) :
    ∃ m₁ reply, s.memory.Logs m₁
      ∧ c.send x.image s.memory args'.length selector find = reply.effect below
      ∧ View.Shows { s with memory := m₁ } x (c :: rest) host
      ∧ s.Later (c :: rest) { s with memory := m₁ }
      ∧ Invoked x { s with memory := m₁ } (c :: rest) host reply
        (invoke x.image s.world.memory receiver' code args') := by
  have length : args.reverse.length = args'.length := by rw [List.length_reverse, ha.length_eq]
  obtain ⟨m₁, logs, effect⟩ := send_eq selector hstack length found s.memory
  obtain ⟨shows, later⟩ := h.relog logs
  have soundReceiver : s.Sound receiver := h.stack_sound _ (by simp [hstack])
  have soundArgs : ∀ v ∈ args, s.Sound v := fun v hv => h.stack_sound v (by simp [hstack, hv])
  have sound₁ : ∀ v ∈ c.stack, View.Sound { s with memory := m₁ } v := shows.stack_sound
  refine ⟨m₁, _, logs, effect, shows, later, ?_⟩
  exact invoked shows (hr.later later soundReceiver) (same_all_later ha later soundArgs)
    (sound₁ _ (by simp [hstack])) (fun v hv => sound₁ v (by simp [hstack, hv])) finds
    typedReceiver typedArgs

/-- An instruction that enters a callee, beside an evaluation that calls it. -/
theorem simulates_enter (hm : machine.image = x.image)
    (serves : Serves machine x host here.active call)
    (h : At x host rest here p s c)
    (decoded : Instruction.decodeAt c.code.block.bytecode c.ip = .ok (some (i, next)))
    (sub : below ⊆ c.stack) {callee' : Callee} {r : EStateM.Result Stop World Value}
    (result : r = call callee' s.world)
    (does : ∀ m₀, View.Shows { s with memory := m₀ } x (c.moved next :: rest) host →
      s.Later (c :: rest) { s with memory := m₀ } →
      ∃ m₁ callee, (c.moved next).execute x.image m₀ i = .enter below callee m₁
        ∧ View.Shows { s with memory := m₁ } x (c.moved next :: rest) host
        ∧ s.Later (c :: rest) { s with memory := m₁ }
        ∧ callee.Match s.Renames { s with memory := m₁ }.Rows callee'
        ∧ (∀ v ∈ callee.values, View.Sound { s with memory := m₁ } v) ∧ s.world.Calls x callee') :
    Simulates machine x s (c :: rest) host (machine.run ⟨s.memory, .of (c :: rest)⟩)
      (fun v' => Reached machine x host rest s c next below [v']) r := by
  obtain ⟨m₀, noted, stepped⟩ := machine.step_eq s.memory rest decoded
  obtain ⟨shows, later⟩ := h.shows.moved next noted
  obtain ⟨m₁, callee, effect, shows₁, since, matches_, sound, can⟩ := does m₀ shows later
  have shows₂ : View.Shows { s with memory := m₁ } x ({ c.moved next with stack := below } :: rest)
      host :=
    shows₁.restack rfl rfl (fun u hu => shows₁.stack_sound u (sub hu)) shows₁.coherent.host
  have waiting := h.later shows₂ rfl since
  have served := serves _ _ callee callee' _ shows₂ waiting.active matches_ sound can (.inr rfl)
  have ran : machine.run ⟨s.memory, .of (c :: rest)⟩ = machine.outcome (machine.logCalls
      (machine.enter ⟨m₁, .of ({ c.moved next with stack := below } :: rest)⟩ callee)) := by
    rw [machine.run_eq, stepped, hm, effect]
    rfl
  rw [result, ran]
  refine served.before rfl since fun v' s' again => ?_
  obtain ⟨v, resumed⟩ := again
  exact ⟨{ c.moved next with stack := v :: below }, ⟨ran.trans resumed.ran, rfl, rfl,
    resumed.shows.receive (List.Subset.refl _), since.trans resumed.later (by simp [Call.moved])⟩,
    rfl, tops_push resumed.same resumed.typed⟩

/-- What `dispatch` comes to when a method was found. -/
theorem dispatch_ok {code : Code} {receiver : Value} {args : List Value} {w : World} {reply : Reply}
    (h : invoke x.image w.memory receiver code args = reply) :
    dispatch x call (.ok code) receiver args w = conclude call reply w := by
  subst h
  rfl

/-- **A send** looks its method up and calls it, in both. -/
theorem dispatch_simulated (hm : machine.image = x.image)
    (serves : Serves machine x host here.active call) (h : At x host rest here p s c)
    (decoded : Instruction.decodeAt c.code.block.bytecode c.ip = .ok (some (i, next)))
    {receiver' : Value} {args' : List Value} {selector : String} {find : Value → Checked Code}
    {found : Checked Code} (tops : s.Tops x (receiver' :: args') below c.stack)
    (sends : ∀ m, (c.moved next).execute x.image m i
      = (c.moved next).send x.image m args'.length selector find)
    (finds : ∀ v, s.Same v receiver' → find v = found)
    (yields : Primitive.Yields (x.Finds receiver') found) :
    Simulates machine x s (c :: rest) host (machine.run ⟨s.memory, .of (c :: rest)⟩)
      (fun v' => Reached machine x host rest s c next below [v'])
      (dispatch x call found receiver' args' s.world) := by
  obtain ⟨vs, hstack, same, types⟩ := tops
  cases same with
  | @cons receiver _ args _ hr ha =>
  have hstack : c.stack = args.reverse ++ receiver :: below := by simp [hstack]
  have length : args.reverse.length = args'.length := by rw [List.length_reverse, ha.length_eq]
  obtain ⟨typedReceiver, typedArgs⟩ := List.forall_mem_cons.1 types
  have soundReceiver : s.Sound receiver := h.shows.stack_sound _ (by simp [hstack])
  have soundArgs : ∀ v ∈ args, s.Sound v := fun v hv => h.shows.stack_sound v (by simp [hstack, hv])
  have known : find receiver = found := finds receiver hr
  cases found with
  | error cause =>
    refine simulates_fault hm h.shows decoded rfl yields fun m₀ _ _ =>
      ⟨m₀, c.stack, ?_, .refl m₀, fun _ => id⟩
    rw [sends]
    simp only [Call.send, Call.moved, hstack, List.drop_left' length, known]
  | ok code =>
    -- what the call of the method does, in any memory in which the instruction is carried out
    have does (m₀ : Memory)
        (shows : View.Shows { s with memory := m₀ } x (c.moved next :: rest) host)
        (later : s.Later (c :: rest) { s with memory := m₀ }) :=
      send_invoked shows selector (hstack : (c.moved next).stack = _)
        (hr.later later soundReceiver) (same_all_later ha later soundArgs) known yields
        typedReceiver typedArgs
    have sub : below ⊆ c.stack := fun v hv => by simp [hstack, hv]
    cases hreply : invoke x.image s.world.memory receiver' code args' with
    | answer v' m' =>
      refine simulates_next (dispatch_ok hreply)
        (goes_next hm h.shows decoded fun m₀ shows later => ?_)
      obtain ⟨m₁, reply, -, effect, shows₁, later₁, invoked⟩ := does m₀ shows later
      rw [hreply] at invoked
      cases invoked with
      | @answer v _ m _ gains =>
        exact ⟨View.remembering s m m', v :: below, ⟨(sends m₀).trans effect,
          gains.shows.receive sub, later₁.trans gains.later fun _ => id⟩,
          tops_push gains.same gains.typed, rfl⟩
    | enter callee' m' =>
      have accepts := h.shows.typed.invoke yields typedReceiver typedArgs
      rw [hreply] at accepts
      obtain ⟨rfl, -⟩ := accepts
      refine simulates_enter hm serves h decoded sub (dispatch_ok hreply) fun m₀ shows later => ?_
      obtain ⟨m₁, reply, -, effect, shows₁, later₁, invoked⟩ := does m₀ shows later
      rw [hreply] at invoked
      cases invoked with
      | @enter callee _ matches_ sound can =>
        exact ⟨m₁, callee, (sends m₀).trans effect, shows₁,
          later.trans later₁ (by simp [Call.moved]), matches_, sound, can⟩
    | fault cause m' =>
      have accepts := h.shows.typed.invoke yields typedReceiver typedArgs
      rw [hreply] at accepts
      obtain ⟨rfl, ordinary⟩ := accepts
      refine simulates_fault hm h.shows decoded (dispatch_ok hreply) ordinary
        fun m₀ shows later => ?_
      obtain ⟨m₁, reply, logs, effect, shows₁, later₁, invoked⟩ := does m₀ shows later
      rw [hreply] at invoked
      cases invoked with
      | fault => exact ⟨m₁, below, (sends m₀).trans effect, logs, fun v hv => sub hv⟩

/-! ## Names -/

theorem fieldRow_object {w : World} {cls : Class} {row : Ref}
    (h : (w.activation here.me).receiver = .object cls row) : fieldRow x here w = .ok row w := by
  simp only [fieldRow, bind, EStateM.bind, EStateM.get_apply, h]
  rfl

theorem fieldRow_plain {w : World}
    (h : ∀ cls row, (w.activation here.me).receiver ≠ .object cls row) :
    fieldRow x here w
      = .error (.fault (.noFields (x.image.className (w.activation here.me).receiver))) w := by
  simp only [fieldRow, bind, EStateM.bind, EStateM.get_apply]
  rfl

/-- **The fields of the receiver** are found in both, or in neither. -/
theorem At.fieldRow (h : At x host rest here p s c) {k : Nat} (lt : k < p.fields) (next : Nat) :
    (∃ row, fieldRow x here s.world = .ok row s.world
        ∧ ∀ m₀, View.Shows { s with memory := m₀ } x (c.moved next :: rest) host →
          m₀.fieldRow x.image c.frame k = .ok row ∧ row < m₀.store.rows.size)
      ∨ ∃ cause, cause.Ordinary ∧ fieldRow x here s.world = .error (.fault cause) s.world
        ∧ ∀ m₀, View.Shows { s with memory := m₀ } x (c.moved next :: rest) host →
          m₀.fieldRow x.image c.frame k = .error cause := by
  have stands := h.me ▸ h.stands
  rcases h.shows.fieldRow stands lt with ⟨cls, row, object, -⟩ | ⟨plain, -⟩
  · refine .inl ⟨row, fieldRow_object (h.me ▸ object), fun m₀ shows => ?_⟩
    rcases shows.fieldRow stands lt with ⟨cls', row', object', found⟩ | ⟨plain, -⟩
    · cases object'.symm.trans object
      exact found
    · exact absurd object (plain cls row)
  · refine .inr ⟨.noFields (x.image.className (s.world.activation here.me).receiver), trivial,
      fieldRow_plain (h.me ▸ plain), fun m₀ shows => ?_⟩
    rcases shows.fieldRow stands lt with ⟨cls', row', object', -⟩ | ⟨-, missing⟩
    · exact absurd object' (plain cls' row')
    · exact h.me ▸ missing

/-- A variable that can be seen has a place of its own. -/
theorem slot_visible {owner : ScopeId} {k : UInt16}
    (h : (Symbol.slot owner k).Visible (p.site x) p.chain) :
    owner ∈ p.chain ∧ k.toNat < x.varCount owner := by
  obtain ⟨around, scope, here, lt⟩ := h
  refine ⟨around, ?_⟩
  have here : x.tree.get? owner = some scope := here
  rw [Setting.varCount, here]
  exact lt

/-- **The value of a name.** -/
theorem load_simulated (hm : machine.image = x.image) (sound : x.Sound)
    (h : At x host rest here p s c) {name : Ident}
    (compiled : LoadCode x.tree p.source.scope c.code.block.literals name i)
    (visible : name.Visible (p.site x) p.chain)
    (decoded : Instruction.decodeAt c.code.block.bytecode c.ip = .ok (some (i, next))) :
    Simulates machine x s (c :: rest) host (machine.run ⟨s.memory, .of (c :: rest)⟩)
      (fun v' => Reached machine x host rest s c next c.stack [v'])
      (load x here name s.world) := by
  obtain ⟨symbol, hsymbol, seen⟩ := visible
  have stands := h.me ▸ h.stands
  cases compiled with
  | @field k symbol' =>
    cases hsymbol.symm.trans symbol'
    have seen : k.toNat < p.fields := seen
    have reads : load x here name s.world
        = (Direct.fieldRow x here >>= fun row => do
            return ((← get).memory.store.row row).getD k.toNat .nil) s.world := by
      rw [load, hsymbol]
    rcases h.fieldRow seen next with ⟨row, known, found⟩ | ⟨cause, ordinary, known, missing⟩
    · have result : load x here name s.world
          = .ok ((s.world.memory.store.row row).getD k.toNat .nil) s.world := by
        rw [reads]
        simp only [bind, EStateM.bind, known]
        rfl
      refine simulates_next result (goes_next hm h.shows decoded fun m₀ shows _ => ?_)
      obtain ⟨found, hrow⟩ := found m₀ shows
      exact nexts_field shows found hrow
    · have result : load x here name s.world = .error (.fault cause) s.world := by
        rw [reads]
        simp only [bind, EStateM.bind, known]
      refine simulates_fault hm h.shows decoded result ordinary fun m₀ shows _ =>
        ⟨m₀, c.stack, ?_, .refl m₀, fun _ => id⟩
      simp only [Call.execute, Call.moved, Memory.loadField, missing m₀ shows, bind, Except.bind]
      rfl
  | @slot owner k depth symbol' hops =>
    cases hsymbol.symm.trans symbol'
    obtain ⟨around, slot⟩ := slot_visible seen
    have result : load x here name s.world = .ok ((s.world.activation
        (s.world.holder (s.number c.frame) owner)).vars.getD k.toNat .nil) s.world := by
      simp only [load, hsymbol, h.me]
      rfl
    exact simulates_next result (goes_next hm h.shows decoded fun m₀ shows _ =>
      nexts_variable shows stands around hops slot)
  | @global l symbol' literal =>
    have global : load x here name s.world = global x name.name s.world := by
      rcases symbol' with symbol' | symbol' <;> simp only [load, symbol']
    rw [global]
    cases found : x.image.lookup name.name with
    | some v =>
      refine simulates_next ?_ (goes_next hm h.shows decoded fun m₀ shows _ =>
        nexts_global shows sound literal found)
      simp only [Direct.global, found]
      rfl
    | none =>
      have result : Direct.global x name.name s.world
          = .error (.fault (.undefinedGlobal name.name)) s.world := by
        simp only [Direct.global, found]
        rfl
      refine simulates_fault hm h.shows decoded result trivial fun m₀ _ _ =>
        ⟨m₀, c.stack, ?_, .refl m₀, fun _ => id⟩
      · simp only [Call.execute, Call.global, Call.literal, Block.literal?, Call.moved, literal,
          bind, Except.bind, found]
        rfl

/-- **A name gets another value**, which stays on the stack. -/
theorem store_simulated (hm : machine.image = x.image) (h : At x host rest here p s c)
    {name : Ident} (compiled : StoreCode x.tree p.source.scope name i)
    (visible : name.Visible (p.site x) p.chain)
    (decoded : Instruction.decodeAt c.code.block.bytecode c.ip = .ok (some (i, next)))
    (top : s.Tops x [v'] below c.stack) :
    Simulates machine x s (c :: rest) host (machine.run ⟨s.memory, .of (c :: rest)⟩)
      (fun v' => Reached machine x host rest s c next below [v'])
      ((store x here name v' >>= fun _ => pure v') s.world) := by
  obtain ⟨symbol, hsymbol, seen⟩ := visible
  have stands := h.me ▸ h.stands
  have topAt {m₀ : Memory} (later : s.Later (c :: rest) { s with memory := m₀ }) :
      View.Tops { s with memory := m₀ } x [v'] below (c.moved next).stack :=
    top.later later h.shows.typed h.shows.stack_sound
  cases compiled with
  | @field k symbol' =>
    cases hsymbol.symm.trans symbol'
    have seen : k.toNat < p.fields := seen
    rcases h.fieldRow seen next with ⟨row, known, found⟩ | ⟨cause, ordinary, known, missing⟩
    · have result : (store x here name v' >>= fun _ => pure v') s.world
          = .ok v' (s.world.setField row k.toNat v') := by
        simp only [store, hsymbol, bind, EStateM.bind, known]
        rfl
      exact simulates_next result (goes_next hm h.shows decoded fun m₀ shows later =>
        nexts_setField shows (found m₀ shows).1 (topAt later))
    · have result : (store x here name v' >>= fun _ => pure v') s.world
          = .error (.fault cause) s.world := by
        simp only [store, hsymbol, bind, EStateM.bind, known]
      refine simulates_fault hm h.shows decoded result ordinary fun m₀ shows later =>
        ⟨m₀, c.stack, ?_, .refl m₀, fun _ => id⟩
      obtain ⟨v, hstack, -⟩ := tops_singleton top
      simp only [Call.execute, Call.storeField, Call.moved, hstack, missing m₀ shows]
  | @slot owner k depth symbol' hops =>
    cases hsymbol.symm.trans symbol'
    obtain ⟨around, slot⟩ := slot_visible seen
    have result : (store x here name v' >>= fun _ => pure v') s.world
        = .ok v' (s.world.setVar (s.world.holder (s.number c.frame) owner) k.toNat v') := by
      simp only [store, hsymbol, h.me]
      rfl
    exact simulates_next result (goes_next hm h.shows decoded fun m₀ shows later =>
      nexts_assign shows stands around hops slot (topAt later))

end Direct

end Colloquy
