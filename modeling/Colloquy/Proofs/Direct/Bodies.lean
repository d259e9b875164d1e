import Colloquy.Proofs.Direct.Simulation

/-!
# Bodies and calls

A return takes calls off the stack up to that of its method, and cannot be made when that one is
over (`Direct.giveBack_simulated`).  The code of expressions and statements follows their structure
(`Direct.expr_simulated`, `Direct.stats_simulated`), a body ends as its kind says
(`Direct.body_simulated`), and calls follow by induction on the room that is left on the call stack
(`Direct.enter_simulated`).
-/

namespace Colloquy

namespace Direct

open Instruction (Reads)
open View

variable {machine : Machine} {x : Setting} {s s' : View} {calls rest : List Call} {c c' : Call}
  {host : List Value} {o : Machine.Outcome} {α : Type} {P : α → View → Prop}
  {v v' : Value} {below vs' : List Value} {i : Instruction} {next : Nat}
  {here : Place} {p : Standing} {call : Callee → Eval Value}

/-! ## Returns -/

/-- **A return** ends every call up to that of the method, or fails if that call is over. -/
theorem escape_simulated {P : Value → View → Prop} (hm : machine.image = x.image)
    (h : At x host rest here p s c) (same : s.Same v v') (sound : s.Sound v)
    (typed : s.world.Types x v') :
    Simulates machine x s (c :: rest) host
      (machine.outcome (machine.escape ⟨s.memory, .of (c :: rest)⟩ c v)) P
      (giveBack x here v' s.world) := by
  obtain ⟨fr, present, code, lt, depicts⟩ := h.shows.call List.mem_cons_self
  obtain ⟨home, hhome⟩ := h.shows.home present
  have number : (s.world.activation here.me).home = s.number fr.home := by
    rw [← h.me, depicts.home]
  by_cases active : s.number fr.home ∈ here.active
  · have result : giveBack x here v' s.world = .error (.escape (s.number fr.home) v') s.world := by
      simp only [giveBack, bind, EStateM.bind, EStateM.get_apply, number,
        if_pos active]
      rfl
    rw [← h.active] at active
    obtain ⟨d, hd, hn⟩ := List.mem_map.1 active
    obtain ⟨frd, hfrd, -⟩ := h.shows.call hd
    have frame : d.frame = fr.home :=
      h.shows.distinct _ _ (contains_of_get? hfrd) (contains_of_get? hhome) hn
    have returned : home.returned = false :=
      (h.shows.coherent.arena.running d hd).returned home (frame ▸ hhome)
    obtain ⟨past, e, below, split, he, upTo⟩ := CallStack.upTo?_of_mem hd
    rw [result, ← frame, ← he]
    rw [split, frame] at upTo
    rw [split, Machine.escape_eq_resume present hhome returned upTo]
    have calls : past ++ e :: below = (past ++ [e]) ++ below := by simp
    have held : s.Shows x ((past ++ [e]) ++ below) (v :: host) := by
      rw [← calls, ← split]
      exact h.shows.hold (List.forall_mem_cons.2 ⟨sound, h.shows.coherent.host⟩)
    obtain ⟨shows, later⟩ := held.recede held.coherent.recedes_leaveReturning
      held.coherent.leaveReturning
    have later : s.Later below { s with memory := s.memory.leaveReturning (past ++ [e]) } :=
      later.mono fun f hf => by rw [List.map_append]; exact List.mem_append_right _ hf
    exact @Simulates.escape _ _ _ _ _ _ _ _
      { s with memory := s.memory.leaveReturning (past ++ [e]) }
      past below e v v' rfl rfl shows later (same.later later sound) typed
  · have result : giveBack x here v' s.world
        = .error (.fault (s.world.cannotReturn x here.me)) s.world := by
      simp only [giveBack, bind, EStateM.bind, EStateM.get_apply, number,
        if_neg active]
      rfl
    have missing : ∀ d ∈ c :: rest, d.frame ≠ fr.home := fun d hd he =>
      active (h.active ▸ List.mem_map.2 ⟨d, hd, congrArg s.number he⟩)
    have cause : machine.cannotReturn ⟨s.memory, .of (c :: rest)⟩ c fr.home
        = s.world.cannotReturn x here.me := by
      simp only [Machine.cannotReturn, World.cannotReturn, hm, hhome, h.code, number,
        (h.shows.frames _ home hhome).2.code, Option.map_some]
    rw [result, Machine.escape_eq_fail present (CallStack.upTo?_of_not_mem missing), cause]
    exact @Simulates.fault _ _ _ _ _ _ _ _ s (c :: rest) (State.failure _ _) rfl h.shows
      (.refl s _) trivial

/-- The instruction of a return. -/
theorem giveBack_simulated {P : Value → View → Prop} (hm : machine.image = x.image)
    (h : At x host rest here p s c)
    (decoded : Instruction.decodeAt c.code.block.bytecode c.ip = .ok (some (.ret, next)))
    (top : s.Tops x [v'] below c.stack) :
    Simulates machine x s (c :: rest) host (machine.run ⟨s.memory, .of (c :: rest)⟩) P
      (giveBack x here v' s.world) := by
  obtain ⟨v, hstack, same, typed⟩ := tops_singleton top
  obtain ⟨m₀, noted, stepped⟩ := machine.step_eq s.memory rest decoded
  obtain ⟨shows, later⟩ := h.shows.moved next noted
  have sound : View.Sound { s with memory := m₀ } v :=
    shows.stack_sound v (by simp [Call.moved, hstack])
  have shows₁ : View.Shows { s with memory := m₀ } x ({ c.moved next with stack := below } :: rest)
      host := by
    refine shows.restack rfl rfl (fun u hu => shows.stack_sound u ?_) shows.coherent.host
    simp [Call.moved, hstack, hu]
  have ran : machine.run ⟨s.memory, .of (c :: rest)⟩ = machine.outcome (machine.escape
      ⟨m₀, .of ({ c.moved next with stack := below } :: rest)⟩ { c.moved next with stack := below }
      v) := by
    have effect : (c.moved next).execute x.image m₀ .ret = .escape below v m₀ := by
      simp only [Call.execute, Call.moved, hstack]
    rw [machine.run_eq, stepped, hm, effect]
    rfl
  rw [ran]
  exact (escape_simulated hm (h.later shows₁ rfl later)
    (same.later later (h.shows.stack_sound v (by simp [hstack]))) sound typed).before rfl later
    fun _ _ => id

/-! ## Expressions -/

/-- Values above others. -/
theorem Reached.append {us' : List Value} {s'' : View} (go : Goes machine x host rest s c s' c')
    (tops : s'.Tops x us' below c'.stack)
    (h : Reached machine x host rest s' c' next c'.stack vs' s'') :
    Reached machine x host rest s c next below (us' ++ vs') s'' := by
  obtain ⟨c'', go', ip, tops'⟩ := h
  exact ⟨c'', go.trans go', ip,
    (tops.later go'.later go.shows.typed go.shows.stack_sound).append tops'⟩

/-- One instruction after others. -/
theorem reads_last {bytes : Bytes} {ip : Nat} {is : List Instruction}
    (h : Reads bytes ip (is ++ [i]) next) :
    ∃ k, Reads bytes ip is k ∧ Instruction.decodeAt bytes k = .ok (some (i, next)) := by
  obtain ⟨k, first, last⟩ := h.split
  exact ⟨k, first, last.decoded⟩

theorem toNat_toUInt16 {n : Nat} (h : n < 65536) : n.toUInt16.toNat = n := by
  rw [Nat.toUInt16_eq, UInt16.toNat_ofNat', Nat.mod_eq_of_lt h]

/-- The receiver is pushed. -/
theorem goes_self (hm : machine.image = x.image) (h : At x host rest here p s c)
    (decoded : Instruction.decodeAt c.code.block.bytecode c.ip = .ok (some (.pushSelf, next))) :
    ∃ s' c', Goes machine x host rest s c s' c' ∧ c'.ip = next
      ∧ s'.Tops x [(s.world.activation here.me).receiver] c.stack c'.stack
      ∧ s'.world = s.world := by
  rw [← h.me]
  exact goes_next hm h.shows decoded fun _ shows _ => nexts_self shows

/-- The topmost value is dropped. -/
theorem goes_pop (hm : machine.image = x.image) (h : s.Shows x (c :: rest) host)
    (decoded : Instruction.decodeAt c.code.block.bytecode c.ip = .ok (some (.pop, next)))
    (top : s.Tops x [v'] below c.stack) :
    ∃ s' c', Goes machine x host rest s c s' c' ∧ c'.ip = next ∧ s'.Tops x [] below c'.stack
      ∧ s'.world = s.world :=
  goes_next hm h decoded fun _ shows later =>
    nexts_pop shows (top.later later h.typed h.stack_sound)

/-- A message whose operands are in place. -/
theorem message_simulated (hm : machine.image = x.image)
    (serves : Serves machine x host here.active call) (h : At x host rest here p s c)
    (go : Goes machine x host rest s c s' c') {receiver' : Value} {args' : List Value}
    (tops : s'.Tops x (receiver' :: args') c.stack c'.stack) {ks : List Instruction} {k : Nat}
    (marks : Marks ks) (readsMarks : Reads c.code.block.bytecode c'.ip ks k)
    (decoded : Instruction.decodeAt c.code.block.bytecode k = .ok (some (i, next)))
    (selector : String) {find : Value → Checked Code} {found : Checked Code}
    (sends : ∀ c₁ : Call, c₁.code = c.code → ∀ m,
      c₁.execute x.image m i = c₁.send x.image m args'.length selector find)
    (finds : ∀ (t : View) v, t.Same v receiver' → find v = found)
    (yields : Primitive.Yields (x.Finds receiver') found) :
    Simulates machine x s (c :: rest) host (machine.run ⟨s.memory, .of (c :: rest)⟩)
      (fun v' => Reached machine x host rest s c next c.stack [v'])
      (dispatch x call found receiver' args' s'.world) := by
  obtain ⟨s₁, c₁, go₁, ip₁, tops₁, world⟩ :=
    goes_marks hm go.shows marks (go.code ▸ readsMarks) tops
  have code : c₁.code = c.code := go₁.code.trans go.code
  rw [← world]
  refine (dispatch_simulated hm serves ((h.goes go).goes go₁) (code ▸ ip₁ ▸ decoded) tops₁
    (sends _ code) (finds s₁) yields).after (go.trans go₁) fun _ _ => ?_
  exact Reached.after (go.trans go₁)

mutual

/-- **The code of an expression** pushes its value. -/
theorem expr_simulated (hm : machine.image = x.image) (sound : x.Sound)
    (serves : Serves machine x host here.active call) {s : View} {c : Call} {next : Nat}
    (h : At x host rest here p s c) (e : Expr) {is : List Instruction}
    (compiled : ExprCode x.tree p.method.block.blocks p.source.scope c.code.block.literals e is)
    (resolved : Expr.Scoped (p.site x) p.chain e)
    (reads : Reads c.code.block.bytecode c.ip is next) :
    Simulates machine x s (c :: rest) host (machine.run ⟨s.memory, .of (c :: rest)⟩)
      (fun v' => Reached machine x host rest s c next c.stack [v'])
      (expr x call here e s.world) := by
  have stands := h.me ▸ h.stands
  have code : (s.world.activation here.me).code = c.code := h.code
  cases e with
  | literal value =>
    cases compiled with
    | literal constant =>
      have decoded := reads.decoded
      have nodup : c.code.block.literals.toList.Nodup := code ▸ h.stands.runs.compiled.fits.distinct
      have result : expr x call here (.literal value) s.world
          = .ok (Direct.constant c.code value) s.world := code ▸ rfl
      exact simulates_next result (goes_next hm h.shows decoded fun m₀ shows _ =>
        nexts_constant shows constant nodup)
  | self =>
    cases compiled
    exact simulates_next rfl (goes_self hm h reads.decoded)
  | ident name =>
    cases compiled with
    | ident load =>
      cases resolved with
      | ident visible =>
        rw [expr]
        exact load_simulated hm sound h load visible reads.decoded
  | array items =>
    cases compiled with
    | array each short =>
      cases resolved with
      | array resolved =>
        obtain ⟨k, readsItems, decoded⟩ := reads_last reads
        refine (exprs_simulated hm sound serves h items each resolved readsItems).bind
          fun vs' s₁ ⟨length, c₁, go, ip, tops⟩ => ?_
        have count : items.length.toUInt16.toNat = vs'.length := by
          rw [toNat_toUInt16 short, length]
        refine Simulates.after go (simulates_next rfl (goes_next hm go.shows
          (go.code ▸ ip ▸ decoded) fun m₀ shows later => ?_)) fun _ _ => Reached.after go
        exact nexts_array shows (tops.later later go.shows.typed go.shows.stack_sound) count
  | block head body =>
    obtain ⟨b, inner, nested, runs⟩ := h.stands.runs.inside compiled resolved
    cases compiled
    have result : expr x call here (.block head body) s.world
        = .ok (s.world.newClosure (s.number c.frame) head.index.toNat).2
          (s.world.newClosure (s.number c.frame) head.index.toNat).1 := h.me ▸ rfl
    exact simulates_next result (goes_next hm h.shows reads.decoded fun m₀ shows _ =>
      nexts_block shows stands nested runs)
  | send receiver selector args position =>
    cases compiled with
    | send first each marks short literal =>
      cases resolved with
      | send resolvedFirst resolvedEach =>
        obtain ⟨k, readsFirst, reads⟩ := reads.split
        obtain ⟨k', readsArgs, reads⟩ := reads.split
        obtain ⟨k'', readsMarks, decoded⟩ := reads_last reads
        refine (expr_simulated hm sound serves h receiver first resolvedFirst readsFirst).bind
          fun r' s₁ ⟨c₁, go₁, ip₁, top₁⟩ => ?_
        refine Simulates.bind ((exprs_simulated hm sound serves (h.goes go₁) args (go₁.code ▸ each)
          resolvedEach (go₁.code ▸ ip₁ ▸ readsArgs)).after go₁ fun _ _ => id)
          fun args' s₂ ⟨length, reached⟩ => ?_
        obtain ⟨c₂, go₂, ip₂, tops₂⟩ := Reached.append go₁ top₁ reached
        have typed : s₂.world.Types x r' := by
          obtain ⟨-, -, -, types⟩ := tops₂
          exact types r' List.mem_cons_self
        have count : args.length.toUInt16.toNat = args'.length := by
          rw [toNat_toUInt16 short, length]
        refine message_simulated hm serves h go₂ tops₂ marks (ip₂ ▸ readsMarks) decoded
          selector (fun c₁ hcode m => ?_) (fun t v same => (Image.method_match same selector).symm)
          (sound.method typed selector)
        simp only [Call.execute, Call.literal, Block.literal?, hcode, literal, count]
        rfl
  | superSend selector args position =>
    cases compiled with
    | superSend each marks short literal =>
      cases resolved with
      | superSend resolvedEach =>
        obtain ⟨k, pushed, reads⟩ := reads.uncons
        obtain ⟨k', readsArgs, reads⟩ := reads.split
        obtain ⟨k'', readsMarks, decoded⟩ := reads_last reads
        obtain ⟨s₁, c₁, go₁, ip₁, top₁, world₁⟩ := goes_self hm h pushed
        have result : expr x call here (.superSend selector args position) s.world
            = (exprs x call here args >>= fun args => dispatch x call
                (x.image.superMethod c.code (s.world.activation here.me).receiver selector)
                (s.world.activation here.me).receiver args) s₁.world := by
          rw [expr, world₁, ← code]
          rfl
        rw [result]
        refine Simulates.bind ((exprs_simulated hm sound serves (h.goes go₁) args (go₁.code ▸ each)
          resolvedEach (go₁.code ▸ ip₁ ▸ readsArgs)).after go₁ fun _ _ => id)
          fun args' s₂ ⟨length, reached⟩ => ?_
        obtain ⟨c₂, go₂, ip₂, tops₂⟩ := Reached.append go₁ top₁ reached
        have count : args.length.toUInt16.toNat = args'.length := by
          rw [toNat_toUInt16 short, length]
        refine message_simulated hm serves h go₂ tops₂ marks (ip₂ ▸ readsMarks) decoded
          selector (fun c₁ hcode m => ?_)
          (fun t v same => (Image.superMethod_match same c.code selector).symm)
          (code ▸ sound.superMethod h.stands selector)
        simp only [Call.execute, Call.literal, Block.literal?, hcode, literal, count]
        rfl

/-- **The code of expressions** pushes their values, the last one on top. -/
theorem exprs_simulated (hm : machine.image = x.image) (sound : x.Sound)
    (serves : Serves machine x host here.active call) {s : View} {c : Call} {next : Nat}
    (h : At x host rest here p s c) (es : List Expr) {is : List Instruction}
    (compiled : ExprsCode x.tree p.method.block.blocks p.source.scope c.code.block.literals es is)
    (resolved : ∀ e ∈ es, Expr.Scoped (p.site x) p.chain e)
    (reads : Reads c.code.block.bytecode c.ip is next) :
    Simulates machine x s (c :: rest) host (machine.run ⟨s.memory, .of (c :: rest)⟩)
      (fun vs' s' => vs'.length = es.length ∧ Reached machine x host rest s c next c.stack vs' s')
      (exprs x call here es s.world) := by
  cases es with
  | nil =>
    cases compiled
    cases reads
    exact .ok ⟨rfl, c, .refl h.shows, rfl, Tops.nil⟩
  | cons e es =>
    cases compiled with
    | cons first later =>
      obtain ⟨k, readsFirst, readsLater⟩ := reads.split
      refine (expr_simulated hm sound serves h e first (resolved e List.mem_cons_self)
        readsFirst).bind fun v' s₁ ⟨c₁, go, ip, tops⟩ => ?_
      have rest := exprs_simulated hm sound serves (h.goes go) es (go.code ▸ later)
        (fun e' he => resolved e' (List.mem_cons_of_mem _ he)) (go.code ▸ ip ▸ readsLater)
      refine (rest.after go fun _ _ => id).bind fun vs' s₂ ⟨length, reached⟩ => ?_
      exact .ok ⟨congrArg (· + 1) length, .append go tops reached⟩

end

/-! ## Statements -/

/-- **The code of a statement** pushes its value. -/
theorem stat_simulated (hm : machine.image = x.image) (sound : x.Sound)
    (serves : Serves machine x host here.active call) (h : At x host rest here p s c) (st : Stat)
    {is : List Instruction}
    (compiled : StatCode x.tree p.method.block.blocks p.source.scope c.code.block.literals st is)
    (resolved : Stat.Scoped (p.site x) p.chain st)
    (reads : Reads c.code.block.bytecode c.ip is next) :
    Simulates machine x s (c :: rest) host (machine.run ⟨s.memory, .of (c :: rest)⟩)
      (fun v' => Reached machine x host rest s c next c.stack [v'])
      (stat x call here st s.world) := by
  cases compiled with
  | expr first =>
    cases resolved with
    | expr resolved =>
      rw [stat]
      exact expr_simulated hm sound serves h _ first resolved reads
  | @assign scope lits target value position is ks i marks first store =>
    cases resolved with
    | assign resolved visible =>
      obtain ⟨k, readsMarks, reads⟩ := reads.split
      obtain ⟨k', readsValue, decoded⟩ := reads_last reads
      obtain ⟨s₁, c₁, go₁, ip₁, tops₁, world₁⟩ := goes_marks hm h.shows marks readsMarks Tops.nil
      have stack : c₁.stack = c.stack := tops_nil tops₁
      rw [stat, ← world₁, ← stack]
      refine Simulates.after go₁ ?_ fun _ _ => Reached.after go₁
      refine (expr_simulated hm sound serves (h.goes go₁) value (go₁.code ▸ first) resolved
        (go₁.code ▸ ip₁ ▸ readsValue)).bind fun v' s₂ ⟨c₂, go₂, ip₂, top₂⟩ => ?_
      have code : c₂.code = c.code := go₂.code.trans go₁.code
      exact (store_simulated hm ((h.goes go₁).goes go₂) store visible (code ▸ ip₂ ▸ decoded)
        top₂).after go₂ fun _ _ => Reached.after go₂
  | @ret scope lits value position is ks first marks =>
    cases resolved with
    | ret resolved =>
      obtain ⟨k, readsValue, reads⟩ := reads.split
      obtain ⟨k', readsMarks, decoded⟩ := reads_last reads
      rw [stat]
      refine (expr_simulated hm sound serves h value first resolved readsValue).bind
        fun v' s₁ ⟨c₁, go₁, ip₁, top₁⟩ => ?_
      obtain ⟨s₂, c₂, go₂, ip₂, top₂, world₂⟩ := goes_marks hm go₁.shows marks
        (go₁.code ▸ ip₁ ▸ readsMarks) top₁
      have code : c₂.code = c.code := go₂.code.trans go₁.code
      rw [← world₂]
      exact (giveBack_simulated hm ((h.goes go₁).goes go₂) (code ▸ ip₂ ▸ decoded) top₂).after
        (go₁.trans go₂) fun _ _ => id

/-- **The code of statements** leaves the value of the last one. -/
theorem stats_simulated (hm : machine.image = x.image) (sound : x.Sound)
    (serves : Serves machine x host here.active call) (h : At x host rest here p s c)
    {ss : List Stat} {is : List Instruction}
    (compiled : StatsCode x.tree p.method.block.blocks p.source.scope c.code.block.literals ss is)
    (resolved : ∀ st ∈ ss, Stat.Scoped (p.site x) p.chain st)
    (reads : Reads c.code.block.bytecode c.ip is next) (last : Option Value)
    (empty : ss = [] → last = none) :
    Simulates machine x s (c :: rest) host (machine.run ⟨s.memory, .of (c :: rest)⟩)
      (fun last' s' => (ss = [] ↔ last' = none)
        ∧ Reached machine x host rest s c next c.stack last'.toList s')
      (stats x call here ss last s.world) := by
  induction ss generalizing s c is last with
  | nil =>
    cases compiled
    cases reads
    rw [empty rfl, stats]
    exact .ok ⟨by simp, c, .refl h.shows, rfl, Tops.nil⟩
  | cons st ss ih =>
    have resolvedFirst := resolved st List.mem_cons_self
    rw [stats]
    cases compiled with
    | last first =>
      refine (stat_simulated hm sound serves h st first resolvedFirst reads).bind
        fun v' s₁ reached => ?_
      exact .ok ⟨by simp, reached⟩
    | cons first later =>
      obtain ⟨k, readsFirst, reads⟩ := reads.split
      obtain ⟨k', popped, reads⟩ := reads.uncons
      refine (stat_simulated hm sound serves h st first resolvedFirst readsFirst).bind
        fun v' s₁ ⟨c₁, go₁, ip₁, top₁⟩ => ?_
      obtain ⟨s₂, c₂, go₂, ip₂, tops₂, world₂⟩ := goes_pop hm go₁.shows
        (go₁.code ▸ ip₁ ▸ popped) top₁
      have go := go₁.trans go₂
      rw [← world₂, ← tops_nil tops₂]
      exact (ih (h.goes go) (go.code ▸ later)
        (fun st' hst => resolved st' (List.mem_cons_of_mem _ hst))
        (go.code ▸ ip₂ ▸ reads) (some v') nofun).after go
        fun last' s' ⟨known, reached⟩ => ⟨by simpa using known, reached.after go⟩

/-! ## Bodies -/

/-- The calls below have gone on with a value, and the world is the given one. -/
def Ended (machine : Machine) (x : Setting) (host : List Value) (calls : List Call) (s : View)
    (o : Machine.Outcome) (v' : Value) (w : World) : Prop :=
  ∃ s' v, s'.world = w ∧ Resumed machine x host calls s o v' s' v

theorem Ended.after {w : World} (go : Goes machine x host rest s c s' c')
    (h : Ended machine x host rest s' (machine.run ⟨s'.memory, .of (c' :: rest)⟩) v' w) :
    Ended machine x host rest s (machine.run ⟨s.memory, .of (c :: rest)⟩) v' w := by
  obtain ⟨s'', v, world, resumed⟩ := h
  have later : s.Later rest s' := go.later.mono fun f hf => List.mem_cons_of_mem _ hf
  exact ⟨s'', v, world, { resumed with
    ran := go.ran.trans resumed.ran, later := later.trans resumed.later fun _ => id }⟩

/-- Calls in progress have numbers of their own. -/
theorem number_ne (h : s.Shows x (c :: rest) host) {d : Call} (hd : d ∈ rest) :
    s.number d.frame ≠ s.number c.frame := by
  intro he
  obtain ⟨fr, here, -⟩ := h.call List.mem_cons_self
  obtain ⟨fr', here', -⟩ := h.call (List.mem_cons_of_mem c hd)
  have frame := h.distinct _ _ (contains_of_get? here') (contains_of_get? here) he
  have distinct := h.coherent.arena.distinct
  rw [List.map_cons, List.nodup_cons, ← frame] at distinct
  exact distinct.1 (List.mem_map_of_mem hd)

/-- A return to the innermost call ends it. -/
theorem ended_of_escape {w : World} {r : EStateM.Result Stop World α}
    (shows : s.Shows x (c :: rest) host) (h : Simulates machine x s (c :: rest) host o P r)
    (hr : r = .error (.escape (s.number c.frame) v') w) :
    Ended machine x host rest s o v' w := by
  cases h with
  | ok h => cases hr
  | fault ran shows later ordinary => cases hr
  | @escape s' past below target v v' unwinds ran shows' later same typed =>
    simp only [EStateM.Result.error.injEq, Stop.escape.injEq] at hr
    obtain ⟨⟨number, rfl⟩, rfl⟩ := hr
    cases past with
    | nil =>
      cases unwinds
      exact ⟨s', v, rfl, ran, shows', later, same, typed⟩
    | cons d past =>
      cases unwinds
      exact absurd number (number_ne shows (by simp))

/-- **A call ends a return to itself**, and passes others on. -/
theorem Simulates.caught {body : Eval Value} (shows : s.Shows x (c :: rest) host)
    (h : Simulates machine x s (c :: rest) host o
      (fun v' s' => ∃ v, Resumed machine x host rest s o v' s' v) (body s.world)) :
    Simulates machine x s rest host o (fun v' s' => ∃ v, Resumed machine x host rest s o v' s' v)
      (catching (s.number c.frame) body s.world) := by
  unfold catching
  cases hr : body s.world with
  | ok v' w' =>
    rw [hr] at h
    cases h with
    | ok h => exact .ok h
  | error stop w' =>
    cases stop with
    | fault cause =>
      rw [hr] at h
      cases h with
      | fault ran shows later ordinary => exact .fault ran shows later ordinary
    | escape home v' =>
      dsimp only
      split
      · rename_i own
        subst own
        obtain ⟨s', v, rfl, resumed⟩ := ended_of_escape shows h hr
        exact .ok ⟨v, resumed⟩
      · rename_i other
        rw [hr] at h
        cases h with
        | @escape s' past below target v _ unwinds ran shows' later same typed =>
          cases past with
          | nil =>
            cases unwinds
            exact absurd rfl other
          | cons d past =>
            cases unwinds
            exact .escape rfl ran shows' later same typed

/-- A return from the method itself ends its call. -/
theorem ended_of_ret (hm : machine.image = x.image) (h : At x host rest here p s c)
    (own : (s.world.activation here.me).home = here.me)
    (decoded : Instruction.decodeAt c.code.block.bytecode c.ip = .ok (some (.ret, next)))
    (top : s.Tops x [v'] below c.stack) :
    Ended machine x host rest s (machine.run ⟨s.memory, .of (c :: rest)⟩) v' s.world := by
  have active : here.me ∈ here.active := by
    rw [← h.active, ← h.me]
    exact List.mem_cons_self
  refine ended_of_escape h.shows (giveBack_simulated (P := fun _ _ => False) hm h decoded top) ?_
  simp only [giveBack, bind, EStateM.bind, EStateM.get_apply, own,
    if_pos active, h.me]
  rfl

/-- The end of a block ends its call. -/
theorem ended_of_blockReturn (hm : machine.image = x.image) (h : s.Shows x (c :: rest) host)
    (decoded : Instruction.decodeAt c.code.block.bytecode c.ip = .ok (some (.blockReturn, next)))
    (top : s.Tops x [v'] below c.stack) :
    Ended machine x host rest s (machine.run ⟨s.memory, .of (c :: rest)⟩) v' s.world := by
  obtain ⟨v, hstack, same, typed⟩ := tops_singleton top
  obtain ⟨m₀, noted, stepped⟩ := machine.step_eq s.memory rest decoded
  obtain ⟨shows, later⟩ := h.moved next noted
  have ran : machine.run ⟨s.memory, .of (c :: rest)⟩ = machine.outcome (State.resume
      ⟨m₀.leave { c.moved next with stack := below }, .of rest⟩ v) := by
    have effect : (c.moved next).execute x.image m₀ .blockReturn = .finish below v m₀ := by
      simp only [Call.execute, Call.moved, hstack]
    rw [machine.run_eq, stepped, hm, effect]
    rfl
  have shows₁ : View.Shows { s with memory := m₀ } x ({ c.moved next with stack := below } :: rest)
      (v :: host) := by
    have sound (u : Value) (hu : u ∈ v :: below) : View.Sound { s with memory := m₀ } u :=
      shows.stack_sound u (by simpa [Call.moved, hstack] using hu)
    refine shows.restack rfl rfl (fun u hu => sound u (List.mem_cons_of_mem _ hu))
      (List.forall_mem_cons.2 ⟨sound v List.mem_cons_self, shows.coherent.host⟩)
  obtain ⟨shows₂, later₂⟩ := shows₁.recede shows₁.coherent.recedes_leave shows₁.coherent.leave
  have since : s.Later rest
      { s with memory := m₀.leave { c.moved next with stack := below } } :=
    (later.trans later₂ (by simp [Call.moved])).mono fun f hf => List.mem_cons_of_mem _ hf
  exact ⟨{ s with memory := m₀.leave { c.moved next with stack := below } }, v, rfl, ran, shows₂,
    since, same.later since (h.stack_sound v (by simp [hstack])), typed⟩

section Endings

variable {ss : List Stat} {last : Option Value} {ks : List Instruction} {stop : Nat}

/-- A method drops the value of its last statement and answers its receiver. -/
theorem method_ended (hm : machine.image = x.image) (h : At x host rest here p s c)
    (own : (s.world.activation here.me).home = here.me) (marks : Marks ks)
    (reads : Reads c.code.block.bytecode c.ip
      (ks ++ ((if ss.isEmpty then [] else [.pop]) ++ [.pushSelf, .ret])) stop)
    (hl : ss = [] ↔ last = none) (tops : s.Tops x last.toList below c.stack) :
    Ended machine x host rest s (machine.run ⟨s.memory, .of (c :: rest)⟩)
      (s.world.activation here.me).receiver s.world := by
  obtain ⟨k, readsMarks, reads⟩ := reads.split
  obtain ⟨k', readsPop, reads⟩ := reads.split
  obtain ⟨k'', pushed, returned⟩ := reads.uncons
  obtain ⟨s₁, c₁, go₁, ip₁, tops₁, world₁⟩ := goes_marks hm h.shows marks readsMarks tops
  have dropped : ∃ s₂ c₂, Goes machine x host rest s₁ c₁ s₂ c₂ ∧ c₂.ip = k'
      ∧ s₂.world = s₁.world := by
    cases last with
    | none =>
      rw [if_pos (List.isEmpty_iff.2 (hl.2 rfl))] at readsPop
      cases readsPop
      exact ⟨s₁, c₁, .refl go₁.shows, ip₁, rfl⟩
    | some v' =>
      rw [if_neg (by simp [hl])] at readsPop
      obtain ⟨s₂, c₂, go₂, ip₂, -, world₂⟩ := goes_pop hm go₁.shows
        (go₁.code ▸ ip₁ ▸ readsPop.decoded) tops₁
      exact ⟨s₂, c₂, go₂, ip₂, world₂⟩
  obtain ⟨s₂, c₂, go₂, ip₂, world₂⟩ := dropped
  have go := go₁.trans go₂
  obtain ⟨s₃, c₃, go₃, ip₃, top₃, world₃⟩ := goes_self hm (h.goes go) (go.code ▸ ip₂ ▸ pushed)
  have go := go.trans go₃
  have world : s₃.world = s.world := world₃.trans (world₂.trans world₁)
  rw [world₂, world₁] at top₃
  have ended := ended_of_ret hm (h.goes go) (world.symm ▸ own)
    (go.code ▸ ip₃ ▸ returned.decoded) top₃
  rw [world] at ended
  exact .after go ended

/-- A body without statements pushes its answer. -/
theorem goes_answer {d : Value} {k : Nat} (h : s.Shows x (c :: rest) host)
    (hl : ss = [] ↔ last = none) (tops : s.Tops x last.toList below c.stack)
    (reads : Reads c.code.block.bytecode c.ip (if ss.isEmpty then [i] else []) k)
    (push : Instruction.decodeAt c.code.block.bytecode c.ip = .ok (some (i, k)) →
      ∃ s' c', Goes machine x host rest s c s' c' ∧ c'.ip = k ∧ s'.Tops x [d] c.stack c'.stack
        ∧ s'.world = s.world) :
    ∃ s' c', Goes machine x host rest s c s' c' ∧ c'.ip = k
      ∧ s'.Tops x [last.getD d] below c'.stack ∧ s'.world = s.world := by
  cases last with
  | none =>
    rw [if_pos (List.isEmpty_iff.2 (hl.2 rfl))] at reads
    rw [← tops_nil tops]
    exact push reads.decoded
  | some v' =>
    rw [if_neg (by simp [hl])] at reads
    cases reads
    exact ⟨s, c, .refl h, rfl, tops, rfl⟩

/-- A block answers the value of its last statement, or `nil`. -/
theorem block_ended (hm : machine.image = x.image) (h : At x host rest here p s c)
    (marks : Marks ks)
    (reads : Reads c.code.block.bytecode c.ip
      ((if ss.isEmpty then [.pushNil] else []) ++ (ks ++ [.blockReturn])) stop)
    (hl : ss = [] ↔ last = none) (tops : s.Tops x last.toList below c.stack) :
    Ended machine x host rest s (machine.run ⟨s.memory, .of (c :: rest)⟩)
      (last.getD .nil) s.world := by
  obtain ⟨k, readsPush, reads⟩ := reads.split
  obtain ⟨k', readsMarks, decoded⟩ := reads_last reads
  obtain ⟨s₁, c₁, go₁, ip₁, top₁, world₁⟩ := goes_answer h.shows hl tops readsPush fun pushed =>
    goes_next hm h.shows pushed fun _ shows _ =>
      nexts_constant shows .nil (h.code ▸ h.stands.runs.compiled.fits.distinct)
  obtain ⟨s₂, c₂, go₂, ip₂, top₂, world₂⟩ := goes_marks hm go₁.shows marks
    (go₁.code ▸ ip₁ ▸ readsMarks) top₁
  have go := go₁.trans go₂
  rw [← world₁, ← world₂]
  exact .after go (ended_of_blockReturn hm go.shows (go.code ▸ ip₂ ▸ decoded) top₂)

/-- A main body answers the value of its last statement, or its receiver. -/
theorem main_ended (hm : machine.image = x.image) (h : At x host rest here p s c)
    (own : (s.world.activation here.me).home = here.me) (marks : Marks ks)
    (reads : Reads c.code.block.bytecode c.ip
      ((if ss.isEmpty then [.pushSelf] else []) ++ (ks ++ [.ret])) stop)
    (hl : ss = [] ↔ last = none) (tops : s.Tops x last.toList below c.stack) :
    Ended machine x host rest s (machine.run ⟨s.memory, .of (c :: rest)⟩)
      (last.getD (s.world.activation here.me).receiver) s.world := by
  obtain ⟨k, readsPush, reads⟩ := reads.split
  obtain ⟨k', readsMarks, decoded⟩ := reads_last reads
  obtain ⟨s₁, c₁, go₁, ip₁, top₁, world₁⟩ := goes_answer h.shows hl tops readsPush
    fun pushed => goes_self hm h pushed
  obtain ⟨s₂, c₂, go₂, ip₂, top₂, world₂⟩ := goes_marks hm go₁.shows marks
    (go₁.code ▸ ip₁ ▸ readsMarks) top₁
  have go := go₁.trans go₂
  have world : s₂.world = s.world := world₂.trans world₁
  have ended := ended_of_ret hm (h.goes go) (world.symm ▸ own) (go.code ▸ ip₂ ▸ decoded) top₂
  rw [world] at ended
  exact .after go ended

end Endings

/-- **The code of a body** ends its call with the answer of the body. -/
theorem body_simulated (hm : machine.image = x.image) (sound : x.Sound)
    (serves : Serves machine x host here.active call) (h : At x host rest here p s c)
    (start : c.ip = 0) :
    Simulates machine x s (c :: rest) host (machine.run ⟨s.memory, .of (c :: rest)⟩)
      (fun v' s' => ∃ v, Resumed machine x host rest s
        (machine.run ⟨s.memory, .of (c :: rest)⟩) v' s' v)
      ((do
        let last ← stats x call here p.source.stats none
        return (← get).answer here.me p.source.ending last) s.world) := by
  have compiled := h.code ▸ h.stands.runs.compiled
  have resolved := h.stands.runs.resolved
  -- the statements, with what the end of the body has to give
  have whole {is tail : List Instruction} {stop : Nat}
      (each : StatsCode x.tree p.method.block.blocks p.source.scope c.code.block.literals
        p.source.stats is)
      (reads : Reads c.code.block.bytecode 0 (is ++ tail) stop)
      (ends : ∀ s₁ c₁ last, At x host rest here p s₁ c₁ →
        Reads c₁.code.block.bytecode c₁.ip tail stop → (p.source.stats = [] ↔ last = none) →
        s₁.Tops x last.toList c.stack c₁.stack →
        Ended machine x host rest s₁ (machine.run ⟨s₁.memory, .of (c₁ :: rest)⟩)
          (s₁.world.answer here.me p.source.ending last) s₁.world) :
      Simulates machine x s (c :: rest) host (machine.run ⟨s.memory, .of (c :: rest)⟩)
        (fun v' s' => ∃ v, Resumed machine x host rest s
          (machine.run ⟨s.memory, .of (c :: rest)⟩) v' s' v)
        ((do
          let last ← stats x call here p.source.stats none
          return (← get).answer here.me p.source.ending last) s.world) := by
    obtain ⟨k, readsEach, readsTail⟩ := reads.split
    refine (stats_simulated hm sound serves h each resolved (start.symm ▸ readsEach) none
      fun _ => rfl).bind fun last s₁ ⟨hl, c₁, go, ip, tops⟩ => ?_
    obtain ⟨s', v, world, resumed⟩ :=
      (ends s₁ c₁ last (h.goes go) (go.code ▸ ip ▸ readsTail) hl tops).after go
    change Simulates machine x s (c :: rest) host _ _
      (.ok (s₁.world.answer here.me p.source.ending last) s₁.world)
    rw [← world]
    exact .ok ⟨v, world ▸ resumed⟩
  obtain ⟨method, body, fields, source, around⟩ := p
  cases compiled with
  | method fits each marks reads =>
    exact whole each reads fun s₁ c₁ last at₁ readsTail hl tops =>
      method_ended hm at₁ (at₁.stands.own nofun) marks readsTail hl tops
  | block fits each marks reads =>
    exact whole each reads fun s₁ c₁ last at₁ readsTail hl tops =>
      block_ended hm at₁ marks readsTail hl tops
  | main fits each marks reads =>
    exact whole each reads fun s₁ c₁ last at₁ readsTail hl tops =>
      main_ended hm at₁ (at₁.stands.own nofun) marks readsTail hl tops

/-! ## Calls -/

/-- A new call, whether or not the calls are logged. -/
theorem entered {callee : Callee} (h : s.Shows x calls host)
    (sound : ∀ v ∈ callee.values, s.Sound v)
    (room : calls.length < machine.maxDepth) {q : Progress}
    (hq : q = machine.enter ⟨s.memory, .of calls⟩ callee
      ∨ q = machine.logCalls (machine.enter ⟨s.memory, .of calls⟩ callee)) :
    ∃ id m', q = .running ⟨m', .of ({ frame := id, code := callee.code } :: calls)⟩
      ∧ s.memory.SameData m'
      ∧ s.memory.frames.Created m'.frames id (callee.frame (CallStack.of calls).current? id) := by
  let here : State := ⟨s.memory, .of calls⟩
  have coherent : here.memory.Coherent x.image (fun _ => True) s.Rows here.calls.calls host :=
    h.coherent
  obtain ⟨id, m', running, data, made⟩ := Machine.enter_created coherent sound room
  rw [CallStack.eq_of (CallStack.push _ _), CallStack.calls_push] at running
  rcases hq with rfl | rfl
  · exact ⟨id, m', running, data, made⟩
  · obtain ⟨m'', logs, logged⟩ := machine.logCalls_running m'
      (.of ({ frame := id, code := callee.code } :: calls))
    refine ⟨id, m'', running ▸ logged, data.trans logs.data, logs.frames.symm ▸ made⟩

/-- **Calls:** with room for `room` more activations, the machine serves calls as the evaluator
does.  By induction on the room. -/
theorem enter_simulated (hm : machine.image = x.image) (sound : x.Sound) (room : Nat) :
    ∀ active : List Nat, machine.maxDepth - active.length = room →
      Serves machine x host active (enter x room active) := by
  induction room with
  | zero =>
    intro active hroom s calls callee callee' q h hactive hc hsound can hq
    have full : ¬ calls.length < machine.maxDepth := by
      rw [← hactive, List.length_map] at hroom
      omega
    have failed : q = State.fail ⟨s.memory, .of calls⟩ .callStackOverflow := by
      have : machine.enter ⟨s.memory, .of calls⟩ callee
          = State.fail ⟨s.memory, .of calls⟩ .callStackOverflow := if_neg full
      rcases hq with rfl | rfl <;> rw [this]
      rfl
    rw [failed]
    exact @Simulates.fault _ _ _ _ _ _ _ _ s calls (State.failure _ _) rfl h
      (.refl s _) trivial
  | succ room ih =>
    intro active hroom s calls callee callee' q h hactive hc hsound can hq
    have length : calls.length = active.length := by rw [← hactive, List.length_map]
    obtain ⟨id, m', rfl, data, made⟩ := entered h hsound (by omega) hq
    obtain ⟨p, runs, shows, later, stands⟩ := h.enter hc hsound can made data
    have result : enter x (room + 1) active callee' s.world
        = catching s.world.activations.size (do
            let last ← stats x (enter x room (s.world.activations.size :: active))
              ⟨s.world.activations.size, s.world.activations.size :: active⟩ p.source.stats none
            return (← get).answer s.world.activations.size p.source.ending last)
          (s.entering x p.source callee' id m').world := by
      rw [enter, runs.known]
      rfl
    have own : (s.entering x p.source callee' id m').number id = s.world.activations.size :=
      if_pos rfl
    have numbers : calls.map (fun d => (s.entering x p.source callee' id m').number d.frame)
        = active := by
      rw [← hactive]
      exact List.map_congr_left fun d hd => later.number _ (.inl (List.mem_map_of_mem hd))
    have at₁ : At x host calls ⟨s.world.activations.size, s.world.activations.size :: active⟩ p
        (s.entering x p.source callee' id m') { frame := id, code := callee.code } :=
      ⟨shows, own, by rw [List.map_cons, own, numbers], stands⟩
    have serves := ih (s.world.activations.size :: active) (by rw [List.length_cons]; omega)
    have caught := Simulates.caught shows (body_simulated hm sound serves at₁ rfl)
    rw [own] at caught
    rw [result]
    exact caught.since later fun v' s' ⟨v, resumed⟩ =>
      ⟨v, { resumed with later := later.trans resumed.later fun _ hf => hf }⟩

end Direct

end Colloquy
