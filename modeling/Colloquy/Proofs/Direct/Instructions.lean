import Colloquy.Proofs.Direct.Views

/-!
# What instructions do in both

A run of the machine is followed step by step: an instruction that goes on leads from one view to
the next one (`Direct.View.Goes`), with the values that it has pushed beside those of the evaluator.
What an instruction pushes, stores or makes is what the evaluator says of the name, constant or
block literal that it was compiled from.
-/

namespace Colloquy

namespace Direct

namespace View

variable {machine : Machine} {s s' s'' : View} {x : Setting} {calls rest : List Call}
  {c c' c'' : Call} {host : List Value} {v v' : Value} {below stack vs' : List Value}
  {i : Instruction} {next : Nat} {m' : Memory}

/-! ## Steps of the machine -/

/-- The operands above `below` are the given values, the last one on top. -/
def Tops (s : View) (x : Setting) (vs' below stack : List Value) : Prop :=
  ∃ vs, stack = vs.reverse ++ below ∧ List.Forall₂ s.Same vs vs' ∧ ∀ v ∈ vs', s.world.Types x v

/-- The machine gets from one view to another one, in which the innermost call has gone on. -/
structure Goes (machine : Machine) (x : Setting) (host : List Value) (rest : List Call)
    (s : View) (c : Call) (s' : View) (c' : Call) : Prop where
  ran : machine.run ⟨s.memory, .of (c :: rest)⟩ = machine.run ⟨s'.memory, .of (c' :: rest)⟩
  frame : c'.frame = c.frame
  code : c'.code = c.code
  shows : s'.Shows x (c' :: rest) host
  later : s.Later (c :: rest) s'

theorem Goes.refl (h : s.Shows x (c :: rest) host) : Goes machine x host rest s c s c :=
  ⟨rfl, rfl, rfl, h, .refl s _⟩

theorem Goes.trans (h : Goes machine x host rest s c s' c')
    (h' : Goes machine x host rest s' c' s'' c'') : Goes machine x host rest s c s'' c'' where
  ran := h.ran.trans h'.ran
  frame := h'.frame.trans h.frame
  code := h'.code.trans h.code
  shows := h'.shows
  later := h.later.trans h'.later (by simp [h.frame])

theorem Tops.nil : s.Tops x [] stack stack := ⟨[], rfl, .nil, List.forall_mem_nil _⟩

theorem tops_push (hv : s.Same v v') (typed : s.world.Types x v') :
    s.Tops x [v'] stack (v :: stack) :=
  ⟨[v], rfl, .cons hv .nil, List.forall_mem_singleton.2 typed⟩

theorem Tops.append {us' st : List Value} (first : s.Tops x us' below st)
    (later : s.Tops x vs' st stack) : s.Tops x (us' ++ vs') below stack := by
  obtain ⟨us, rfl, sameUs, typedUs⟩ := first
  obtain ⟨vs, rfl, sameVs, typedVs⟩ := later
  refine ⟨us ++ vs, by simp, List.rel_append sameUs sameVs, ?_⟩
  exact List.forall_mem_append.2 ⟨typedUs, typedVs⟩

theorem Tops.later (h : s.Tops x vs' below stack) (later : s.Later calls s')
    (typed : s.world.Typed x) (sound : ∀ v ∈ stack, s.Sound v) : s'.Tops x vs' below stack := by
  obtain ⟨vs, rfl, same, types⟩ := h
  refine ⟨vs, rfl, same_all_later same later fun v hv => ?_, fun v hv => ?_⟩
  · exact sound v (List.mem_append_left _ (List.mem_reverse.2 hv))
  · exact (types v hv).mono typed later.world

theorem tops_singleton (h : s.Tops x [v'] below stack) :
    ∃ v, stack = v :: below ∧ s.Same v v' ∧ s.world.Types x v' := by
  obtain ⟨vs, rfl, same, types⟩ := h
  cases same with
  | cons hv rest =>
    cases rest
    exact ⟨_, rfl, hv, types _ List.mem_cons_self⟩

theorem tops_nil (h : s.Tops x [] below stack) : stack = below := by
  obtain ⟨vs, rfl, same, -⟩ := h
  cases same
  rfl

theorem Shows.stack_sound (h : s.Shows x (c :: rest) host) : ∀ v ∈ c.stack, s.Sound v :=
  h.coherent.stack_sound

/-- Only the log changes. -/
theorem Shows.relog (h : s.Shows x calls host) (logs : s.memory.Logs m') :
    Shows { s with memory := m' } x calls host ∧ s.Later calls { s with memory := m' } :=
  h.recede logs.recedes (h.coherent.relog logs)

/-- The view in which the next instruction is carried out. -/
theorem Shows.moved (h : s.Shows x (c :: rest) host) (next : Nat) (logs : s.memory.Logs m') :
    Shows { s with memory := m' } x (c.moved next :: rest) host
      ∧ s.Later (c :: rest) { s with memory := m' } := by
  obtain ⟨shows, later⟩ := h.relog logs
  exact ⟨shows.restack rfl rfl shows.stack_sound shows.coherent.host, later⟩

/-- What an instruction that goes on does, from the view in which it is carried out. -/
structure Nexts (x : Setting) (host : List Value) (rest : List Call) (i : Instruction) (s : View)
    (c : Call) (s' : View) (stack : List Value) : Prop where
  effect : c.execute x.image s.memory i = .next stack s'.memory
  shows : s'.Shows x ({ c with stack } :: rest) host
  later : s.Later (c :: rest) s'

/-- **An instruction that goes on** is followed by the rest of the run. -/
theorem goes_next (hm : machine.image = x.image) (h : s.Shows x (c :: rest) host)
    (decoded : Instruction.decodeAt c.code.block.bytecode c.ip = .ok (some (i, next))) {w' : World}
    (does : ∀ m₀, View.Shows { s with memory := m₀ } x (c.moved next :: rest) host →
      s.Later (c :: rest) { s with memory := m₀ } →
      ∃ s₁ stack, Nexts x host rest i { s with memory := m₀ } (c.moved next) s₁ stack
        ∧ s₁.Tops x vs' below stack ∧ s₁.world = w') :
    ∃ s' c', Goes machine x host rest s c s' c' ∧ c'.ip = next ∧ s'.Tops x vs' below c'.stack
      ∧ s'.world = w' := by
  obtain ⟨m₀, noted, stepped⟩ := machine.step_eq s.memory rest decoded
  obtain ⟨shows₀, later₀⟩ := h.moved next noted
  obtain ⟨s₁, stack, nexts, tops, rfl⟩ := does m₀ shows₀ later₀
  obtain ⟨m₂, logs, logged⟩ := machine.logCalls_running s₁.memory
    (.of ({ c.moved next with stack } :: rest))
  obtain ⟨shows₂, later₂⟩ := nexts.shows.relog logs
  refine ⟨{ s₁ with memory := m₂ }, { c.moved next with stack },
    ⟨?_, rfl, rfl, shows₂, ?_⟩, rfl, ?_, rfl⟩
  · rw [machine.run_eq, stepped, hm, nexts.effect, Machine.carryOut, logged]
    rfl
  · exact (later₀.trans nexts.later (by simp [Call.moved])).trans later₂ (by simp [Call.moved])
  · exact tops.later later₂ nexts.shows.typed nexts.shows.stack_sound

/-- **An instruction that fails** ends the run. -/
theorem run_fault (hm : machine.image = x.image) (h : s.Shows x (c :: rest) host)
    (decoded : Instruction.decodeAt c.code.block.bytecode c.ip = .ok (some (i, next)))
    {cause : Cause}
    (does : ∀ m₀, View.Shows { s with memory := m₀ } x (c.moved next :: rest) host →
      s.Later (c :: rest) { s with memory := m₀ } →
      ∃ m₁ stack, (c.moved next).execute x.image m₀ i = .fault stack cause m₁
        ∧ m₀.Logs m₁ ∧ ∀ v ∈ stack, v ∈ c.stack) :
    ∃ m₁ calls f, machine.run ⟨s.memory, .of (c :: rest)⟩ = .failure f ⟨m₁, .of calls⟩
      ∧ f.cause = cause ∧ View.Shows { s with memory := m₁ } x calls host
      ∧ s.Later (c :: rest) { s with memory := m₁ } := by
  obtain ⟨m₀, noted, stepped⟩ := machine.step_eq s.memory rest decoded
  obtain ⟨shows₀, later₀⟩ := h.moved next noted
  obtain ⟨m₁, stack, effect, logs, sub⟩ := does m₀ shows₀ later₀
  obtain ⟨shows₁, later₁⟩ := h.moved next (noted.trans logs)
  refine ⟨m₁, { c.moved next with stack } :: rest,
    State.failure ⟨m₁, .of ({ c.moved next with stack } :: rest)⟩ cause, ?_, rfl, ?_, later₁⟩
  · rw [machine.run_eq, stepped, hm, effect]
    rfl
  · refine shows₁.restack rfl rfl (fun v hv => ?_) shows₁.coherent.host
    exact shows₁.stack_sound v (sub v hv)

/-! ## Constants, receivers and variables -/

/-- An instruction that only pushes a value. -/
theorem nexts_push (h : s.Shows x (c :: rest) host)
    (effect : c.execute x.image s.memory i = .next (v :: c.stack) s.memory) (sound : s.Sound v)
    (same : s.Same v v') (typed : s.world.Types x v') :
    ∃ s₁ stack, Nexts x host rest i s c s₁ stack ∧ s₁.Tops x [v'] c.stack stack
      ∧ s₁.world = s.world := by
  refine ⟨s, v :: c.stack, ⟨effect, ?_, .refl s _⟩, tops_push same typed, rfl⟩
  exact h.restack rfl rfl (List.forall_mem_cons.2 ⟨sound, h.stack_sound⟩) h.coherent.host

theorem simple_sound (h : v.Simple) : s.Sound v ∧ s.Same v v := by
  cases v with
  | nil => exact ⟨trivial, .nil⟩
  | bool b => exact ⟨trivial, .bool b⟩
  | int n => exact ⟨trivial, .int n⟩
  | float x => exact ⟨trivial, .float x⟩
  | char c => exact ⟨trivial, .char c⟩
  | string id text => exact ⟨trivial, .string id text⟩
  | _ => exact h.elim

/-- A literal has its own number. -/
theorem idxOf_literal {lits : Array String} {text : String} {l : Nat} (nodup : lits.toList.Nodup)
    (h : lits[l]? = some text) : lits.toList.idxOf text = l := by
  obtain ⟨hlt, rfl⟩ := Array.getElem?_eq_some_iff.1 h
  rw [← Array.getElem_toList]
  exact nodup.idxOf_getElem l hlt

theorem nexts_constant (h : s.Shows x (c :: rest) host) {value : Literal}
    (compiled : ConstantCode c.code.block.literals value i)
    (nodup : c.code.block.literals.toList.Nodup) :
    ∃ s₁ stack, Nexts x host rest i s c s₁ stack
      ∧ s₁.Tops x [constant c.code value] c.stack stack ∧ s₁.world = s.world := by
  have simple {v : Value} (hv : v.Simple)
      (effect : c.execute x.image s.memory i = .next (v :: c.stack) s.memory) :
      ∃ s₁ stack, Nexts x host rest i s c s₁ stack ∧ s₁.Tops x [v] c.stack stack
        ∧ s₁.world = s.world :=
    nexts_push h effect (simple_sound hv).1 (simple_sound hv).2 (.simple hv)
  cases compiled with
  | nil => exact simple trivial rfl
  | true => exact simple trivial rfl
  | false => exact simple trivial rfl
  | int n => exact simple trivial rfl
  | float f => exact simple trivial rfl
  | char k short =>
    have number : k.toNat.toUInt16.toNat = k.toNat := by
      rw [Nat.toUInt16_eq, UInt16.toNat_ofNat', Nat.mod_eq_of_lt short]
    refine simple (v := .char k) trivial ?_
    have valid : k.toNat.isValidChar := k.valid
    simp only [Call.execute, Call.character, number, if_pos valid, Char.ofNat_toNat, Effect.push]
  | @string text l literal =>
    have own := idxOf_literal nodup literal
    refine simple (v := constant c.code (.string text)) trivial ?_
    simp only [Call.execute, Call.literal, Block.literal?, literal, constant, own]
    rfl

theorem nexts_self (h : s.Shows x (c :: rest) host) :
    ∃ s₁ stack, Nexts x host rest .pushSelf s c s₁ stack
      ∧ s₁.Tops x [(s.world.activation (s.number c.frame)).receiver] c.stack stack
      ∧ s₁.world = s.world := by
  obtain ⟨fr, here, -, lt, depicts⟩ := h.call List.mem_cons_self
  refine nexts_push h (v := fr.receiver) ?_ (h.soundFrame here).receiver depicts.receiver
    (h.typed.receiver _ lt)
  simp only [Call.execute, Memory.frame, here]
  rfl

/-- What a global name stands for is the same in both. -/
theorem Shows.global (h : s.Shows x calls host) (sound : x.Sound) {name : String}
    (found : x.image.lookup name = some v) : s.Sound v ∧ s.Same v v := by
  obtain rfl | rfl | ⟨cls, -, rfl⟩ := Image.lookup_cases found
  · exact simple_sound trivial
  · obtain ⟨cls, transcript, -⟩ := sound.transcript
    have := h.coherent.transcript
    rw [transcript] at this ⊢
    exact ⟨this, .object cls this⟩
  · exact ⟨trivial, .cls cls⟩

theorem nexts_global (h : s.Shows x (c :: rest) host) (sound : x.Sound) {l : UInt16} {name : String}
    (literal : c.code.block.literals[l.toNat]? = some name)
    (found : x.image.lookup name = some v) :
    ∃ s₁ stack, Nexts x host rest (.pushGlobal l) s c s₁ stack ∧ s₁.Tops x [v] c.stack stack
      ∧ s₁.world = s.world := by
  have known := h.global sound found
  refine nexts_push h ?_ known.1 known.2 (h.typed.lookup sound found)
  simp only [Call.execute, Call.global, Call.literal, Block.literal?, literal, bind, Except.bind,
    found]
  rfl

/-- The first entry for a scope stands where the scope stands first. -/
theorem lookup_idxOf {env : List (ScopeId × Nat)} {scope : ScopeId}
    (h : scope ∈ env.map Prod.fst) :
    ∃ n, env[(env.map Prod.fst).idxOf scope]? = some (scope, n) ∧ env.lookup scope = some n := by
  induction env with
  | nil => simp at h
  | cons e rest ih =>
    obtain ⟨k, n⟩ := e
    by_cases he : scope = k
    · subst he
      exact ⟨n, by simp, by simp⟩
    · have later : scope ∈ rest.map Prod.fst := by simpa [he] using h
      obtain ⟨n', here, found⟩ := ih later
      refine ⟨n', ?_, ?_⟩
      · rw [List.map_cons, List.idxOf_cons_ne _ (Ne.symm he), List.getElem?_cons_succ]
        exact here
      · rw [List.lookup_cons, show (scope == k) = false from beq_eq_false_iff_ne.2 he]
        exact found

/-- Going outward from a frame visits the frames of the activations that can be seen. -/
theorem Shows.outward (h : s.Shows x calls host) (depth : UInt16) {k : Nat} {f : FrameId}
    {fr : Frame Value} {e : ScopeId × Nat} (here : s.memory.frames.get? f = some fr)
    (seen : (s.world.activation (s.number f)).env[k]? = some e) :
    ∃ g fr', s.memory.outward depth k f = .ok g ∧ s.memory.frames.get? g = some fr'
      ∧ s.number g = e.2 := by
  induction k generalizing f fr with
  | zero =>
    obtain ⟨-, depicts⟩ := h.frames f fr here
    refine ⟨f, fr, rfl, here, ?_⟩
    cases hin : fr.enclosing with
    | none =>
      obtain ⟨scope, env⟩ := depicts.outermost hin
      rw [env] at seen
      cases seen
      rfl
    | some outer =>
      obtain ⟨scope, env⟩ := depicts.inside outer hin
      rw [env] at seen
      cases seen
      rfl
  | succ k ih =>
    obtain ⟨-, depicts⟩ := h.frames f fr here
    cases hin : fr.enclosing with
    | none =>
      obtain ⟨scope, env⟩ := depicts.outermost hin
      rw [env] at seen
      cases seen
    | some outer =>
      obtain ⟨scope, env⟩ := depicts.inside outer hin
      obtain ⟨fr', hfr'⟩ := h.enclosing here hin
      rw [env, List.getElem?_cons_succ] at seen
      obtain ⟨g, fr'', out, hg, number⟩ := ih hfr' seen
      refine ⟨g, fr'', ?_, hg, number⟩
      rw [Memory.outward, Memory.frame, here]
      simp only [bind, Except.bind, hin]
      exact out

/-- **The frame of a variable** is that of the activation that holds it. -/
theorem Shows.context (h : s.Shows x (c :: rest) host) {p : Standing}
    (stands : s.world.Stands x (s.number c.frame) p) {owner : ScopeId} {depth : Nat}
    (around : owner ∈ p.chain) (hops : x.tree.relativeDepth p.source.scope owner = some depth) :
    ∃ g fr, s.memory.context c.frame depth.toUInt16 = .ok g ∧ s.memory.frames.get? g = some fr
      ∧ s.number g = s.world.holder (s.number c.frame) owner := by
  obtain ⟨fr, here, -, -, -⟩ := h.call List.mem_cons_self
  have place : depth = p.chain.idxOf owner := by
    rw [ScopeTree.climb_eq stands.runs.linked around hops, Nat.zero_add]
    rfl
  have number : depth.toUInt16.toNat = depth := by
    rw [Nat.toUInt16_eq, UInt16.toNat_ofNat',
      Nat.mod_eq_of_lt (ScopeTree.climb_lt (by decide) hops)]
  obtain ⟨n, seen, found⟩ := lookup_idxOf (stands.chain.symm ▸ around)
  rw [stands.chain, ← place] at seen
  obtain ⟨g, fr', out, hg, same⟩ := h.outward depth.toUInt16 here seen
  refine ⟨g, fr', ?_, hg, ?_⟩
  · rw [Memory.context, number]
    exact out
  · rw [same, World.holder, found]
    rfl

/-- The slots of a frame are the variables of its activation. -/
theorem Shows.slot (h : s.Shows x calls host) {f : FrameId} {fr : Frame Value}
    (here : s.memory.frames.get? f = some fr) {k : Nat}
    (lt : k < (s.world.activation (s.number f)).vars.size) :
    ∃ v, fr.locals[k]? = some v ∧ s.Sound v
      ∧ s.Same v ((s.world.activation (s.number f)).vars.getD k .nil)
      ∧ s.world.Types x ((s.world.activation (s.number f)).vars.getD k .nil) := by
  obtain ⟨bound, depicts⟩ := h.frames f fr here
  have size : fr.locals.size = (s.world.activation (s.number f)).vars.size := by
    simpa using depicts.locals.length_eq
  have lt' : k < fr.locals.size := size ▸ lt
  have same := Value.Match.getD depicts.locals k
  have read : (s.world.activation (s.number f)).vars.getD k .nil
      = (s.world.activation (s.number f)).vars[k] := by
    rw [Array.getD_eq_getD_getElem?, Array.getElem?_eq_getElem lt, Option.getD_some]
  refine ⟨fr.locals[k], Array.getElem?_eq_getElem lt', ?_, ?_, ?_⟩
  · exact (h.soundFrame here).locals _ (Array.getElem_mem lt')
  · rw [read, Same]
    simpa [List.getD_eq_getElem?_getD, List.getElem?_eq_getElem, lt, lt'] using same
  · rw [read]
    exact h.typed.vars _ bound _ (Array.getElem_mem lt)

theorem nexts_variable (h : s.Shows x (c :: rest) host) {p : Standing}
    (stands : s.world.Stands x (s.number c.frame) p) {owner : ScopeId} {depth : Nat} {k : UInt16}
    (around : owner ∈ p.chain) (hops : x.tree.relativeDepth p.source.scope owner = some depth)
    (slot : k.toNat < x.varCount owner) :
    ∃ s₁ stack, Nexts x host rest (.pushLocal depth.toUInt16 k) s c s₁ stack
      ∧ s₁.Tops x [(s.world.activation (s.world.holder (s.number c.frame) owner)).vars.getD k.toNat
        .nil] c.stack stack
      ∧ s₁.world = s.world := by
  obtain ⟨g, fr, out, here, number⟩ := h.context stands around hops
  obtain ⟨-, -, size⟩ := stands.holder around
  rw [← number] at size ⊢
  obtain ⟨v, read, sound, same, typed⟩ := h.slot here (size.symm ▸ slot)
  refine nexts_push h (v := v) ?_ sound same typed
  simp only [Call.execute, Memory.loadLocal, bind, Except.bind, out, Memory.frame, here, read]
  rfl

theorem nexts_assign (h : s.Shows x (c :: rest) host) {p : Standing}
    (stands : s.world.Stands x (s.number c.frame) p) {owner : ScopeId} {depth : Nat} {k : UInt16}
    (around : owner ∈ p.chain) (hops : x.tree.relativeDepth p.source.scope owner = some depth)
    (slot : k.toNat < x.varCount owner) (top : s.Tops x [v'] below c.stack) :
    ∃ s₁ stack, Nexts x host rest (.storeLocal depth.toUInt16 k) s c s₁ stack
      ∧ s₁.Tops x [v'] below stack
      ∧ s₁.world = s.world.setVar (s.world.holder (s.number c.frame) owner) k.toNat v' := by
  obtain ⟨g, fr, out, here, number⟩ := h.context stands around hops
  obtain ⟨-, -, size⟩ := stands.holder around
  rw [← number] at size ⊢
  obtain ⟨v, hstack, same, typed⟩ := tops_singleton top
  obtain ⟨old, read, -, -, -⟩ := h.slot here (size.symm ▸ slot)
  have sound : s.Sound v := h.stack_sound v (hstack ▸ List.mem_cons_self)
  obtain ⟨shows, later⟩ := h.setLocal k.toNat here same sound typed
  refine ⟨_, c.stack, ⟨?_, shows, later⟩, top.later later h.typed h.stack_sound, rfl⟩
  have room : k.toNat < fr.locals.size := (Array.getElem?_eq_some_iff.1 read).1
  simp only [Call.execute, Call.storeLocal, hstack, Memory.localFrame, bind, Except.bind, out,
    Memory.frame, here, if_pos room]
  rfl

/-! ## Fields -/

/-- **A field that the code can name is there**, if the receiver has fields at all. -/
theorem Shows.fieldRow (h : s.Shows x (c :: rest) host) {p : Standing}
    (stands : s.world.Stands x (s.number c.frame) p) {k : Nat} (hk : k < p.fields) :
    (∃ cls row, (s.world.activation (s.number c.frame)).receiver = .object cls row
        ∧ s.memory.fieldRow x.image c.frame k = .ok row ∧ s.Rows row)
      ∨ (∀ cls row, (s.world.activation (s.number c.frame)).receiver ≠ .object cls row)
        ∧ s.memory.fieldRow x.image c.frame k = .error (.noFields
          (x.image.className (s.world.activation (s.number c.frame)).receiver)) := by
  obtain ⟨fr, here, -, lt, depicts⟩ := h.call List.mem_cons_self
  have typed := h.typed.receiver _ lt
  have fits := stands.fields
  have same := depicts.receiver
  have none {v v' : Value} (hr : fr.receiver = v) (hv : s.Same v v')
      (plain : ∀ cls row, v ≠ .object cls row) :
      s.memory.fieldRow x.image c.frame k = .error (.noFields (x.image.className v')) := by
    rw [hv.className_eq]
    simp only [Memory.fieldRow, Memory.frame, here, bind, Except.bind, hr]
    rfl
  generalize (s.world.activation (s.number c.frame)).receiver = receiver' at typed fits same
  generalize hr : fr.receiver = receiver at same
  cases same with
  | @object cls row hrow =>
    cases typed with
    | simple h => exact h.elim
    | object has bound width =>
      have room : k < (s.memory.store.row row).size := by
        rw [← h.data.store.size_row hrow, width]
        exact Nat.lt_of_lt_of_le hk (fits cls row rfl)
      refine .inl ⟨cls, row, rfl, ?_, hrow⟩
      simp only [Memory.fieldRow, Memory.frame, here, bind, Except.bind, hr, if_pos room]
      rfl
  | _ =>
    refine .inr ⟨fun _ _ h => ?_, none hr (by constructor <;> assumption) fun _ _ h => ?_⟩
    all_goals cases h

/-- What a row holds is the same in both. -/
theorem Shows.element (h : s.Shows x calls host) {row : Ref} (hrow : s.Rows row) (k : Nat) :
    s.Sound ((s.memory.store.row row).getD k .nil)
      ∧ s.Same ((s.memory.store.row row).getD k .nil)
        ((s.world.memory.store.row row).getD k .nil)
      ∧ s.world.Types x ((s.world.memory.store.row row).getD k .nil) := by
  have bound : row < s.world.memory.store.rows.size := h.data.store.size.symm ▸ hrow
  refine ⟨?_, h.data.store.getD hrow k, ?_⟩
  · rw [Array.getD_eq_getD_getElem?]
    cases hk : (s.memory.store.row row)[k]? with
    | none => trivial
    | some v => exact (h.coherent.store row hrow).2 v (Array.mem_of_getElem? hk)
  · rw [Array.getD_eq_getD_getElem?]
    cases hk : (s.world.memory.store.row row)[k]? with
    | none => exact .simple trivial
    | some v => exact h.typed.rows row bound v (Array.mem_of_getElem? hk)

theorem nexts_field (h : s.Shows x (c :: rest) host) {k : UInt16} {row : Ref}
    (found : s.memory.fieldRow x.image c.frame k.toNat = .ok row) (hrow : s.Rows row) :
    ∃ s₁ stack, Nexts x host rest (.pushField k) s c s₁ stack
      ∧ s₁.Tops x [(s.world.memory.store.row row).getD k.toNat .nil] c.stack stack
      ∧ s₁.world = s.world := by
  obtain ⟨sound, same, typed⟩ := h.element hrow k.toNat
  refine nexts_push h ?_ sound same typed
  simp only [Call.execute, Memory.loadField, found, bind, Except.bind]
  rfl

theorem nexts_setField (h : s.Shows x (c :: rest) host) {k : UInt16} {row : Ref}
    (found : s.memory.fieldRow x.image c.frame k.toNat = .ok row)
    (top : s.Tops x [v'] below c.stack) :
    ∃ s₁ stack, Nexts x host rest (.storeField k) s c s₁ stack ∧ s₁.Tops x [v'] below stack
      ∧ s₁.world = s.world.setField row k.toNat v' := by
  obtain ⟨v, hstack, same, typed⟩ := tops_singleton top
  have sound : s.Sound v := h.stack_sound v (hstack ▸ List.mem_cons_self)
  obtain ⟨grown, typed'⟩ := h.typed.set (m := { s.world.memory with
    store := s.world.memory.store.set row k.toNat v' }) typed rfl
  have size := Store.size_set s.memory.store row k.toNat v
  have rows : (fun r => r < (s.memory.store.set row k.toNat v).rows.size) = s.Rows := by
    funext r
    simp only [Rows, size]
  have coherent := h.coherent.set row k.toNat sound
  have data : Memory.Match s.Renames s.Rows
      { s.memory with store := s.memory.store.set row k.toNat v }
      { s.world.memory with store := s.world.memory.store.set row k.toNat v' } :=
    ⟨h.data.store.set k.toNat same, h.data.serial, h.data.transcript⟩
  obtain ⟨shows, later⟩ := h.remember (m := { s.memory with
    store := s.memory.store.set row k.toNat v }) rfl (rows ▸ coherent) (rows ▸ data)
    (Nat.le_of_eq size.symm) grown typed'
  refine ⟨_, c.stack, ⟨?_, shows, later⟩, top.later later h.typed h.stack_sound, rfl⟩
  simp only [Call.execute, Call.storeField, hstack, found]

/-! ## Arrays, closures and positions -/

theorem nexts_array (h : s.Shows x (c :: rest) host) {count : UInt16}
    (top : s.Tops x vs' below c.stack) (hcount : count.toNat = vs'.length) :
    ∃ s₁ stack, Nexts x host rest (.pushArray count) s c s₁ stack
      ∧ s₁.Tops x [(s.world.newArray vs').2] below stack
      ∧ s₁.world = (s.world.newArray vs').1 := by
  obtain ⟨vs, hstack, same, types⟩ := top
  have length : vs.reverse.length = count.toNat := by
    rw [List.length_reverse, same.length_eq, hcount]
  have sound : ∀ v ∈ vs, s.Sound v := fun v hv =>
    h.stack_sound v (hstack ▸ List.mem_append_left _ (List.mem_reverse.2 hv))
  have gains := h.newArray same sound types
  refine ⟨_, (s.memory.newArray vs.toArray).2 :: below,
    ⟨?_, gains.shows.receive (hstack ▸ List.subset_append_right _ _), gains.later⟩,
    tops_push gains.same gains.typed, rfl⟩
  have enough : ¬ c.stack.length < count.toNat := by
    rw [hstack, List.length_append, length]
    omega
  simp only [Call.execute, Call.buildArray, if_neg enough]
  rw [hstack, List.take_left' length, List.drop_left' length, List.reverse_reverse]
  rfl

theorem nexts_block (h : s.Shows x (c :: rest) host) {p : Standing}
    (stands : s.world.Stands x (s.number c.frame) p) {index : UInt16} {inner : Code} {b : ScopeId}
    {stats : List Stat} (nested : p.method.nested? index.toNat = some inner)
    (runs : (p.inside b stats).Runs x inner) :
    ∃ s₁ stack, Nexts x host rest (.block index) s c s₁ stack
      ∧ s₁.Tops x [(s.world.newClosure (s.number c.frame) index.toNat).2] c.stack stack
      ∧ s₁.world = (s.world.newClosure (s.number c.frame) index.toNat).1 := by
  obtain ⟨fr, here, -, lt, depicts⟩ := h.call List.mem_cons_self
  obtain ⟨home, hhome⟩ := h.home here
  have method : home.code = p.method := by
    rw [← stands.method, depicts.home, (h.frames _ home hhome).2.code]
  have made : s.memory.closure c.frame index.toNat = .ok
      ⟨s.memory.serial, inner, c.frame, fr.home, fr.receiver⟩ := by
    simp only [Memory.closure, Memory.frame, here, bind, Except.bind, hhome, method, nested]
    rfl
  obtain ⟨-, -, typedNew, created⟩ := h.typed.newClosure lt stands nested runs
  rw [created] at typedNew ⊢
  obtain ⟨shows, later⟩ := h.closure made
  refine ⟨_, .block ⟨s.memory.serial, inner, c.frame, fr.home, fr.receiver⟩ :: c.stack,
    ⟨?_, shows.receive (List.Subset.refl _), later⟩, tops_push ?_ typedNew, rfl⟩
  · simp only [Call.execute, Call.makeClosure, made]
    rfl
  · exact .block ⟨rfl, congrArg handle depicts.home⟩ h.data.serial rfl depicts.receiver

theorem nexts_pop (h : s.Shows x (c :: rest) host) (top : s.Tops x [v'] below c.stack) :
    ∃ s₁ stack, Nexts x host rest .pop s c s₁ stack ∧ s₁.Tops x [] below stack
      ∧ s₁.world = s.world := by
  obtain ⟨v, hstack, -, -⟩ := tops_singleton top
  refine ⟨s, below, ⟨?_, ?_, .refl s _⟩, Tops.nil, rfl⟩
  · simp only [Call.execute, hstack]
  · refine h.restack rfl rfl (fun u hu => h.stack_sound u ?_) h.coherent.host
    exact hstack ▸ List.mem_cons_of_mem _ hu

theorem nexts_debug (h : s.Shows x (c :: rest) host) {file : UInt16} {position : Position}
    (top : s.Tops x vs' below c.stack) :
    ∃ s₁ stack, Nexts x host rest (.debug file position) s c s₁ stack
      ∧ s₁.Tops x vs' below stack ∧ s₁.world = s.world := by
  obtain ⟨shows, later⟩ := h.recede
    (Memory.recedes_setPlace s.memory c.frame { file := c.code.block.literal? file, position })
    (h.coherent.setPlace c.frame _)
  exact ⟨_, c.stack, ⟨rfl, shows, later⟩, top.later later h.typed h.stack_sound, rfl⟩

/-- A source position is passed over. -/
theorem goes_marks (hm : machine.image = x.image) (h : s.Shows x (c :: rest) host)
    {ks : List Instruction} (marks : Marks ks)
    (reads : Instruction.Reads c.code.block.bytecode c.ip ks next)
    (top : s.Tops x vs' below c.stack) :
    ∃ s' c', Goes machine x host rest s c s' c' ∧ c'.ip = next ∧ s'.Tops x vs' below c'.stack
      ∧ s'.world = s.world := by
  rcases marks with rfl | ⟨file, position, rfl⟩
  · cases reads
    exact ⟨s, c, .refl h, rfl, top, rfl⟩
  · cases reads with
    | cons decoded last =>
      cases last
      refine goes_next hm h decoded fun m₀ shows later => ?_
      exact nexts_debug shows (top.later later h.typed h.stack_sound)

end View

end Direct

end Colloquy
