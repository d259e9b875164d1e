import Colloquy.Compile.Library
import Colloquy.Proofs.Closures
import Colloquy.Proofs.Direct.Bodies
import Colloquy.Proofs.Requests

/-!
# Sessions of accepted programs

A host makes values, sends messages and runs the main method, one request after another, with the
values that it has got so far.  The same session can be held with a machine and with the evaluator
of the resolved program.

Main statements: both give the same answers, and leave the same objects and the same transcript
(`Direct.compiled_as_evaluated`); and what stops compiled code is never a check that the machine
makes on its own behalf (`Direct.faults_of_compiled_code`).
-/

namespace Colloquy

namespace Direct

/-! ## Requests by evaluation -/

/-- Does what the host asks for, by evaluation. -/
def serve (x : Setting) (limit : Nat) (w : World) (host : List Value) : Request → Answer × World
  | .make value => (.ok (w.memory.make value).2, { w with memory := (w.memory.make value).1 })
  | .array items =>
    let made := w.newArray (items.map (held host))
    (.ok made.2, made.1)
  | .global name => (.ok ((x.image.lookup name).getD .nil), w)
  | .element whole index => (.ok (w.memory.element index (held host whole)), w)
  | .newInstance className => newInstance x w className
  | .send receiver selector args =>
    send x limit w (held host receiver) selector (args.map (held host))
  | .main => runMain x limit w

/-- Does one thing after another, by evaluation. -/
def session (x : Setting) (limit : Nat) (w : World) (host : List Value) :
    List Request → List (Answer × World)
  | [] => []
  | r :: rest =>
    let told := serve x limit w host r
    told :: session x limit told.2 (host ++ told.1.toOption.toList) rest

open View

/-! ## Host calls -/

/-- What the machine tells the host goes with what the evaluator tells. -/
inductive Tells (x : Setting) (s : View) (host : List Value) :
    Machine.Outcome → Answer × World → Prop where
  | value {s' : View} {v v' : Value} (shows : s'.Shows x [] (v :: host)) (later : s.Later [] s')
      (same : s'.Same v v') (typed : s'.world.Types x v') :
      Tells x s host (.value v ⟨s'.memory, .empty⟩) (.ok v', s'.world)
  | failure {s' : View} {f : Failure} (shows : s'.Shows x [] host) (later : s.Later [] s')
      (ordinary : f.cause.Ordinary) :
      Tells x s host (.failure f ⟨s'.memory, .empty⟩) (.error f.cause, s'.world)

variable {machine : Machine} {x : Setting} {s : View} {host host' : List Value}
  {receiver receiver' : Value} {args args' : List Value} {code : Code}

/-- An integer is told as it is. -/
theorem Tells.int {o : Machine.Outcome} {told : Answer × World} {n : Int32}
    (h : Tells x s host o told) (answer : told.1 = .ok (.int n)) :
    ∃ t, o = .value (.int n) t := by
  cases h with
  | value shows later same typed =>
    cases answer
    cases same
    exact ⟨_, rfl⟩
  | failure => cases answer

/-- What the host gets at once. -/
theorem View.Gains.tells {m m' : Memory} {v v' : Value} (h : s.Gains x [] host m v m' v') :
    Tells x s host (.value v ⟨m, .empty⟩) (.ok v', { s.world with memory := m' }) :=
  @Tells.value _ _ _ (s.remembering m m') _ _ h.shows h.later h.same h.typed

/-- What the host has got already, or makes up. -/
theorem tells_known {v v' : Value} (h : s.Shows x [] host) (sound : s.Sound v) (same : s.Same v v')
    (typed : s.world.Types x v') :
    Tells x s host (.value v ⟨s.memory, .empty⟩) (.ok v', s.world) :=
  .value (h.hold (List.forall_mem_cons.2 ⟨sound, h.coherent.host⟩)) (.refl s _) same typed

/-- A call with nothing below it. -/
theorem enter_tells {o : Machine.Outcome} {r : EStateM.Result Stop World Value}
    (h : Simulates machine x s [] host o
      (fun v' s' => ∃ v, Resumed machine x host [] s o v' s' v) r) :
    Tells x s host o.settled (settle r) := by
  cases h with
  | ok h =>
    obtain ⟨v, resumed⟩ := h
    rw [resumed.ran]
    exact .value resumed.shows resumed.later resumed.same resumed.typed
  | @fault s' calls' f ran shows later ordinary =>
    rw [ran]
    obtain ⟨shows', later'⟩ := shows.recede shows.coherent.recedes_dropAll shows.coherent.dropAll
    have since := later.trans (later'.mono (List.forall_mem_nil _)) fun _ => id
    exact @Tells.failure _ _ _ { s' with memory := calls'.foldl Memory.drop s'.memory } f shows'
      since ordinary
  | @escape s' past below target v v' unwinds =>
    cases past <;> cases unwinds

theorem Tells.since {s' : View} {o : Machine.Outcome} {r : Answer × World}
    (h : Tells x s' host o r) (later : s.Later [] s') : Tells x s host o r := by
  cases h with
  | value shows later' same typed => exact .value shows (later.trans later' fun _ => id) same typed
  | failure shows later' ordinary => exact .failure shows (later.trans later' fun _ => id) ordinary

/-- **Running a method to its end.** -/
theorem perform_tells (hm : machine.image = x.image) (sound : x.Sound) (h : s.Shows x [] host)
    (hr : s.Same receiver receiver') (ha : List.Forall₂ s.Same args args')
    (soundReceiver : s.Sound receiver) (soundArgs : ∀ v ∈ args, s.Sound v)
    (finds : x.Finds receiver' code) (typedReceiver : s.world.Types x receiver')
    (typedArgs : ∀ v ∈ args', s.world.Types x v) :
    Tells x s host (machine.perform ⟨s.memory, .empty⟩ receiver code args)
      (perform x machine.maxDepth s.world receiver' code args') := by
  have reply := invoked h hr ha soundReceiver soundArgs finds typedReceiver typedArgs
  rw [Machine.perform_eq, hm, perform]
  change Tells x s host (machine.concluded (invoke x.image s.memory receiver code args)) _
  generalize invoke x.image s.memory receiver code args = r at reply
  generalize invoke x.image s.world.memory receiver' code args' = r' at reply
  cases reply with
  | answer gains => exact gains.tells
  | @enter callee callee' matches_ soundCallee can =>
    exact enter_tells (enter_simulated hm sound machine.maxDepth [] rfl s [] callee callee' _ h rfl
      matches_ soundCallee can (.inl rfl))
  | @fault cause ordinary =>
    exact @Tells.failure _ _ _ s (State.failure _ cause) h (.refl s _) ordinary

/-! ## Requests -/

/-- The values that the host has got are the same in both. -/
structure Holds (x : Setting) (s : View) (host host' : List Value) : Prop where
  shows : s.Shows x [] host
  same : List.Forall₂ s.Same host host'
  types : ∀ v ∈ host', s.world.Types x v

theorem Holds.held (h : Holds x s host host') (n : Nat) :
    s.Same (held host n) (held host' n) ∧ s.Sound (held host n)
      ∧ s.world.Types x (held host' n) := by
  refine ⟨Value.Match.getD h.same n, ?_, ?_⟩
  · rw [Colloquy.held, List.getD_eq_getElem?_getD]
    cases hn : host[n]? with
    | none => trivial
    | some v => exact h.shows.coherent.host v (List.mem_of_getElem? hn)
  · rw [Colloquy.held, List.getD_eq_getElem?_getD]
    cases hn : host'[n]? with
    | none => exact .simple trivial
    | some v => exact h.types v (List.mem_of_getElem? hn)

theorem Holds.heldAll (h : Holds x s host host') (ns : List Nat) :
    List.Forall₂ s.Same (ns.map (Colloquy.held host)) (ns.map (Colloquy.held host'))
      ∧ (∀ v ∈ ns.map (Colloquy.held host), s.Sound v)
      ∧ ∀ v ∈ ns.map (Colloquy.held host'), s.world.Types x v := by
  refine ⟨?_, fun v hv => ?_, fun v hv => ?_⟩
  · exact List.forall₂_map_left_iff.2 (List.forall₂_map_right_iff.2
      (List.forall₂_same.2 fun n _ => (h.held n).1))
  · obtain ⟨n, -, rfl⟩ := List.mem_map.1 hv
    exact (h.held n).2.1
  · obtain ⟨n, -, rfl⟩ := List.mem_map.1 hv
    exact (h.held n).2.2

/-- A literal that the host makes up. -/
theorem make_tells (h : s.Shows x [] host) (value : Literal) :
    Tells x s host (.value (s.memory.make value).2 ⟨(s.memory.make value).1, .empty⟩)
      (.ok (s.world.memory.make value).2,
        { s.world with memory := (s.world.memory.make value).1 }) := by
  have plain {v : Value} (hv : v.Simple) :
      Tells x s host (.value v ⟨s.memory, .empty⟩) (.ok v, s.world) :=
    tells_known h (simple_sound hv).1 (simple_sound hv).2 (.simple hv)
  cases value with
  | string text => exact (h.newString text).tells
  | nil => exact plain trivial
  | bool b => exact plain trivial
  | int n => exact plain trivial
  | float f => exact plain trivial
  | char c => exact plain trivial

/-- An element or a field that the host looks at. -/
theorem element_tells (h : Holds x s host host') (index n : Nat) :
    Tells x s host (.value (s.memory.element index (Colloquy.held host n)) ⟨s.memory, .empty⟩)
      (.ok (s.world.memory.element index (Colloquy.held host' n)), s.world) := by
  have same := (h.held n).1
  generalize Colloquy.held host n = v at same
  generalize Colloquy.held host' n = v' at same
  have inRow {row : Ref} (hrow : s.Rows row) :
      Tells x s host (.value ((s.memory.store.row row).getD index .nil) ⟨s.memory, .empty⟩)
        (.ok ((s.world.memory.store.row row).getD index .nil), s.world) := by
    obtain ⟨sound, same, typed⟩ := h.shows.element hrow index
    exact tells_known h.shows sound same typed
  have other : Tells x s host (.value .nil ⟨s.memory, .empty⟩) (.ok .nil, s.world) :=
    tells_known h.shows trivial .nil (.simple trivial)
  cases same with
  | array hrow => exact inRow hrow
  | object cls hrow => exact inRow hrow
  | _ => exact other

theorem global_tells (sound : x.Sound) (h : s.Shows x [] host) (name : String) :
    Tells x s host (.value ((x.image.lookup name).getD .nil) ⟨s.memory, .empty⟩)
      (.ok ((x.image.lookup name).getD .nil), s.world) := by
  cases found : x.image.lookup name with
  | none => exact tells_known h trivial .nil (.simple trivial)
  | some v =>
    obtain ⟨soundValue, same⟩ := h.global sound found
    exact tells_known h soundValue same (h.typed.lookup sound found)

/-- A message from the host. -/
theorem send_tells (hm : machine.image = x.image) (sound : x.Sound) (h : Holds x s host host')
    (receiver : Nat) (selector : String) (args : List Nat) :
    Tells x s host
      (machine.send ⟨s.memory, .empty⟩ (Colloquy.held host receiver) selector
        (args.map (Colloquy.held host)))
      (send x machine.maxDepth s.world (Colloquy.held host' receiver) selector
        (args.map (Colloquy.held host'))) := by
  obtain ⟨hr, soundReceiver, typedReceiver⟩ := h.held receiver
  obtain ⟨ha, soundArgs, typedArgs⟩ := h.heldAll args
  have yields := sound.method typedReceiver selector
  have found := Image.method_match (i := x.image) hr selector
  rw [Machine.send, hm, send, found]
  rw [found] at yields
  cases hfound : x.image.method (Colloquy.held host receiver) selector with
  | ok code =>
    rw [hfound] at yields
    exact perform_tells hm sound h.shows hr ha soundReceiver soundArgs yields typedReceiver
      typedArgs
  | error cause =>
    rw [hfound] at yields
    exact @Tells.failure _ _ _ s (State.failure _ cause) h.shows (.refl s _) yields

theorem newInstance_tells (hm : machine.image = x.image) (sound : x.Sound)
    (h : s.Shows x [] host) (className : String) :
    Tells x s host (machine.newInstance ⟨s.memory, .empty⟩ className)
      (newInstance x s.world className) := by
  rw [Machine.newInstance, hm, newInstance]
  cases found : x.image.byName[className]? with
  | some cls => exact (h.instantiate (sound.byName className cls found)).tells
  | none => exact @Tells.failure _ _ _ s (State.failure _ _) h (.refl s _) trivial

/-- The main method, on a new instance of its class. -/
theorem main_tells (hm : machine.image = x.image) (sound : x.Sound) (h : s.Shows x [] host) :
    Tells x s host (machine.runMain ⟨s.memory, .empty⟩) (runMain x machine.maxDepth s.world) := by
  rw [Machine.runMain, hm, runMain]
  cases found : x.image.byName[mainClass]? with
  | none => exact tells_known h trivial .nil (.simple trivial)
  | some cls =>
    dsimp only
    have has := sound.byName mainClass cls found
    cases method : cls.lookup mainSelector with
    | none => exact @Tells.failure _ _ _ s (State.failure _ _) h (.refl s _) trivial
    | some code =>
      have gains := h.instantiate has
      have sounds := gains.shows.coherent.host
      have finds : x.Finds (Image.instantiate s.world.memory.store cls).2 code := by
        refine (sound.lookup has method).imp_right ?_
        rintro ⟨source, fields, compiled, fits⟩
        refine ⟨source, fields, compiled, fun cls' r hobject => ?_⟩
        cases hobject
        exact fits
      exact (perform_tells hm sound
        (gains.shows.hold fun v hv => sounds v (List.mem_cons_of_mem _ hv)) gains.same .nil
        (sounds _ List.mem_cons_self) (List.forall_mem_nil _) finds gains.typed
        (List.forall_mem_nil _)).since gains.later

/-- **Each request** is answered alike. -/
theorem serve_tells (hm : machine.image = x.image) (sound : x.Sound) (h : Holds x s host host')
    (r : Request) :
    Tells x s host (machine.serve ⟨s.memory, .empty⟩ host r)
      (serve x machine.maxDepth s.world host' r) := by
  cases r with
  | make value => exact make_tells h.shows value
  | array items =>
    obtain ⟨same, sound, types⟩ := h.heldAll items
    exact (h.shows.newArray same sound types).tells
  | global name =>
    rw [Machine.serve, hm]
    exact global_tells sound h.shows name
  | element whole index => exact element_tells h index whole
  | newInstance className => exact newInstance_tells hm sound h.shows className
  | send receiver selector args => exact send_tells hm sound h receiver selector args
  | main => exact main_tells hm sound h.shows

/-- **A whole session** is answered alike, request by request. -/
theorem session_tells (hm : machine.image = x.image) (sound : x.Sound) (requests : List Request)
    (h : Holds x s host host') :
    List.Forall₂ (fun o told => ∃ s host, Tells x s host o told)
      (machine.session ⟨s.memory, .empty⟩ host requests)
      (session x machine.maxDepth s.world host' requests) := by
  induction requests generalizing s host host' with
  | nil => exact .nil
  | cons r rest ih =>
    have first := serve_tells hm sound h r
    rw [Machine.session, session]
    refine .cons ⟨s, host, first⟩ ?_
    generalize machine.serve ⟨s.memory, .empty⟩ host r = o at first
    generalize serve x machine.maxDepth s.world host' r = told at first
    have earlier {s' : View} (later : s.Later [] s') :
        List.Forall₂ s'.Same host host' ∧ ∀ v ∈ host', s'.world.Types x v :=
      ⟨same_all_later h.same later h.shows.coherent.host,
        fun v hv => (h.types v hv).mono h.shows.typed later.world⟩
    cases first with
    | @value s' v v' shows later same typed =>
      obtain ⟨sames, types⟩ := earlier later
      refine ih ⟨shows.hold fun u hu => shows.coherent.host u ?_, ?_, ?_⟩
      · exact List.mem_cons.2 ((List.mem_append.1 hu).symm.imp_left List.mem_singleton.1)
      · exact List.rel_append sames (.cons same .nil)
      · exact List.forall_mem_append.2 ⟨types, List.forall_mem_singleton.2 typed⟩
    | @failure s' f shows later ordinary =>
      obtain ⟨sames, types⟩ := earlier later
      have same {l : List Value} : l ++ (Except.error f.cause : Answer).toOption.toList = l :=
        List.append_nil l
      rw [Machine.Outcome.answer, same, same]
      exact ih ⟨shows, sames, types⟩

/-! ## Accepted programs -/

/-- The compiler accepts a program: as it is, or with the class library in front of it. -/
inductive Accepts (options : CompilerOptions) : Program → CompiledProgram → Prop where
  | bare {p : Program} {compiled : CompiledProgram} {log : Log}
      (h : compileBare options p = (log, .ok compiled)) : Accepts options p compiled
  | whole {p : Program} {compiled : CompiledProgram} {log : Log}
      (h : compile options p = (log, .ok compiled)) :
      Accepts options { p with classes := Library.classes ++ p.classes } compiled

/-- The machine has loaded what the compiler made of a program. -/
def Loads (machine : Machine) (store : Store) (options : CompilerOptions) (p : Program) : Prop :=
  ∃ compiled log, Accepts options p compiled
    ∧ Image.load (LoadClass.ofProgram compiled.classes 0).1 = (log, .ok (machine.image, store))

/-- The setting of a loaded program is sound. -/
theorem Loads.sound {store : Store} {options : CompilerOptions} {p : Program}
    (h : Loads machine store options p) :
    ∃ log r, resolve p = (log, .ok r) ∧ Setting.Sound ⟨r.program, r.tree, machine.image⟩ := by
  obtain ⟨compiled, log, accepts, loaded⟩ := h
  have known : ∃ log, compileBare options p = (log, .ok compiled) := by
    cases accepts with
    | bare h => exact ⟨_, h⟩
    | whole h => exact ⟨_, h⟩
  obtain ⟨_, accepted⟩ := known
  obtain ⟨log, log', r, resolved, generated⟩ := compileBare_eq_ok accepted
  exact ⟨log, r, resolved, Setting.sound_of_load resolved generated loaded⟩

/-- Before anything has run, memory and world show the same. -/
theorem holds_start (sound : x.Sound) {classes : List LoadClass} {log : Log} {store : Store}
    (loaded : Image.load classes = (log, .ok (x.image, store))) (transcript : Transcript)
    (logging : Bool) :
    Holds x ⟨{ store, transcript, logging }, { memory := { store, transcript } }, fun _ => 0⟩ [] []
    := by
  obtain ⟨cls, known, has⟩ := sound.transcript
  obtain ⟨cls', known', rfl⟩ := Session.load_eq loaded
  cases known.symm.trans known'
  have only {r : Ref} (hr : r < 1) : r = 0 := Nat.lt_one_iff.1 hr
  refine ⟨⟨Session.coherent_of_load loaded _ rfl rfl, ⟨⟨rfl, fun r hr => ⟨hr, ?_⟩⟩, rfl, rfl⟩,
    fun f fr hf => ?_, fun f g hf => ?_, ⟨fun r hr v hv => ?_, ?_, nofun, nofun, nofun⟩⟩, .nil,
    List.forall_mem_nil _⟩
  · obtain rfl := only hr
    exact Value.Match.replicate cls.numFields
  · cases hf
  · cases hf
  · obtain rfl := only hr
    have hv : v ∈ Array.replicate cls.numFields Value.nil := hv
    rw [Array.eq_of_mem_replicate hv]
    exact .simple trivial
  · rw [known]
    exact .object has Nat.zero_lt_one Array.size_replicate

theorem blockProgram_loads :
    ∃ machine store, Loads machine store {} blockProgram := by
  obtain ⟨_, compiled, accepted, ⟨log, image, store, loaded⟩, -⟩ := blockProgram_compiles true
  exact ⟨{ image }, store, compiled, log, .bare accepted, loaded⟩

/-! ## Main results -/

/-- The answers are the same value, or the same fault. -/
inductive View.SameAnswer (s : View) : Answer → Answer → Prop where
  | value {v v' : Value} (same : s.Same v v') : SameAnswer s (.ok v) (.ok v')
  | fault (cause : Cause) : SameAnswer s (.error cause) (.error cause)

/-- A machine and an evaluator agree after a request, frames being named by activations: they give
the same answer, all objects and arrays have the same contents, the transcripts are equal, and the
variables of every frame that is there are those of its activation. -/
structure View.Agrees (s : View) (answer answer' : Answer) : Prop where
  answer : s.SameAnswer answer answer'
  store : s.memory.store.Match s.Renames s.Rows s.world.memory.store
  transcript : s.world.memory.transcript = s.memory.transcript
  locals : ∀ f fr, s.memory.frames.get? f = some fr →
    List.Forall₂ s.Same fr.locals.toList (s.world.activation (s.number f)).vars.toList
  distinct : ∀ f g, s.memory.frames.contains f → s.memory.frames.contains g →
    s.number f = s.number g → f = g

/-- What the machine has come to agrees with what the evaluator has come to. -/
def Agree (o : Machine.Outcome) (told : Answer × World) : Prop :=
  ∃ number, View.Agrees ⟨o.state.memory, told.2, number⟩ o.answer told.1

theorem Tells.agree {o : Machine.Outcome} {told : Answer × World} (h : Tells x s host o told) :
    Agree o told := by
  cases h with
  | @value s' v v' shows later same typed =>
    exact ⟨s'.number, .value same, shows.data.store, shows.data.transcript,
      fun f fr hf => (shows.frames f fr hf).2.locals, shows.distinct⟩
  | @failure s' f shows later ordinary =>
    exact ⟨s'.number, .fault f.cause, shows.data.store, shows.data.transcript,
      fun f fr hf => (shows.frames f fr hf).2.locals, shows.distinct⟩

/-- Whatever fails does so for an ordinary cause. -/
theorem Tells.ordinary {o : Machine.Outcome} {told : Answer × World} {cause : Cause}
    (h : Tells x s host o told) (failed : o.answer = .error cause) : cause.Ordinary := by
  cases h with
  | value shows later same typed => cases failed
  | failure shows later ordinary =>
    cases failed
    exact ordinary

section Loaded

variable {store : Store} {options : CompilerOptions} {p : Program}

/-- Every session with a loaded program. -/
theorem Loads.session_tells (h : Loads machine store options p) (transcript : Transcript)
    (logging : Bool) (requests : List Request) :
    ∃ log r, resolve p = (log, .ok r)
      ∧ List.Forall₂
        (fun o told => ∃ s host, Tells ⟨r.program, r.tree, machine.image⟩ s host o told)
        (machine.session { memory := { store, transcript, logging } } [] requests)
        (session ⟨r.program, r.tree, machine.image⟩ machine.maxDepth
          { memory := { store, transcript } } [] requests) := by
  obtain ⟨log, r, resolved, sound⟩ := h.sound
  obtain ⟨compiled, log', -, loaded⟩ := h
  exact ⟨log, r, resolved, Direct.session_tells rfl sound requests
    (holds_start sound loaded transcript logging)⟩

/-- **Compiled code does what the tree says.**  For every program that the compiler accepts, with
any options, any limit on the number of calls and any transcript: whatever a host asks for, one
request after another, the machine that runs the code and the evaluator of the resolved tree agree
after every request. -/
theorem compiled_as_evaluated (loaded : Loads machine store options p) (transcript : Transcript)
    (logging : Bool) (requests : List Request) :
    ∃ log r, resolve p = (log, .ok r)
      ∧ List.Forall₂ Agree
        (machine.session { memory := { store, transcript, logging } } [] requests)
        (session ⟨r.program, r.tree, machine.image⟩ machine.maxDepth
          { memory := { store, transcript } } [] requests) := by
  obtain ⟨log, r, resolved, tells⟩ := loaded.session_tells transcript logging requests
  exact ⟨log, r, resolved, tells.imp fun _ _ ⟨_, _, h⟩ => h.agree⟩

/-- A main body that asks a block for the value of a variable, run twice. -/
theorem compiled_as_evaluated_block :
    ∃ machine store, Loads machine store {} blockProgram
      ∧ ∃ log r, resolve blockProgram = (log, .ok r)
        ∧ List.Forall₂ Agree
          (machine.session { memory := { store, transcript := {}, logging := false } } []
            [.main, .main])
          (session ⟨r.program, r.tree, machine.image⟩ machine.maxDepth
            { memory := { store, transcript := {} } } [] [.main, .main]) := by
  obtain ⟨machine, store, loaded⟩ := blockProgram_loads
  exact ⟨machine, store, loaded, compiled_as_evaluated loaded {} false [.main, .main]⟩

/-- **Compiled code never trips the checks that the machine makes on its own behalf.**  Whatever a
host asks for: nothing is ever missing from an operand stack; the only internal faults are a full
call stack, a division by zero, a transcript that cannot be written to and a wrong number of
arguments; and a field is only missing where the receiver has no fields at all. -/
theorem faults_of_compiled_code (loaded : Loads machine store options p) (transcript : Transcript)
    (logging : Bool) (requests : List Request) :
    ∀ o ∈ machine.session { memory := { store, transcript, logging } } [] requests,
      ∀ cause, o.answer = .error cause →
        cause.kind ≠ .stackUnderflow
        ∧ (cause.kind = .internal → cause = .callStackOverflow ∨ cause = .divisionByZero
          ∨ cause = .transcriptClosed
          ∨ ∃ method expected given, cause = .argumentCount method expected given)
        ∧ (cause.kind = .unknownField → ∃ className, cause = .noFields className) := by
  obtain ⟨log, r, -, tells⟩ := loaded.session_tells transcript logging requests
  intro o ho cause answer
  obtain ⟨i, hi, rfl⟩ := List.mem_iff_get.1 ho
  obtain ⟨s, host, h⟩ := tells.get i.2 (tells.length_eq ▸ i.2)
  exact Cause.Ordinary.checks (h.ordinary answer)

/-- A message that an integer does not understand, after a main body that asks a block for the value
of a variable. -/
theorem faults_of_compiled_code_block :
    ∃ machine store, Loads machine store {} blockProgram
      ∧ ∀ o ∈ machine.session { memory := { store, transcript := {}, logging := false } } []
          [.main, .send 0 "value" []],
        ∀ cause, o.answer = .error cause →
          cause.kind ≠ .stackUnderflow
          ∧ (cause.kind = .internal → cause = .callStackOverflow ∨ cause = .divisionByZero
            ∨ cause = .transcriptClosed
            ∨ ∃ method expected given, cause = .argumentCount method expected given)
          ∧ (cause.kind = .unknownField → ∃ className, cause = .noFields className) := by
  obtain ⟨machine, store, loaded⟩ := blockProgram_loads
  exact ⟨machine, store, loaded,
    faults_of_compiled_code loaded {} false [.main, .send 0 "value" []]⟩

end Loaded

end Direct

end Colloquy
