import Colloquy.Proofs.CallStack
import Colloquy.Proofs.Compile.Layout
import Colloquy.Proofs.LoadedCode

/-!
# Dispatch

A send is answered by the nearest definition of its selector on the chain of a class: the class of
the receiver, or the superclass of the class that the sending code belongs to.  Loading ties every
method to the class that defines it, and with it the blocks nested in the method, so a `super` send
goes up from there whatever block it stands in and whatever its receiver is.

* `Class.Nearest`, `Class.Dispatches` — which definition answers, and what happens if none does;
* `Image.Owned` — what loading makes of owners (`Image.load_owned`);
* `Machine.step_sends` — a send calls what its lookup finds, or fails as the lookup does.

Main statement: `dispatch_climbs`.
-/

namespace Colloquy

/-! ## The nearest definition -/

namespace Class

variable {start owner c d : Class} {selector : String} {code : Code} {receiver : Value}

/-- Of the classes from `start` up, `owner` is the first one to define the selector. -/
structure Nearest (start : Class) (selector : String) (owner : Class) (code : Code) : Prop where
  defines : owner.info.methods[selector]? = some code
  first : ∃ nearer, start.chain = nearer ++ owner.chain
    ∧ ∀ info ∈ nearer, info.methods[selector]? = none

/-- `d` is a superclass of `c`, perhaps an indirect one. -/
def StrictlyInherits (c d : Class) : Prop :=
  Relation.TransGen (fun a b => a.superclass? = some b) c d

theorem lookup_eq_some_iff :
    start.lookup selector = some code ↔ ∃ owner, start.Nearest selector owner code := by
  rw [lookup, List.findSome?_eq_some_iff]
  constructor
  · rintro ⟨nearer, info, above, here, defines, none⟩
    exact ⟨⟨info, above⟩, defines, nearer, here, none⟩
  · rintro ⟨owner, defines, nearer, here, none⟩
    exact ⟨nearer, owner.info, owner.above, here, defines, none⟩

theorem lookup_eq_none_iff :
    start.lookup selector = none ↔ ∀ info ∈ start.chain, info.methods[selector]? = none :=
  List.findSome?_eq_none_iff

theorem superclass?_eq_some_iff : c.superclass? = some d ↔ c.above = d.chain := by
  obtain ⟨info, above⟩ := c
  obtain ⟨info', above'⟩ := d
  cases above with
  | nil => simp [superclass?, chain]
  | cons first rest => simp [superclass?, chain]

/-- What stands further up on the chain is inherited. -/
theorem inherits_of_chain {nearer : List ClassInfo} (h : c.chain = nearer ++ d.chain) :
    c.Inherits d := by
  induction nearer generalizing c with
  | nil =>
    obtain ⟨info, above⟩ := c
    obtain ⟨info', above'⟩ := d
    cases h
    exact .refl
  | cons info nearer ih =>
    obtain ⟨info', above⟩ := c
    obtain ⟨rfl, rest⟩ := List.cons.inj h
    cases above with
    | nil =>
      have : d.chain ≠ [] := by simp [chain]
      simp_all
    | cons first rest' => exact .head rfl (ih (c := ⟨first, rest'⟩) rest)

theorem Nearest.inherits (h : start.Nearest selector owner code) : start.Inherits owner := by
  obtain ⟨nearer, here, -⟩ := h.first
  exact inherits_of_chain here

instance : IsTrans Class StrictlyInherits := ⟨fun _ _ _ => Relation.TransGen.trans⟩

/-- A superclass has fewer superclasses. -/
theorem StrictlyInherits.above_lt (h : c.StrictlyInherits d) : d.above.length < c.above.length := by
  induction h with
  | single link => simp [superclass?_eq_some_iff.1 link, chain]
  | tail _ link ih =>
    have := superclass?_eq_some_iff.1 link
    rw [this, chain, List.length_cons] at ih
    omega

/-- What looking up a selector for a receiver comes to, from class `start` up. -/
inductive Dispatches (start : Class) (receiver : Value) (selector : String) :
    Checked Code → Prop where
  | found {owner : Class} {code : Code} (nearest : start.Nearest selector owner code)
      (side : code.block.classSide = receiver.isClass) :
      Dispatches start receiver selector (.ok code)
  /-- The nearest definition is for the class and the receiver is an instance. -/
  | toInstance {owner : Class} {code : Code} {cause : Cause}
      (nearest : start.Nearest selector owner code) (side : code.block.classSide = true)
      (instance_ : receiver.isClass = false) (kind : cause.kind = .classMessageSentToInstance) :
      Dispatches start receiver selector (.error cause)
  /-- The nearest definition is for instances and the receiver is a class. -/
  | toClass {owner : Class} {code : Code} {cause : Cause}
      (nearest : start.Nearest selector owner code) (side : code.block.classSide = false)
      (class_ : receiver.isClass = true) (kind : cause.kind = .messageNotUnderstood) :
      Dispatches start receiver selector (.error cause)
  | missing {cause : Cause} (none : ∀ info ∈ start.chain, info.methods[selector]? = none)
      (kind : cause.kind = .messageNotUnderstood) :
      Dispatches start receiver selector (.error cause)

/-- What looking up a selector above a class comes to. -/
inductive DispatchesAbove (c : Class) (receiver : Value) (selector : String)
    (result : Checked Code) : Prop where
  | up {above : Class} (link : c.superclass? = some above)
      (dispatches : above.Dispatches receiver selector result)
  | top {cause : Cause} (none : c.superclass? = none) (failed : result = .error cause)
      (kind : cause.kind = .messageNotUnderstood)

end Class

namespace Image

variable (i : Image) (receiver : Value) (selector : String)

theorem methodFrom_dispatches (start : Class) (whom : String) :
    start.Dispatches receiver selector (i.methodFrom start whom receiver selector) := by
  unfold methodFrom
  cases found : start.lookup selector with
  | none => exact .missing (Class.lookup_eq_none_iff.1 found) rfl
  | some code =>
    obtain ⟨owner, nearest⟩ := Class.lookup_eq_some_iff.1 found
    dsimp only
    cases side : code.block.classSide <;> cases hr : receiver.isClass
    · exact .found nearest (side.trans hr.symm)
    · exact .toClass nearest side hr rfl
    · exact .toInstance nearest side hr rfl
    · exact .found nearest (side.trans hr.symm)

/-- **An ordinary send looks from the class of its receiver up.** -/
theorem method_dispatches :
    (i.classOf receiver).Dispatches receiver selector (i.method receiver selector) :=
  i.methodFrom_dispatches receiver selector _ _

/-- **A `super` send looks above the class that its code belongs to.** -/
theorem superMethod_dispatches {code : Code} {c : Class} (owned : i.owner? code = some c) :
    c.DispatchesAbove receiver selector (i.superMethod code receiver selector) := by
  cases link : c.superclass? with
  | none =>
    simp only [superMethod, owned, link]
    exact .top link rfl rfl
  | some above =>
    simp only [superMethod, owned, link]
    exact .up link (i.methodFrom_dispatches receiver selector above _)

end Image

/-! ## Owners -/

/-- `inner` is `outer` or a block nested in it, at any depth. -/
def Code.Encloses (outer inner : Code) : Prop :=
  Relation.ReflTransGen (fun a b => ∃ index, a.nested? index = some b) outer inner

theorem Code.owner_nested {c inner : Code} {index : Nat} (h : c.nested? index = some inner) :
    inner.owner = c.owner := by
  obtain ⟨b, -, rfl⟩ := Option.map_eq_some_iff.1 h
  rfl

theorem Code.Encloses.owner {outer inner : Code} (h : outer.Encloses inner) :
    inner.owner = outer.owner := by
  induction h with
  | refl => rfl
  | tail _ nested ih =>
    obtain ⟨index, nested⟩ := nested
    exact (owner_nested nested).trans ih

namespace Image

/-- The classes have their places as numbers, come with their superclasses, and own the methods that
they define. -/
structure Owned (classes : Array Class) : Prop where
  ids : ∀ (k : Nat) (cls : Class), classes[k]? = some cls → cls.id = k
  above : ∀ cls ∈ classes, ∀ up, cls.superclass? = some up → up ∈ classes
  methods : ∀ cls ∈ classes, ∀ (selector : String) (code : Code),
    cls.info.methods[selector]? = some code → code.owner = some cls.id

namespace Owned

variable {classes : Array Class} {cls d : Class} {selector : String} {method code : Code}

theorem getElem? (h : Owned classes) (hc : cls ∈ classes) : classes[cls.id]? = some cls := by
  obtain ⟨k, hk⟩ := Array.mem_iff_getElem?.1 hc
  rw [h.ids k cls hk, hk]

theorem inherits (h : Owned classes) (hc : cls ∈ classes) (up : cls.Inherits d) : d ∈ classes := by
  induction up with
  | refl => exact hc
  | tail _ link ih => exact h.above _ ih _ link

/-- A loaded class owns its methods and the blocks nested in them. -/
theorem owner? {i : Image} (h : Owned i.classes) (hc : cls ∈ i.classes)
    (defines : cls.info.methods[selector]? = some method) (inside : method.Encloses code) :
    i.owner? code = some cls := by
  rw [Image.owner?, inside.owner, h.methods cls hc selector method defines]
  exact h.getElem? hc

end Owned

/-- What loading keeps to: `next` is the number of the next method. -/
structure Loader.Owned (next : Nat) (l : Loader) : Prop where
  classes : Image.Owned l.classes
  named : ∀ (name : String) (cls : Class), l.byName[name]? = some cls → cls ∈ l.classes
  fresh : ∀ n, next ≤ n → l.owners[n]? = none

/-- Methods with new numbers belong to the class that is being loaded. -/
theorem linkAll_owned {cls : ClassId} {next : Nat} {table : Std.HashMap String Code}
    {owners : Std.HashMap Nat ClassId} (blocks : List Block) (log : Log)
    (ht : ∀ (selector : String) (code : Code), table[selector]? = some code → code.owner = some cls)
    (fresh : ∀ n, next ≤ n → owners[n]? = none) :
    (∀ (selector : String) (code : Code),
      (linkAll cls ((blocks.zipIdx next).map fun (b, n) => (n, b)) table owners log).1[selector]?
        = some code → code.owner = some cls)
    ∧ ∀ n, next + blocks.length ≤ n →
      (linkAll cls ((blocks.zipIdx next).map fun (b, n) => (n, b)) table owners log).2.1[n]?
        = none := by
  induction blocks generalizing next table owners with
  | nil => exact ⟨ht, fresh⟩
  | cons b blocks ih =>
    have linked : link cls next b owners log
        = (⟨b, { method := next }, some cls⟩, owners.insert next cls, log) := by
      simp only [link, fresh next (Nat.le_refl next)]
    have fresh' : ∀ n, next + 1 ≤ n → (owners.insert next cls)[n]? = none := fun n hn => by
      rw [Std.HashMap.getElem?_insert, if_neg (by simp; omega), fresh n (by omega)]
    have ht' := forall_insert ht (a := ⟨b, { method := next }, some cls⟩) rfl b.name
    obtain ⟨owned, later⟩ := ih ht' fresh'
    rw [List.zipIdx_cons, List.map_cons, linkAll]
    simp only [linked]
    exact ⟨owned, fun n hn => later n (by rw [List.length_cons] at hn; omega)⟩

/-- The superclass of a new class has been loaded before. -/
theorem mem_of_inherited {l : Loader} {next : Nat} {c : LoadClass} {above : List ClassInfo}
    (h : l.Owned next) (found : inherited l.byName c = .ok above) {info : ClassInfo} {up : Class}
    (link : Class.superclass? ⟨info, above⟩ = some up) : up ∈ l.classes := by
  have same : above = up.chain := Class.superclass?_eq_some_iff.1 link
  unfold inherited at found
  split at found
  · cases found
    cases link
  · split at found
    · rename_i known named
      cases found
      obtain ⟨info, rest⟩ := known
      obtain ⟨info', rest'⟩ := up
      cases same
      exact h.named _ _ named
    · cases found

/-- **Loading one more class** keeps to it. -/
theorem install_owned {l l' : Loader} {next : Nat} {c : CompiledClass} (h : l.Owned next)
    (installed : install l (LoadClass.ofCompiled next c) = .ok l') :
    l'.Owned (next + c.methods.length) := by
  unfold install at installed
  split at installed
  · cases installed
  · rename_i above found
    cases installed
    have none (selector : String) (code : Code)
        (found : ({} : Std.HashMap String Code)[selector]? = some code) :
        code.owner = some l.classes.size := by simp at found
    obtain ⟨owned, fresh⟩ := linkAll_owned c.methods l.log none h.fresh
    have old {cls : Class} (hc : cls ∈ l.classes) (new : Class) : cls ∈ l.classes.push new :=
      Array.mem_push_of_mem _ hc
    refine ⟨⟨fun k cls hk => ?_, fun cls hc up link => ?_, fun cls hc selector code defines => ?_⟩,
      fun name cls hcls => ?_, fresh⟩
    · rw [Array.getElem?_push] at hk
      split at hk
      · cases hk
        exact (‹k = _›).symm
      · exact h.classes.ids k cls hk
    · rcases Array.mem_push.1 hc with hc | rfl
      · exact old (h.classes.above cls hc up link) _
      · exact old (mem_of_inherited h found link) _
    · rcases Array.mem_push.1 hc with hc | rfl
      · exact h.classes.methods cls hc selector code defines
      · exact owned selector code defines
    · dsimp only at hcls
      rw [Std.HashMap.getElem?_insert] at hcls
      split at hcls
      · cases hcls
        exact Array.mem_push_self
      · exact old (h.named name cls hcls) _

theorem installAll_owned {cs : List CompiledClass} {l l' : Loader} {next : Nat} {log : Log}
    (h : l.Owned next) (installed : installAll (LoadClass.ofProgram cs next).1 l = (log, .ok l')) :
    Owned l'.classes := by
  induction cs generalizing l next with
  | nil =>
    cases installed
    exact h.classes
  | cons c cs ih =>
    rw [LoadClass.ofProgram, installAll] at installed
    split at installed
    · cases installed
    · rename_i l₁ first
      exact ih (install_owned h first) installed

/-- **Loading ties methods to the classes that define them.** -/
theorem load_owned {cs : List CompiledClass} {image : Image} {store : Store} {log : Log}
    (loaded : load (LoadClass.ofProgram cs 0).1 = (log, .ok (image, store))) :
    Owned image.classes := by
  obtain ⟨_, l, installed, finished⟩ := Direct.load_eq_ok loaded
  have empty : ({} : Loader).Owned 0 := ⟨⟨by simp, by simp, by simp⟩, by simp, by simp⟩
  obtain ⟨known, -, finished⟩ := Checked.bind_eq_ok.1 finished
  obtain ⟨cls, -, finished⟩ := Checked.bind_eq_ok.1 finished
  cases finished
  exact installAll_owned empty installed

end Image

/-! ## Chains of `super` sends -/

/-- `method'` answers a `super` send in `method` or in a block nested in it. -/
def Image.Climbs (i : Image) (method method' : Code) : Prop :=
  ∃ code receiver selector, method.Encloses code
    ∧ i.superMethod code receiver selector = .ok method'

namespace Image.Owned

variable {i : Image} {cls : Class} {name selector : String} {method method' code : Code}
  {receiver : Value}

/-- **What a `super` send finds belongs to a class further up.** -/
theorem superMethod (h : Owned i.classes) (hc : cls ∈ i.classes)
    (defines : cls.info.methods[name]? = some method) (inside : method.Encloses code)
    (found : i.superMethod code receiver selector = .ok method') :
    ∃ above owner, cls.superclass? = some above ∧ above.Nearest selector owner method'
      ∧ owner ∈ i.classes ∧ cls.StrictlyInherits owner := by
  have dispatches := i.superMethod_dispatches receiver selector (h.owner? hc defines inside)
  rw [found] at dispatches
  cases dispatches with
  | top _ failed _ => cases failed
  | up link dispatches =>
    cases dispatches with
    | found nearest side =>
      have inherits := nearest.inherits
      exact ⟨_, _, link, nearest, h.inherits (h.above cls hc _ link) inherits, .head' link inherits⟩

/-- **A chain of `super` sends only ever goes up**, and so comes to an end. -/
theorem climbs (h : Owned i.classes) (hc : cls ∈ i.classes)
    (defines : cls.info.methods[name]? = some method) {later : List Code}
    (chain : (method :: later).IsChain i.Climbs) :
    ∃ owners : List Class, List.Forall₂ (fun m owner => i.owner? m = some owner) later owners
      ∧ (cls :: owners).Pairwise Class.StrictlyInherits ∧ later.length ≤ cls.above.length := by
  simp only [← List.isChain_iff_pairwise]
  induction later generalizing cls name method with
  | nil => exact ⟨[], .nil, .singleton cls, Nat.zero_le _⟩
  | cons method' later ih =>
    obtain ⟨⟨code, receiver, selector, inside, found⟩, chain⟩ := List.isChain_cons_cons.1 chain
    obtain ⟨_, owner, _, nearest, ho, up⟩ := h.superMethod hc defines inside found
    obtain ⟨owners, owned, ups, few⟩ := ih ho nearest.defines chain
    refine ⟨owner :: owners, .cons (h.owner? ho nearest.defines .refl) owned,
      List.isChain_cons_cons.2 ⟨up, ups⟩, ?_⟩
    have := up.above_lt
    rw [List.length_cons]
    omega

end Image.Owned

/-! ## Sends -/

/-- The innermost call is about to send a message, as an ordinary send or to `super`: it has the
arguments on top of its operands, and the receiver below them. -/
structure State.Sending (s : State) (toSuper : Bool) (c : Call) (receiver : Value)
    (selector : String) (args : List Value) : Prop where
  innermost : ∃ rest, s.calls.calls = c :: rest
  operands : ∃ below, c.stack = args.reverse ++ receiver :: below
  instruction : ∃ (argc index : UInt16) (next : Nat), argc.toNat = args.length
    ∧ c.literal index = .ok selector
    ∧ Instruction.decodeAt c.code.block.bytecode c.ip
      = .ok (some (if toSuper then .sendSuper argc index else .send argc index, next))

namespace Machine

variable {machine : Machine} {s : State} {c : Call} {receiver : Value} {selector : String}
  {args : List Value}

/-- The method that a send in a call is answered with. -/
def answering (machine : Machine) (c : Call) (toSuper : Bool) (receiver : Value)
    (selector : String) : Checked Code :=
  if toSuper then machine.image.superMethod c.code receiver selector
  else machine.image.method receiver selector

/-- A step calls the method on the receiver with the arguments, and the innermost call goes on with
what that replies; or it fails for the given cause. -/
def Calls (machine : Machine) (s : State) (c : Call) (receiver : Value) (args : List Value) :
    Checked Code → Prop
  | .ok code => ∃ (rest : List Call) (below : List Value) (next : Nat) (m : Memory),
    s.calls.calls = c :: rest ∧ s.memory.Logs m ∧ machine.step s = machine.carryOut (c.moved next)
      rest ((invoke machine.image m receiver code args).effect below)
  | .error cause => ∃ f t, machine.step s = .failed f t ∧ f.cause = cause

/-- **A send calls what its lookup finds**, or fails as the lookup does. -/
theorem step_sends {toSuper : Bool} (h : s.Sending toSuper c receiver selector args) :
    machine.Calls s c receiver args (machine.answering c toSuper receiver selector) := by
  obtain ⟨m, calls⟩ := s
  obtain ⟨⟨rest, innermost⟩, ⟨below, operands⟩, argc, index, next, arity, named, decoded⟩ := h
  have innermost : calls.calls = c :: rest := innermost
  rw [calls.eq_of, innermost]
  obtain ⟨m₀, noted, stepped⟩ := machine.step_eq m rest decoded
  have under : (c.moved next).stack.drop argc.toNat = receiver :: below := by
    show c.stack.drop argc.toNat = receiver :: below
    rw [operands, arity, List.drop_left' (by simp)]
  have given : ((c.moved next).stack.take argc.toNat).reverse = args := by
    show (c.stack.take argc.toNat).reverse = args
    rw [operands, arity, List.take_left' (by simp), List.reverse_reverse]
  have named : (c.moved next).literal index = .ok selector := named
  -- both kinds of send go through the same steps once the method has been looked up
  have executed : (c.moved next).execute machine.image m₀
      (if toSuper then .sendSuper argc index else .send argc index)
      = (c.moved next).send machine.image m₀ argc.toNat selector
        fun v => machine.answering c toSuper v selector := by
    cases toSuper with
    | false => simp only [Call.execute, named, answering, Bool.false_eq_true, if_false]
    | true =>
      simp only [Call.execute, named, answering, if_true]
      rfl
  rw [executed] at stepped
  cases found : machine.answering c toSuper receiver selector with
  | error cause =>
    simp only [Call.send, under, found] at stepped
    exact ⟨_, _, stepped, rfl⟩
  | ok code =>
    simp only [Call.send, under, found, given] at stepped
    generalize hm : m₀.trace _ = m₁ at stepped
    have logged : m₀.Logs m₁ := hm ▸ .trace m₀ _
    refine ⟨rest, below, next, m₁, rfl, noted.trans logged, stepped.trans ?_⟩
    cases invoke machine.image m₁ receiver code args <;> rfl

end Machine

/-- The code of a frame is that of its home or nested in it. -/
theorem Arena.Anchored.encloses {a : Arena Value} {f h : FrameId} {fr : Frame Value}
    (anchored : a.Anchored f h) (here : a.get? f = some fr) :
    ∃ home, a.get? h = some home ∧ home.enclosing = none ∧ home.code.Encloses fr.code := by
  obtain ⟨home, there, outermost, -⟩ := anchored.anchored_home
  refine ⟨home, there, outermost, ?_⟩
  cases anchored with
  | method =>
    cases here.symm.trans there
    exact .refl
  | block here' _ _ _ _ nested =>
    cases here.symm.trans here'
    obtain ⟨home', index, there', nested⟩ := nested
    cases there.symm.trans there'
    exact .single ⟨index, nested⟩

/-- **Every call in progress runs code of the method that its frame belongs to.** -/
theorem Session.Coherent.encloses {machine : Machine} {x : Session} (hx : x.Coherent machine)
    {c : Call} (hc : c ∈ x.state.calls.calls) :
    ∃ fr home, x.state.memory.frames.get? c.frame = some fr
      ∧ x.state.memory.frames.get? fr.home = some home ∧ home.enclosing = none
      ∧ home.code.Encloses c.code := by
  obtain ⟨R, hx⟩ := hx
  have running := hx.arena.running c hc
  obtain ⟨fr, here⟩ := running.active.exists_frame
  obtain ⟨home, there, outermost, encloses⟩ := (hx.arena.frames c.frame fr here).2.encloses here
  exact ⟨fr, home, here, there, outermost, running.code fr here ▸ encloses⟩

/-- **Dispatch finds the nearest definition, and `super` always climbs.**  When an accepted program
is loaded: each class has the methods that were compiled for it, and owns them and the blocks nested
in them; all along a session, a call in progress runs the method of its home or a block nested in
it; a send calls what its lookup finds or fails as the lookup does, whether an instruction or the
host makes it; an ordinary send is answered by the nearest definition from the class of its receiver
up, if that is for receivers of its kind, and else by none; a `super` send in a method of a class,
or in a block nested in it, is answered in the same way from the superclass of that class up,
whatever its receiver is, and so by a method of a strict superclass; and a chain of `super` sends
comes by ever higher classes, so there are no more of them than the class has superclasses. -/
theorem dispatch_climbs {options : CompilerOptions} {p : Program} {log log' : Log}
    {compiled : CompiledProgram} {machine : Machine} {store : Store}
    (accepted : compile options p = (log, .ok compiled))
    (loaded : Image.load (LoadClass.ofProgram compiled.classes 0).1
      = (log', .ok (machine.image, store))) :
    List.Forall₂ (fun (c : CompiledClass) (cls : Class) => cls.name = c.name
        ∧ (∀ selector : String, (cls.info.methods[selector]?).map Code.block
          = c.methods.reverse.find? (·.name = selector))
        ∧ ∀ (selector : String) (method code : Code), cls.info.methods[selector]? = some method →
          method.Encloses code → machine.image.owner? code = some cls)
      compiled.classes machine.image.classes.toList
    ∧ (∀ transcript x,
      Relation.ReflTransGen (Session.Move machine) (Session.start store transcript) x →
      ∀ c ∈ x.state.calls.calls, ∃ fr home, x.state.memory.frames.get? c.frame = some fr
        ∧ x.state.memory.frames.get? fr.home = some home ∧ home.enclosing = none
        ∧ home.code.Encloses c.code)
    ∧ (∀ s toSuper c receiver selector args, s.Sending toSuper c receiver selector args →
      machine.Calls s c receiver args (machine.answering c toSuper receiver selector))
    ∧ (∀ s receiver selector args, machine.send s receiver selector args
      = match machine.image.method receiver selector with
        | .ok code => machine.perform s receiver code args
        | .error cause => .failure (s.failure cause) s)
    ∧ (∀ c receiver selector, machine.answering c false receiver selector
        = machine.image.method receiver selector
      ∧ (machine.image.classOf receiver).Dispatches receiver selector
        (machine.image.method receiver selector))
    ∧ ∀ cls ∈ machine.image.classes, ∀ (name : String) (method : Code),
      cls.info.methods[name]? = some method →
      (∀ c receiver selector, method.Encloses c.code →
        cls.DispatchesAbove receiver selector (machine.answering c true receiver selector)
        ∧ ∀ code, machine.answering c true receiver selector = .ok code →
          ∃ above owner, cls.superclass? = some above ∧ above.Nearest selector owner code
            ∧ cls.StrictlyInherits owner ∧ machine.image.owner? code = some owner)
      ∧ ∀ later, (method :: later).IsChain machine.image.Climbs →
        ∃ owners : List Class,
          List.Forall₂ (fun m owner => machine.image.owner? m = some owner) later owners
          ∧ (cls :: owners).Pairwise Class.StrictlyInherits
          ∧ later.length ≤ cls.above.length := by
  have owned := Image.load_owned loaded
  refine ⟨?_, fun transcript x reached c hc => ?_, fun s toSuper c receiver selector args =>
    Machine.step_sends, fun s receiver selector args => rfl, fun c receiver selector => ⟨rfl,
    machine.image.method_dispatches receiver selector⟩, fun cls hc name method defines =>
    ⟨fun c receiver selector inside => ⟨?_, fun code found => ?_⟩,
      fun later => owned.climbs hc defines⟩⟩
  · obtain ⟨_, σ, log'', image, store', -, -, -, -, loaded', each, -⟩ := load_laid accepted
    rw [loaded] at loaded'
    cases loaded'
    have members := (List.forall₂_and_left (p := (· ∈ machine.image.classes.toList)) _ _).2
      ⟨fun _ hc => hc, each.flip⟩
    refine members.flip.imp fun c cls here => ⟨here.2.name, here.2.methods,
      fun selector method code defines inside => ?_⟩
    exact owned.owner? (Array.mem_toList_iff.1 here.1) defines inside
  · exact (Session.linked_of_reached loaded reached).1.encloses hc
  · exact machine.image.superMethod_dispatches receiver selector (owned.owner? hc defines inside)
  · obtain ⟨above, owner, link, nearest, ho, up⟩ := owned.superMethod hc defines inside found
    exact ⟨above, owner, link, nearest, up, owned.owner? ho nearest.defines .refl⟩

/-- Pixels own the method that they define, and `super` sends in it look among points. -/
theorem dispatch_climbs_pixels : ∃ (machine : Machine) (cls : Class) (code : Code) (q : String),
    cls.name = "Pixel" ∧ cls.info.methods["show"]? = some code ∧ code.block = showBlock q
      ∧ machine.image.owner? code = some cls
      ∧ cls.DispatchesAbove .nil "y" (machine.image.superMethod code .nil "y") := by
  obtain ⟨log, compiled, accepted, -, ⟨b, hb, bname, -, q, bmethods⟩, -⟩ := pixelProgram_compiles
  obtain ⟨_, _, log', image, store, -, -, -, -, loaded, -⟩ := load_laid accepted
  let machine : Machine := { image }
  have dispatch := @dispatch_climbs _ _ _ _ _ machine _ accepted loaded
  obtain ⟨cls, hc, name, methods, owns⟩ := forall₂_exists_of_mem dispatch.1 hb
  have found := methods "show"
  rw [bmethods] at found
  obtain ⟨code, here, block⟩ := Option.map_eq_some_iff.1 found
  have climbs := (dispatch.2.2.2.2.2 cls (Array.mem_toList_iff.1 hc) "show" code here).1
    { frame := default, code } .nil "y" .refl
  exact ⟨machine, cls, code, q, name.trans bname, here, block, owns "show" code code here .refl,
    climbs.1⟩

end Colloquy
