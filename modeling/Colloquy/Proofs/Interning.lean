import Colloquy.Proofs.Answers
import Colloquy.Proofs.Strings

/-!
# Literals are made once

Each literal of each block has a cell.  The cell is empty until an instruction uses the literal for
the first time, be it to push it, to look up a global name or a method, or to note a file; the
object that is made then stays in the cell, from one run to the next.  Here a session goes on
together with its cells and with the objects that there are (`Interned`).

Main statement: two strings are identical if and only if they are one object, so equal literals of
one block are one object, and every string that a primitive makes is an object of its own
(`equal_literals_are_one_object`).
-/

namespace Colloquy

/-! ## Cells -/

/-- The objects that there are, numbered as they are made. -/
structure Objects where
  /-- The object in the cell of a literal, which is the literal of a block with a number. -/
  cell : BlockId → Nat → Option Nat := fun _ _ => none
  /-- The object that was given an identity while running. -/
  made : Nat → Option Nat := fun _ => none
  /-- How many there are, which is the number of the next one. -/
  count : Nat := 0

namespace Objects

/-- The object with an identity. -/
def find (o : Objects) : StringId → Option Nat
  | .literal block index => o.cell block index
  | .made serial => o.made serial

/-- The object that a string is. -/
def find? (o : Objects) : Value → Option Nat
  | .string id _ => o.find id
  | _ => none

/-- The object of a literal, which is made if the cell is empty. -/
def literal (o : Objects) (block : BlockId) (index : Nat) : Objects × Nat :=
  match o.cell block index with
  | some n => (o, n)
  | none =>
    ({ o with
        cell := fun block' index' =>
          if block' = block ∧ index' = index then some o.count else o.cell block' index'
        count := o.count + 1 }, o.count)

/-- A new object with an identity. -/
def make (o : Objects) (serial : Nat) : Objects :=
  { o with
    made := fun serial' => if serial' = serial then some o.count else o.made serial'
    count := o.count + 1 }

/-- As many new objects as identities have been given out. -/
def grow (o : Objects) (first : Nat) : Nat → Objects
  | 0 => o
  | n + 1 => (o.grow first n).make (first + n)

end Objects

/-- The literal whose cell an instruction uses. -/
def Instruction.literal? : Instruction → Option UInt16
  | .pushLiteral index | .pushGlobal index | .send _ index | .sendSuper _ index
  | .debug index _ => some index
  | _ => none

/-- The cell that the next instruction of a call uses, if there is such a literal. -/
def Call.cell? (c : Call) : Option (BlockId × Nat) := do
  let .ok (some (instruction, _)) := Instruction.decodeAt c.code.block.bytecode c.ip | none
  let index ← instruction.literal?
  if (c.code.block.literal? index).isSome then some (c.code.id, index.toNat) else none

/-- The objects after a step: the cell that the instruction uses is filled, and what is made while
it is carried out comes then. -/
def Objects.step (o : Objects) (s s' : State) : Objects :=
  let o := ((s.calls.calls.head?.bind Call.cell?).map fun (block, index) =>
    (o.literal block index).1).getD o
  o.grow s.memory.serial (s'.memory.serial - s.memory.serial)

/-! ## Objects are apart -/

namespace Objects

variable {o o' o'' : Objects} {serial n : Nat} {id id' : StringId}

/-- Objects have numbers below the next one, different identities have different objects, and every
identity that has been given out has one. -/
structure Proper (o : Objects) (serial : Nat) : Prop where
  below : ∀ id n, o.find id = some n → n < o.count
  apart : ∀ id id' n, o.find id = some n → o.find id' = some n → id = id'
  given : ∀ k, (o.made k).isSome ↔ k < serial

/-- Objects stay what they are. -/
structure Extends (o o' : Objects) : Prop where
  count : o.count ≤ o'.count
  find : ∀ id n, o.find id = some n → o'.find id = some n

namespace Extends

theorem refl (o : Objects) : o.Extends o := ⟨Nat.le_refl _, fun _ _ => id⟩

theorem trans (h : o.Extends o') (h' : o'.Extends o'') : o.Extends o'' :=
  ⟨Nat.le_trans h.count h'.count, fun id n hn => h'.find id n (h.find id n hn)⟩

end Extends

/-- A new identity gets the next number. -/
theorem Proper.insert (h : o.Proper serial) {fresh : StringId} (unknown : o.find fresh = none)
    (find : ∀ id, o'.find id = if id = fresh then some o.count else o.find id)
    (count : o'.count = o.count + 1) {serial' : Nat}
    (given : ∀ k, (o'.made k).isSome ↔ k < serial') : o'.Proper serial' ∧ o.Extends o' := by
  have old {id : StringId} {n : Nat} (hn : o'.find id = some n) :
      id = fresh ∧ n = o.count ∨ o.find id = some n := by
    rw [find] at hn
    split at hn
    · exact .inl ⟨‹_›, (Option.some.inj hn).symm⟩
    · exact .inr hn
  refine ⟨⟨fun id n hn => ?_, fun id id' n hn hn' => ?_, given⟩, ?_, fun id n hn => ?_⟩
  · rw [count]
    rcases old hn with ⟨-, rfl⟩ | hn
    · exact Nat.lt_succ_self _
    · exact Nat.lt_succ_of_lt (h.below id n hn)
  · rcases old hn, old hn' with ⟨⟨rfl, rfl⟩ | hn, ⟨rfl, same⟩ | hn'⟩
    · rfl
    · exact absurd (h.below id' _ hn') (Nat.lt_irrefl _)
    · exact absurd (same ▸ h.below id n hn) (Nat.lt_irrefl _)
    · exact h.apart id id' n hn hn'
  · exact count ▸ Nat.le_succ _
  · rw [find, if_neg, hn]
    rintro rfl
    exact absurd (unknown.symm.trans hn) (Option.some_ne_none n).symm

/-- **A cell is filled once:** afterwards it has the object that is used. -/
theorem Proper.literal (h : o.Proper serial) (block : BlockId) (index : Nat) :
    (o.literal block index).1.Proper serial ∧ o.Extends (o.literal block index).1
      ∧ (o.literal block index).1.cell block index = some (o.literal block index).2 := by
  unfold Objects.literal
  split
  · exact ⟨h, .refl o, ‹_›⟩
  · rename_i empty
    let filled : Objects := { o with
      cell := fun block' index' =>
        if block' = block ∧ index' = index then some o.count else o.cell block' index'
      count := o.count + 1 }
    have finds (id : StringId) :
        filled.find id = if id = .literal block index then some o.count else o.find id := by
      cases id <;> simp [find, filled]
    obtain ⟨proper, more⟩ : filled.Proper serial ∧ o.Extends filled :=
      h.insert (show o.find (.literal block index) = none from empty) finds rfl h.given
    exact ⟨proper, more, if_pos ⟨rfl, rfl⟩⟩

theorem Proper.make (h : o.Proper serial) :
    (o.make serial).Proper (serial + 1) ∧ o.Extends (o.make serial) := by
  have unknown : o.made serial = none := by
    have := (h.given serial).not.2 (Nat.lt_irrefl serial)
    simpa using this
  refine h.insert (show o.find (.made serial) = none from unknown) (fun id => ?_) rfl fun k => ?_
  · cases id <;> simp [find, Objects.make]
  · simp only [Objects.make]
    split
    · simp [*]
    · rw [h.given]
      omega

theorem Proper.grow (h : o.Proper serial) (n : Nat) :
    (o.grow serial n).Proper (serial + n) ∧ o.Extends (o.grow serial n) := by
  induction n with
  | zero => exact ⟨h, .refl o⟩
  | succ n ih =>
    obtain ⟨proper, more⟩ := ih.1.make
    exact ⟨proper, ih.2.trans more⟩

/-- **In a step,** nothing becomes another object. -/
theorem Proper.step {s s' : State} (h : o.Proper s.memory.serial)
    (later : s.memory.serial ≤ s'.memory.serial) :
    (o.step s s').Proper s'.memory.serial ∧ o.Extends (o.step s s') := by
  have filled (cell? : Option (BlockId × Nat)) :
      ((cell?.map fun c => (o.literal c.1 c.2).1).getD o).Proper s.memory.serial
        ∧ o.Extends ((cell?.map fun c => (o.literal c.1 c.2).1).getD o) := by
    cases cell? with
    | none => exact ⟨h, .refl o⟩
    | some c =>
      obtain ⟨proper, more, -⟩ := h.literal c.1 c.2
      exact ⟨proper, more⟩
  obtain ⟨proper, more⟩ := filled (s.calls.calls.head?.bind Call.cell?)
  obtain ⟨grown, further⟩ := proper.grow (s'.memory.serial - s.memory.serial)
  rw [Nat.add_sub_cancel' later] at grown
  exact ⟨grown, more.trans further⟩

/-- **Two strings are identical if and only if they are one object.** -/
theorem Proper.identical_iff (h : o.Proper serial) {v w : Value} {m : Nat} (hv : o.find? v = some m)
    (hw : o.find? w = some n) : v.identical w = true ↔ m = n := by
  cases v with
  | string id text =>
    cases w with
    | string id' text' =>
      have hv : o.find id = some m := hv
      have hw : o.find id' = some n := hw
      rw [Value.identical, decide_eq_true_eq]
      constructor
      · rintro rfl
        exact Option.some.inj (hv.symm.trans hw)
      · rintro rfl
        exact h.apart id id' m hv hw
    | _ => cases hw
  | _ => cases hv

end Objects

/-! ## Sessions with objects -/

/-- The state in which a step leaves the machine. -/
def Progress.state : Progress → State
  | .running s | .finished _ s | .failed _ s => s

/-- A session, with the cells of its literals and the objects that there are. -/
structure Interned where
  session : Session
  objects : Objects := {}

namespace Interned

variable {machine : Machine} {x x' y y' : Interned} {code code' : Code} {v w : Value}

/-- Before anything has run, all cells are empty. -/
def start (store : Store) (transcript : Transcript) : Interned :=
  { session := Session.start store transcript }

/-- One move.  Instructions fill cells; whatever else goes on, the calls in progress are as they
were, but for a new one on top, or they are all dropped. -/
inductive Move (machine : Machine) : Interned → Interned → Prop
  | step {x x' : Session} {o : Objects} (hm : x.Move machine x')
      (stepped : (machine.step x.state).state = x'.state) :
      Move machine ⟨x, o⟩ ⟨x', o.step x.state x'.state⟩
  | other {x x' : Session} {o : Objects} (hm : x.Move machine x')
      (idle : x.state.calls.calls <:+ x'.state.calls.calls ∨ x'.state.calls.calls = []) :
      Move machine ⟨x, o⟩ ⟨x', o.grow x.state.memory.serial
        (x'.state.memory.serial - x.state.memory.serial)⟩

theorem Move.session (hm : x.Move machine x') : x.session.Move machine x'.session := by
  cases hm with
  | step hm | other hm => exact hm

/-- **Whatever a session does, it does with objects.** -/
theorem exists_move {s t : Session} (hm : s.Move machine t) (o : Objects) :
    ∃ o', Move machine ⟨s, o⟩ ⟨t, o'⟩ := by
  have steps (stepped : (machine.step s.state).state = t.state) :
      ∃ o', Move machine ⟨s, o⟩ ⟨t, o'⟩ := ⟨_, .step hm stepped⟩
  have others (idle : s.state.calls.calls <:+ t.state.calls.calls ∨ t.state.calls.calls = []) :
      ∃ o', Move machine ⟨s, o⟩ ⟨t, o'⟩ := ⟨_, .other hm idle⟩
  cases hm with
  | step hs | finish hs | fail hs =>
    refine steps ?_
    show (machine.step _).state = _
    rw [hs]
    rfl
  | abandon => exact others (.inr rfl)
  | @enter m m' calls callee s' host hist asks hs =>
    obtain ⟨-, call, entered⟩ := Machine.calls_of_enter hs
    exact others (.inl ⟨[call], entered.symm⟩)
  | answer | plain | string | array | object | read | write | forget =>
    exact others (.inl (List.suffix_refl _))
  | census => exact others (.inl (List.suffix_refl _))

theorem exists_reached {store : Store} {transcript : Transcript} {s : Session}
    (reached : Relation.ReflTransGen (Session.Move machine) (.start store transcript) s) :
    ∃ o, Relation.ReflTransGen (Move machine) (start store transcript) ⟨s, o⟩ := by
  induction reached with
  | refl => exact ⟨_, .refl⟩
  | tail _ hm ih =>
    obtain ⟨o, reached⟩ := ih
    obtain ⟨o', moved⟩ := exists_move hm o
    exact ⟨o', reached.tail moved⟩

/-- What is true of the objects in a session. -/
def Proper (x : Interned) : Prop := x.objects.Proper x.session.state.memory.serial

/-- **Objects stay what they are.** -/
theorem Proper.move (h : x.Proper) (hm : x.Move machine x') :
    x'.Proper ∧ x.objects.Extends x'.objects := by
  have later := hm.session.serial_le
  cases hm with
  | step => exact Objects.Proper.step h later
  | other =>
    obtain ⟨grown, more⟩ := Objects.Proper.grow h _
    rw [Nat.add_sub_cancel' later] at grown
    exact ⟨grown, more⟩

theorem Proper.moves (h : x.Proper) (reached : Relation.ReflTransGen (Move machine) x y) :
    y.Proper ∧ x.objects.Extends y.objects := by
  induction reached with
  | refl => exact ⟨h, .refl _⟩
  | tail _ hm ih =>
    obtain ⟨proper, more⟩ := ih.1.move hm
    exact ⟨proper, ih.2.trans more⟩

theorem proper_start (store : Store) (transcript : Transcript) :
    (start store transcript).Proper where
  below id n hn := by cases id <;> cases hn
  apart id id' n hn := by cases id <;> cases hn
  given k := by simp [start, Session.start, Machine.start]

/-! ## Pushing literals and making strings -/

/-- In the step from the first session to the other one, the code pushes the value for a literal. -/
inductive Pushes (machine : Machine) : Interned → Code → Value → Interned → Prop
  | intro {x x' : Session} {o : Objects} {code : Code} {v : Value} (hm : x.Move machine x')
      (stepped : (machine.step x.state).state = x'.state)
      (pushes : machine.PushesLiteral x.state code v) :
      Pushes machine ⟨x, o⟩ code v ⟨x', o.step x.state x'.state⟩

/-- In the move from the first session to the other one, a primitive makes the string. -/
structure Makes (machine : Machine) (x : Interned) (v : Value) (x' : Interned) : Prop where
  move : x.Move machine x'
  makes : Session.MakesString machine x.session v x'.session

theorem Pushes.move (h : Pushes machine x code v x') : x.Move machine x' := by
  cases h with
  | intro hm stepped => exact .step hm stepped

/-- **What is pushed is the object in the cell of the literal,** which is a new one if the cell was
empty. -/
theorem Pushes.fills (h : Pushes machine x code v x') (proper : x.Proper) :
    ∃ index text n, v = .string (.literal code.id index) text
      ∧ code.block.literals[index]? = some text
      ∧ x'.objects.cell code.id index = some n
      ∧ (x.objects.cell code.id index = some n
        ∨ x.objects.cell code.id index = none ∧ n = x.objects.count) := by
  cases h with
  | @intro x x' o code v hm stepped pushes =>
    obtain ⟨c, rest, index, next, text, innermost, rfl, decoded, found, rfl⟩ := pushes.reads
    have cell : x.state.calls.calls.head?.bind Call.cell? = some (c.code.id, index.toNat) := by
      rw [innermost]
      simp [Call.cell?, decoded, Instruction.literal?, found]
    obtain ⟨filled, -, there⟩ := Objects.Proper.literal proper c.code.id index.toNat
    obtain ⟨-, more⟩ := filled.grow (x'.state.memory.serial - x.state.memory.serial)
    refine ⟨index.toNat, text, (o.literal c.code.id index.toNat).2, rfl, found, ?_, ?_⟩
    · rw [Objects.step, cell]
      exact more.find (.literal c.code.id index.toNat) _ there
    · simp only [Objects.literal]
      cases before : o.cell c.code.id index.toNat with
      | some n => exact .inl rfl
      | none => exact .inr ⟨rfl, rfl⟩

/-- **A string that is made is a new object.** -/
theorem Makes.new (h : Makes machine x v x') (proper : x.Proper) :
    ∃ n, x'.objects.find? v = some n ∧ ∀ id, x.objects.find id ≠ some n := by
  obtain ⟨text, rfl, next⟩ := h.makes.made
  obtain ⟨proper', more⟩ := proper.move h.move
  have given : (x'.objects.made x.session.state.memory.serial).isSome := by
    rw [proper'.given, next]
    exact Nat.lt_succ_self _
  obtain ⟨n, hn⟩ := Option.isSome_iff_exists.1 given
  refine ⟨n, hn, fun id known => ?_⟩
  -- the identity is not one that had been given out
  cases proper'.apart id (.made x.session.state.memory.serial) n (more.find id n known) hn
  have before := (proper.given x.session.state.memory.serial).1
    (Option.isSome_iff_exists.2 ⟨n, known⟩)
  exact Nat.lt_irrefl _ before

/-- What is true of strings from a session on, if `ms` are the methods of the program. -/
structure Interns (machine : Machine) (ms : List Block) (x : Interned) : Prop where
  /-- Strings are identical if and only if they are one object. -/
  identical : ∀ v w m n, x.objects.find? v = some m → x.objects.find? w = some n →
    (v.identical w = true ↔ m = n)
  /-- Objects stay what they are. -/
  kept : ∀ y, Relation.ReflTransGen (Move machine) x y → ∀ id n,
    x.objects.find id = some n → y.objects.find id = some n
  /-- What is pushed is the object in the cell, a new one if the cell was empty. -/
  pushed : ∀ code v x', Pushes machine x code v x' → ∃ index text n,
    v = .string (.literal code.id index) text ∧ code.block.literals[index]? = some text
      ∧ x'.objects.cell code.id index = some n
      ∧ (x.objects.cell code.id index = some n
        ∨ x.objects.cell code.id index = none ∧ ∀ id, x.objects.find id ≠ some n)
  /-- A string that a primitive makes is a new object. -/
  made : ∀ v x', Makes machine x v x' →
    ∃ n, x'.objects.find? v = some n ∧ ∀ id, x.objects.find id ≠ some n
  /-- What is pushed now and what is pushed then are one object if and only if the block is the
  same, and the text. -/
  literals : ∀ code v x' y code' w y', Pushes machine x code v x' →
    Relation.ReflTransGen (Move machine) x' y → Pushes machine y code' w y' →
    code.Of ms → code'.Of ms → ∃ a b text text' m n, v = .string a text ∧ w = .string b text'
      ∧ y'.objects.find? v = some m ∧ y'.objects.find? w = some n
      ∧ (v.identical w = true ↔ m = n) ∧ (m = n ↔ code.id = code'.id ∧ text = text')

theorem Proper.interns {ms : List Block} (h : x.Proper) (distinct : ∀ m ∈ ms, m.Distinct) :
    x.Interns machine ms where
  identical _ _ _ _ := h.identical_iff
  kept y reached := (h.moves reached).2.find
  pushed code v x' pushes := by
    obtain ⟨index, text, n, string, found, there, before⟩ := pushes.fills h
    refine ⟨index, text, n, string, found, there, before.imp_right fun ⟨empty, new⟩ => ?_⟩
    exact ⟨empty, fun id known => absurd (new ▸ h.below id n known) (Nat.lt_irrefl _)⟩
  made _ _ makes := makes.new h
  literals code v x' y code' w y' pushes between pushes' hc hc' := by
    obtain ⟨index, text, m, rfl, found, there, -⟩ := pushes.fills h
    obtain ⟨proper', -⟩ := h.move pushes.move
    obtain ⟨proper, more⟩ := proper'.moves between
    obtain ⟨index', text', n, rfl, found', there', -⟩ := pushes'.fills proper
    obtain ⟨last, further⟩ := proper.move pushes'.move
    have hv : y'.objects.find? (.string (.literal code.id index) text) = some m :=
      further.find _ m (more.find (.literal code.id index) m there)
    have hw : y'.objects.find? (.string (.literal code'.id index') text') = some n := there'
    have same := last.identical_iff hv hw
    refine ⟨_, _, text, text', m, n, rfl, rfl, hv, hw, same, same.symm.trans ?_⟩
    rw [Value.identical, decide_eq_true_eq]
    exact Machine.literal_eq_iff distinct hc hc' found found'

end Interned

/-- **Equal literals of one block are one object.**  Compile a program, with the class library in
front of it or without, and load it.

Whenever literals are pushed while the machine serves its host, the code that pushes them is a
method, a main body or a nested block of the program, and the strings are identical if and only if
they were pushed by the same of these and have the same text.

What the machine does then, it does with cells for the literals and with objects
(`Interned.Interns`): two strings are identical if and only if they are one object; a literal that
is pushed is the object in its cell, which stays there and is a new one if the cell was empty; and a
string that a primitive makes, in a run or for the host, is a new object.  It is never identical to
a literal, nor to a string that a primitive makes later. -/
theorem equal_literals_are_one_object {options : CompilerOptions} {p : Program} {log log' : Log}
    {compiled : CompiledProgram} {machine : Machine} {store : Store}
    (accepted : compileBare options p = (log, .ok compiled))
    (loaded : Image.load (LoadClass.ofProgram compiled.classes 0).1
      = (log', .ok (machine.image, store))) :
    (∀ t u code code' v w, machine.ComesBy store t → machine.ComesBy store u →
      machine.PushesLiteral t code v → machine.PushesLiteral u code' w →
      codeAt (compiled.classes.flatMap (·.methods)) code.id = some code.block
      ∧ codeAt (compiled.classes.flatMap (·.methods)) code'.id = some code'.block
      ∧ ∃ a b text text', v = .string a text ∧ w = .string b text'
        ∧ (v.identical w = true ↔ code.id = code'.id ∧ text = text'))
    ∧ (∀ t, machine.ComesBy store t → ∃ transcript x,
      Relation.ReflTransGen (Interned.Move machine) (Interned.start store transcript) x
        ∧ x.session.state = t)
    ∧ (∀ transcript x,
      Relation.ReflTransGen (Interned.Move machine) (Interned.start store transcript) x →
      x.Interns machine (compiled.classes.flatMap (·.methods)))
    ∧ ∀ x v x', Session.MakesString machine x v x' →
      Session.Move machine x x' ∧ (∃ a text, v = .string a text)
      ∧ (∀ t code w, machine.PushesLiteral t code w →
        v.identical w = false ∧ w.identical v = false)
      ∧ ∀ y w y', Relation.ReflTransGen (Session.Move machine) x' y →
        Session.MakesString machine y w y' → v.identical w = false ∧ w.identical v = false := by
  refine ⟨fun t u code code' v w ht hu pushes pushes' => ?_, fun t ht => ?_,
    fun transcript x reached => ?_, fun x v x' made =>
    ⟨made.move, ?_, fun t code w => made.not_literal, fun y w y' => made.not_identical⟩⟩
  · have hc := pushes.of (ht.of loaded)
    have hc' := pushes'.of (hu.of loaded)
    exact ⟨hc, hc', pushes.identical_iff (compiled_distinct accepted) pushes' hc hc'⟩
  · obtain ⟨transcript, requests, s, host, r, call, after, asked, visits⟩ := ht
    obtain ⟨x, reached, rfl⟩ := Machine.reached_of_visits loaded after asked visits
    obtain ⟨o, interned⟩ := Interned.exists_reached reached
    exact ⟨transcript, ⟨x, o⟩, interned, rfl⟩
  · obtain ⟨proper, -⟩ := (Interned.proper_start store transcript).moves reached
    exact proper.interns (compiled_distinct accepted)
  · obtain ⟨text, rfl, -⟩ := made.made
    exact ⟨_, text, rfl⟩

/-! ### A program -/

/-- The classes that a machine cannot do without, and a method that mentions a string twice. -/
def greetProgram : Program :=
  { classes :=
      { name := "Object"
        methods := [{ selector := "greet"
                      kind := .code { stats := [.expr (.literal (.string "hi")),
                        .ret (.literal (.string "hi")) {}] } }] }
        :: ["UndefinedObject", "Boolean", "Integer", "Float", "Character", "String", "Array",
          "TranscriptStream", "BlockDescriptor"].map fun name => { name } }

/-- The code of the method. -/
def greetCode (qualified : String) : Code :=
  { block := { name := "greet", qualified, literals := #["hi"]
               bytecode := Instruction.encodeAll
                 #[.pushLiteral 0, .pop, .pushLiteral 0, .ret, .pop, .pushSelf, .ret] }
    id := { method := 0 }
    owner := some 0 }

theorem greetCode_reads (qualified : String) :
    Instruction.decodeAt (greetCode qualified).block.bytecode 0 = .ok (some (.pushLiteral 0, 3))
      ∧ Instruction.decodeAt (greetCode qualified).block.bytecode 3 = .ok (some (.pop, 4))
      ∧ Instruction.decodeAt (greetCode qualified).block.bytecode 4
        = .ok (some (.pushLiteral 0, 7)) := by
  simp only [greetCode]
  decide

theorem greetProgram_loads : ∃ log compiled log' image store qualified,
    compileBare { debugInfo := false } greetProgram = (log, .ok compiled)
      ∧ Image.load (LoadClass.ofProgram compiled.classes 0).1 = (log', .ok (image, store))
      ∧ image.method .nil "greet" = .ok (greetCode qualified) := by
  simp [greetProgram, greetCode, compileBare, resolve, Resolve.program, Resolve.classes,
    Resolve.cls, Resolve.methods, Resolve.method, Resolve.inheritedFields, Resolve.superclassOf,
    Resolve.addFields, Resolve.check, Resolve.addScope, Resolve.openCode, Resolve.checkVars,
    Resolve.body, Resolve.stats, Resolve.stat, Resolve.expr, Resolve.maxSlots, rootClass,
    ScopeTree.globalId, ScopeTree.add, ScopeTree.empty, generate, Emit.program, Emit.cls,
    Emit.method, Emit.scopeOf, Emit.qualifiedName, Emit.report, Emit.withTable, Emit.inBlock,
    Emit.stats, Emit.stat, Emit.mark, Emit.expr, Emit.constant, Emit.literal, Emit.instruction,
    Emit.statsAfter, Emit.warnAfter, Emit.returnPosition, Emit.finish, Emit.takeBlocks,
    Emit.tableBlocks, Emit.check, LiteralPool.insert, LiteralPool.capacity, ScopeTree.qualifiedName,
    ScopeTree.get?, LoadClass.ofProgram, LoadClass.ofCompiled, Image.load, Image.installAll,
    Image.install, Image.inherited, Image.linkAll, Image.link, Image.finish, Image.knownClasses,
    Image.required, Image.method, Image.methodFrom, Image.classOf, Class.lookup, Class.chain,
    Image.instantiate, Value.isClass, Std.HashMap.getElem_insert, bind, EStateM.bind, pure,
    EStateM.pure, EStateM.get_apply, modify, EStateM.modifyGet_apply, throw, throwThe,
    MonadExceptOf.throw, Except.bind, Except.pure]

/-- The method pushes one object twice; and the host has `nil` written out twice, as two objects. -/
theorem equal_literals_are_one_object_greet : ∃ (machine : Machine) (store : Store)
    (t u v w : Interned) (code : Code) (hi a b : Value) (m : Nat) (x y z : Session),
    machine.ComesBy store t.session.state ∧ Interned.Pushes machine t code hi u
      ∧ Relation.ReflTransGen (Interned.Move machine) u v ∧ Interned.Pushes machine v code hi w
      ∧ w.objects.find? hi = some m
      ∧ Session.MakesString machine x a y ∧ Session.MakesString machine y b z
      ∧ a.identical b = false ∧ a.identical hi = false := by
  obtain ⟨log, compiled, log', image, store, qualified, accepted, loaded, found⟩ :=
    greetProgram_loads
  let code := greetCode qualified
  let slot : Slot Value :=
    { generation := 1, frame := some (Frame.ofMethod .nil code .nil [] none ⟨0, 1⟩) }
  let memory : Memory := { frames := { slots := #[slot], live := 1, birth := 1 }, store }
  let state (ip : Nat) (current : Option Nat) (stack : List Value) : State :=
    ⟨memory, .of [⟨⟨0, 1⟩, code, ip, current, stack⟩]⟩
  let hi : Value := .string (.literal { method := 0 } 0) "hi"
  obtain ⟨reads₁, reads₂, reads₃⟩ := greetCode_reads qualified
  have step₁ : Machine.step { image } (state 0 none []) = .running (state 3 (some 0) [hi]) :=
    Machine.step_next rfl reads₁ rfl
  have step₂ : Machine.step { image } (state 3 (some 0) [hi]) = .running (state 4 (some 3) []) :=
    Machine.step_next rfl reads₂ rfl
  have step₃ : Machine.step { image } (state 4 (some 3) []) = .running (state 7 (some 4) [hi]) :=
    Machine.step_next rfl reads₃ rfl
  have entered : Machine.Visits { image } (Machine.start store {}) (.send .nil "greet" [])
      (state 0 none []) := by
    have invoked : invoke image (Machine.start store {}).abandon.memory .nil code []
        = .enter (.method code .nil []) { store } := rfl
    refine .send found (.entered invoked ?_)
    rw [Machine.enter_eq (show 0 < 10000 by decide)]
    simp only [Arena.alloc_empty]
    rfl
  have comesBy {t : State}
      (visits : Machine.Visits { image } (Machine.start store {}) (.send .nil "greet" []) t) :
      Machine.ComesBy { image } store t :=
    ⟨{}, [], _, [], .send 0 "greet" [], _, rfl, rfl, visits⟩
  have pushes : Machine.PushesLiteral { image } (state 0 none []) code hi :=
    .intro (c := ⟨⟨0, 1⟩, code, 0, none, []⟩) rfl reads₁ step₁ rfl rfl
  have pushes' : Machine.PushesLiteral { image } (state 4 (some 3) []) code hi :=
    .intro (c := ⟨⟨0, 1⟩, code, 4, some 3, []⟩) rfl reads₃ step₃ rfl rfl
  have shown (m : Memory) {host : List Value} (there : .nil ∈ host) :
      Session.MakesString { image } ⟨⟨m, .empty⟩, host, {}⟩ (m.newString "nil").2
        ⟨⟨(m.newString "nil").1, .empty⟩, (m.newString "nil").2 :: host, {}⟩ := by
    have written : Primitive.apply .objectAsString image m .nil []
        = .answer (m.newString "nil").2 (m.newString "nil").1 := rfl
    exact .ask (by decide) there (List.forall_mem_nil _) written
  obtain ⟨pairs, sessions, interns, strings⟩ :=
    @equal_literals_are_one_object _ _ _ _ _ { image } _ accepted loaded
  obtain ⟨transcript, ⟨⟨s, host, h⟩, o⟩, reached, first⟩ := sessions _ (comesBy entered)
  obtain rfl : s = state 0 none [] := first
  -- the two pushes, with the pop between them
  have step {s s' : State} (hs : Machine.step { image } s = .running s') (h : History) :
      Session.Move { image } ⟨s, host, h⟩ ⟨s', host, (h.making s).calling s s'⟩ := .step hs
  obtain ⟨u, v, w, first, between, second⟩ : ∃ u v w : Interned,
      Interned.Pushes { image } ⟨⟨state 0 none [], host, h⟩, o⟩ code hi u
        ∧ Interned.Move { image } u v ∧ Interned.Pushes { image } v code hi w :=
    ⟨_, _, _, .intro (step step₁ h) (congrArg Progress.state step₁) pushes,
      .step (step step₂ _) (congrArg Progress.state step₂),
      .intro (step step₃ _) (congrArg Progress.state step₃) pushes'⟩
  have made := shown memory (List.mem_singleton.2 rfl)
  have made' := shown (memory.newString "nil").1
    (List.mem_cons_of_mem (memory.newString "nil").2 (List.mem_singleton.2 rfl))
  obtain ⟨-, -, apart, others⟩ := strings _ _ _ made
  have of : code.Of (compiled.classes.flatMap (·.methods)) :=
    (pairs _ _ _ _ _ _ (comesBy entered) (comesBy entered) pushes pushes).1
  obtain ⟨-, -, -, -, m, -, -, -, there, -⟩ :=
    (interns transcript _ reached).literals _ _ _ _ _ _ _ first (.single between) second of of
  exact ⟨{ image }, store, _, _, _, _, code, hi, _, _, m, _, _, _, comesBy entered, first,
    .single between, second, there, made, made', (others _ _ _ .refl made').1,
    (apart _ _ _ pushes).1⟩

end Colloquy
