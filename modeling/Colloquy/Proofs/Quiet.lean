import Mathlib.Logic.Relation
import Colloquy.Proofs.Likeness
import Colloquy.Proofs.Requests

/-!
# Runs without identity hashes

The identity of a literal is made of the place of its block and of its number there, and the
identity hash of an object shows it.  So identity hashes are the one thing by which code could tell
apart programs that differ in these numbers only.  A run, or a session, is *quiet* if no identity
hash of an object is taken in it (`Machine.Quiet`, `Machine.QuietSession`).
-/

namespace Colloquy

/-! ## Calls -/

/-- The value has an identity of its own: it is not a number, a character, a truth value or
`nil`. -/
def Value.HasIdentity : Value → Prop
  | .nil | .bool _ | .int _ | .float _ | .char _ => False
  | .string _ _ | .array _ | .block _ | .object _ _ | .cls _ => True

/-- Values without an identity have the same hash. -/
theorem Value.Like.identityHash_eq {L : Likeness} {R : Ref → Prop} {v v' : Value}
    (h : v.Like L R v') (none : ¬v.HasIdentity) : v'.identityHash = v.identityHash := by
  cases h with
  | string | array | object | cls | block => exact absurd trivial none
  | _ => rfl

/-- Calling the method takes the identity hash of an object. -/
structure Code.Hashes (code : Code) (receiver : Value) (args : List Value) : Prop where
  primitive : code.block.primitive = some .objectHash
  args : args = []
  receiver : receiver.HasIdentity

/-- A send, whose method is found by `find`, takes the identity hash of an object. -/
def Call.SendHashes (c : Call) (argc : Nat) (find : Value → Checked Code) : Prop :=
  ∃ receiver below code, c.stack.drop argc = receiver :: below ∧ find receiver = .ok code
    ∧ code.Hashes receiver (c.stack.take argc).reverse

/-- The instruction takes the identity hash of an object. -/
def Call.Hashes (c : Call) (i : Image) : Instruction → Prop
  | .send argc index => ∃ selector, c.literal index = .ok selector
    ∧ c.SendHashes argc.toNat (i.method · selector)
  | .sendSuper argc index => ∃ selector, c.literal index = .ok selector
    ∧ c.SendHashes argc.toNat (i.superMethod c.code · selector)
  | _ => False

/-! ## Runs -/

/-- The next step takes the identity hash of an object. -/
def State.Hashes (machine : Machine) (s : State) : Prop :=
  ∃ c rest j next, s.calls.calls = c :: rest
    ∧ Instruction.decodeAt c.code.block.bytecode c.ip = .ok (some (j, next))
    ∧ c.Hashes machine.image j

/-- No step of the run that starts here takes the identity hash of an object. -/
def Machine.Quiet (machine : Machine) (s : State) : Prop :=
  ∀ t, Relation.ReflTransGen (fun s t => machine.step s = .running t) s t → ¬t.Hashes machine

theorem Machine.Quiet.here {machine : Machine} {s : State} (h : machine.Quiet s) :
    ¬s.Hashes machine :=
  h s .refl

theorem Machine.Quiet.next {machine : Machine} {s t : State} (h : machine.Quiet s)
    (step : machine.step s = .running t) : machine.Quiet t :=
  fun u reaches => h u (reaches.head step)

/-! ## Sessions -/

namespace Machine

/-- Calling the method takes no identity hash of an object, neither at once nor in the run that it
starts. -/
def QuietCall (machine : Machine) (s : State) (receiver : Value) (code : Code) (args : List Value) :
    Prop :=
  ¬code.Hashes receiver args
    ∧ ∀ callee m t, invoke machine.image s.abandon.memory receiver code args = .enter callee m →
      machine.enter ⟨m, .empty⟩ callee = .running t → machine.Quiet t

/-- What the host asks for takes no identity hash of an object. -/
def QuietRequest (machine : Machine) (s : State) (host : List Value) : Request → Prop
  | .send receiver selector args =>
    ∀ code, machine.image.method (held host receiver) selector = .ok code →
      machine.QuietCall s (held host receiver) code (args.map (held host))
  | .main =>
    ∀ cls code, machine.image.byName[mainClass]? = some cls → cls.lookup mainSelector = some code →
      let made := Image.instantiate s.memory.store cls
      machine.QuietCall { s with memory := { s.memory with store := made.1 } } made.2 code []
  | .make _ | .array _ | .global _ | .element _ _ | .newInstance _ => True

/-- No identity hash of an object is taken in the whole session. -/
def QuietSession (machine : Machine) (s : State) (host : List Value) : List Request → Prop
  | [] => True
  | r :: rest =>
    let o := machine.serve s host r
    machine.QuietRequest s host r
      ∧ machine.QuietSession o.state (host ++ o.answer.toOption.toList) rest

end Machine

end Colloquy
