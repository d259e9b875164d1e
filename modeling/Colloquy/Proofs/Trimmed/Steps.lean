import Colloquy.Proofs.Trimmed.Images

/-!
# Runs of a program and of what is left of it

Both machines carry out the same instructions until they come to a return, and what stands behind
the return is never carried out: a return ends the call, or it fails.  Nested blocks are made under
the numbers that they have in their programs, from the tables of the methods whose frames are the
homes.

Main statement: machines that have loaded images which correspond stay in step
(`Trimming.Sound.inStep`).
-/

namespace Colloquy

open Primitive (Agree)

variable {T : Trimming} {machine machine' : Machine} {m m' : Memory} {c c' : Call} {i : Image}

/-! ## Returns -/

namespace Call

/-- An instruction that returns changes no memory. -/
theorem memory_of_escape {j : Instruction} {stack : List Value} {v : Value} {m₁ : Memory}
    (h : c.execute i m j = .escape stack v m₁) : m₁ = m := by
  have does := c.execute_does i m j
  rw [h] at does
  cases does with
  | escape => rfl
  | @send _ receiver args _ code m₂ _ _ _ _ replies =>
    cases reply : invoke i m₂ receiver code args <;> rw [reply] at replies <;> cases replies

/-- A call does not go on behind a return. -/
theorem not_goesOn_ret : ¬(c.execute i m .ret).GoesOn := by
  cases top : c.stack <;> simp [Call.execute, top, Effect.GoesOn]

end Call

/-! ## Instructions -/

theorem Code.Encloses.method_eq {outer inner : Code} (h : outer.Encloses inner) :
    inner.id.method = outer.id.method := by
  induction h with
  | refl => rfl
  | tail _ nested ih =>
    obtain ⟨index, nested⟩ := nested
    obtain ⟨b, -, rfl⟩ := Option.map_eq_some_iff.1 nested
    exact ih

/-- A closure is made of the frame and of a block nested in the code of its home. -/
theorem Memory.closure_eq_ok {f : FrameId} {fr home : Frame Value} {n : Code} {k : Nat}
    (here : m.frames.get? f = some fr) (there : m.frames.get? fr.home = some home)
    (nested : home.code.nested? k = some n) :
    m.closure f k = .ok ⟨m.serial, n, f, fr.home, fr.receiver⟩ := by
  have found {g : FrameId} {gr : Frame Value} (held : m.frames.get? g = some gr) :
      m.frame g = .ok gr := by rw [Memory.frame, held]
  simp only [Memory.closure, found here, found there, nested, bind, Except.bind]
  rfl

/-- The frame in the other memory. -/
theorem Memory.UpTo.exists_frame {K : Correspondence} (hm : m.UpTo K m') {f : FrameId}
    {fr : Frame Value} (here : m.frames.get? f = some fr) :
    ∃ fr', m'.frames.get? f = some fr' ∧ fr.UpTo K fr' := by
  have both := hm.frames.get? f
  rw [here] at both
  generalize m'.frames.get? f = o at both
  cases both with
  | some hf => exact ⟨_, rfl, hf⟩

namespace Trimming.Sound

variable (sound : T.Sound)
include sound

/-- **Closures over nested blocks** correspond if the number of the second was that of the first. -/
theorem closure (hm : m.UpTo T.correspondence m') (homed : c.Homed m)
    (hc : c.Level T.correspondence c') {k : Nat}
    (known : ∀ b ∈ T.short[c'.code.id.method]?, k < b.blocks.size) :
    Agree (Closure.Trim T) (m.closure c.frame (T.number c'.code.id.method k))
      (m'.closure c'.frame k) := by
  obtain ⟨fr, home, here, there, outermost, encloses⟩ := homed
  obtain ⟨fr', here', hf⟩ := hm.exists_frame here
  obtain ⟨home', there', hh⟩ := hm.exists_frame there
  have code : home.code.TrimMethod T home'.code := hh.method outermost
  have same : home'.code.id.method = c'.code.id.method := by
    rw [← code.method_eq, ← encloses.method_eq, Code.Trim.method_eq hc.code]
  have inTable : k < home'.code.block.blocks.size := by
    refine known _ ?_
    have placed := code.here'
    rw [codeAt, blockAt_eq, code.method, same] at placed
    obtain ⟨b, short, own⟩ := Option.bind_eq_some_iff.1 placed
    cases own
    exact short
  obtain ⟨n, n', nested, nested', trim⟩ := code.nested? sound inTable
  rw [same] at nested
  rw [Memory.closure_eq_ok here there nested, hc.frame,
    Memory.closure_eq_ok here' (hf.home ▸ there') nested']
  exact .mk hm.data.serial trim rfl hf.home hf.receiver

/-- A literal of what is left is a literal of the whole. -/
theorem literal (hc : c.Level T.correspondence c') {l : UInt16}
    (below : l.toNat < c'.code.block.literals.size) :
    ∃ s, c.literal l = .ok s ∧ c'.literal l = .ok s := by
  obtain ⟨rest, pool⟩ := (Code.Trim.block hc.code sound).literals
  have entry' : c'.code.block.literals[l.toNat]? = some c'.code.block.literals[l.toNat] :=
    Array.getElem?_eq_getElem below
  have entry : c.code.block.literals[l.toNat]? = some c'.code.block.literals[l.toNat] := by
    rw [← Array.getElem?_toList, ← pool, List.getElem?_append_left (by simpa using below),
      Array.getElem?_toList, entry']
  refine ⟨c'.code.block.literals[l.toNat], ?_, ?_⟩
  · rw [Call.literal, Block.literal?, entry]
  · rw [Call.literal, Block.literal?, entry']

/-- **The instructions that are left** come to what they came to before. -/
theorem instruction (hm : m.UpTo T.correspondence m') (homed : c.Homed m)
    (hc : c.Level T.correspondence c') {j j' : Instruction}
    (h : Instruction.Renumbered (T.number c'.code.id.method) c'.code.block.literals.size j j')
    (known : ∀ b ∈ T.short[c'.code.id.method]?, ∀ k : UInt16, j' = .block k →
      k.toNat < b.blocks.size) :
    Instruction.UpTo T.correspondence c m c' m' j j' := by
  cases h with
  | @block k k' number =>
    refine .block ?_
    rw [number]
    exact sound.closure hm homed hc fun b hb => known b hb k' rfl
  | same below =>
    cases j with
    | pushLiteral l =>
      obtain ⟨s, named, named'⟩ := sound.literal hc below
      have ids : StringId.Trim T (.literal c.code.id l.toNat) (.literal c'.code.id l.toNat) := by
        rw [Code.Trim.id hc.code]
        exact .literal _ _
      exact .pushLiteral named named' ids
    | pushGlobal l =>
      obtain ⟨s, named, named'⟩ := sound.literal hc below
      exact .pushGlobal named named'
    | send argc l =>
      obtain ⟨s, named, named'⟩ := sound.literal hc below
      exact .send argc named named'
    | sendSuper argc l =>
      obtain ⟨s, named, named'⟩ := sound.literal hc below
      exact .sendSuper argc named named'
    | block k => exact absurd below (Nat.not_lt_zero _)
    | _ => exact .same trivial

/-! ## Steps -/

/-- **One step** is taken by both. -/
theorem step (h : machine.UpTo T.correspondence machine') {x : Session} {s' : State}
    (hx : x.Coherent machine) (hs : x.state.InStep T.correspondence s')
    (quiet : ¬x.state.Hashes machine) :
    Progress.UpTo T.correspondence (machine.step x.state) (machine'.step s') := by
  have homes {c : Call} (hc : c ∈ x.state.calls.calls) : c.Homed x.state.memory := hx.encloses hc
  clear hx
  generalize x.state = s at hs quiet homes
  obtain ⟨m, calls⟩ := s
  obtain ⟨m', calls'⟩ := s'
  obtain ⟨hm, hcs⟩ := hs
  rw [calls.eq_of] at quiet homes ⊢
  rw [calls'.eq_of]
  dsimp only at hm hcs homes
  generalize calls.calls = cs at hcs quiet homes
  generalize calls'.calls = cs' at hcs
  cases hcs with
  | nil =>
    have states : State.UpTo T.correspondence ⟨m, .of []⟩ ⟨m', .of []⟩ := ⟨hm, .nil⟩
    exact states.fail (.same _)
  | @cons c c' cs cs' hc hcs =>
    obtain ⟨is, is', reads, reads', trims, known⟩ := hc.ahead
    have homed : c.Homed m := homes List.mem_cons_self
    -- what both machines do with the instructions that they read
    have both {j j' : Instruction} {next next' : Nat}
        (decoded : Instruction.decodeAt c.code.block.bytecode c.ip = .ok (some (j, next)))
        (decoded' : Instruction.decodeAt c'.code.block.bytecode c'.ip = .ok (some (j', next')))
        (renumbered : Instruction.Renumbered (T.number c'.code.id.method)
          c'.code.block.literals.size j j')
        (known : ∀ b ∈ T.short[c'.code.id.method]?, ∀ k : UInt16, j' = .block k →
          k.toNat < b.blocks.size)
        (ahead : j ≠ .ret → ∃ is is', Code.Ahead T c.code next c'.code next' is is') :
        Progress.UpTo T.correspondence (machine.step ⟨m, .of (c :: cs)⟩)
          (machine'.step ⟨m', .of (c' :: cs')⟩) := by
      obtain ⟨m₀, logs, stepped⟩ := machine.step_eq m cs decoded
      obtain ⟨m₀', logs', stepped'⟩ := machine'.step_eq m' cs' decoded'
      have level : (c.moved next).Level T.correspondence (c'.moved next') :=
        ⟨hc.frame, hc.code, hc.stack⟩
      have noted := hm.relog logs logs'
      have homed₀ : (c.moved next).Homed m₀ := by
        obtain ⟨fr, home, here, there, outermost, encloses⟩ := homed
        exact ⟨fr, home, logs.frames ▸ here, logs.frames ▸ there, outermost, encloses⟩
      have effects := level.execute sound.lawful noted h.image
        (sound.instruction noted homed₀ level renumbered known)
        fun hashes => quiet ⟨c, cs, j, next, rfl, decoded, hashes⟩
      rw [stepped, stepped']
      refine h.carryOut sound.lawful level hcs effects (fun goesOn => ahead ?_)
        fun stack v m₁ escapes => ?_
      · rintro rfl
        exact Call.not_goesOn_ret goesOn
      · rw [Call.memory_of_escape escapes]
        exact homed₀
    cases trims with
    | nil => exact Machine.UpTo.stepPastEnd sound.lawful hm hc.toLevel hcs reads.ended reads'.ended
    | @cons j j' is is' renumbered rest =>
      obtain ⟨next, decoded, later⟩ := reads.uncons
      obtain ⟨next', decoded', later'⟩ := reads'.uncons
      refine both decoded decoded' renumbered (fun b hb k same => ?_)
        fun _ => ⟨is, is', later, later', rest, fun b hb k hk => ?_⟩
      · exact known b hb k (same ▸ List.mem_cons_self)
      · exact known b hb k (List.mem_cons_of_mem _ hk)
    | ret is is' =>
      obtain ⟨next, decoded, -⟩ := reads.uncons
      obtain ⟨next', decoded', -⟩ := reads'.uncons
      exact both decoded decoded' (.same trivial) (fun b hb k same => by cases same)
        fun other => absurd rfl other

/-- **Machines that have loaded a program and what is left of it** stay in step. -/
theorem inStep (h : machine.UpTo T.correspondence machine') :
    machine.InStep T.correspondence machine' :=
  ⟨h, sound.lawful, sound.step h⟩

end Trimming.Sound

end Colloquy
