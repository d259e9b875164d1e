import Colloquy.Proofs.Answers
import Colloquy.Proofs.Correspondence.Sessions
import Colloquy.Proofs.Trimmed.Compiled

/-!
# Images of a program and of what is left of it

A `Trimming` names the methods of two programs, the second of which has fewer nested blocks, and
says what number each of these had before.  It gives a correspondence between their runs
(`Trimming.correspondence`): code corresponds to the code with the number that it had before, a
literal to the same literal of that code, and the same is ahead in both up to a return.  Faults are
the same but for the names of blocks (`Cause.Akin`).

Main statements: the correspondence is lawful (`Trimming.Sound.lawful`), and loading both programs
ends in the same fault or in images that correspond (`CompiledProgram.CutAt.load`).
-/

namespace Colloquy

open Instruction (Reads)
open Primitive (Agree)

/-! ## Faults -/

/-- The faults are the same but for the names of the blocks that they mention. -/
inductive Cause.Akin : Cause → Cause → Prop where
  | same (e : Cause) : Akin e e
  | blockArgumentCount (block block' : String) (expected given : Nat) :
      Akin (.blockArgumentCount block expected given) (.blockArgumentCount block' expected given)
  | cannotReturn (cls block block' : String) (method : Option String) :
      Akin (.cannotReturn cls block method) (.cannotReturn cls block' method)

theorem Cause.Akin.kind {e e' : Cause} (h : e.Akin e') : e'.kind = e.kind := by
  cases h <;> rfl

/-! ## Trimmings -/

/-- The methods of two programs, by number, and the number that a nested block of the second program
had in the table of its method before. -/
structure Trimming where
  full : List Block
  short : List Block
  number : Nat → Nat → Nat

/-- Something has been left out of methods, behind returns. -/
structure Trimming.Sound (T : Trimming) : Prop where
  injective : ∀ m, Function.Injective (T.number m)
  methods : ∀ m, Option.Rel (Block.OuterTrims (T.number m)) T.full[m]? T.short[m]?

/-- The identity that a block of the second program had in the first. -/
def Trimming.before (T : Trimming) (id : BlockId) : BlockId :=
  { id with path := id.path.map (T.number id.method) }

/-- The code of the first program that stands for code of the second. -/
structure Code.Trim (T : Trimming) (c c' : Code) : Prop where
  id : c.id = T.before c'.id
  owner : c'.owner = c.owner
  here : codeAt T.full c.id = some c.block
  here' : codeAt T.short c'.id = some c'.block

/-- The same, of methods. -/
structure Code.TrimMethod (T : Trimming) (c c' : Code) : Prop extends Code.Trim T c c' where
  method : c'.id.path = []

/-- The strings are one string made while running, or one literal of one block. -/
inductive StringId.Trim (T : Trimming) : StringId → StringId → Prop where
  | made (serial : Nat) : Trim T (.made serial) (.made serial)
  | literal (id : BlockId) (k : Nat) : Trim T (.literal (T.before id) k) (.literal id k)

/-- The closures were made at the same time by the same frame. -/
inductive Closure.Trim (T : Trimming) : Closure Value → Closure Value → Prop where
  | mk {c c' : Closure Value} (serial : c'.serial = c.serial) (code : c.code.Trim T c'.code)
      (enclosing : c'.enclosing = c.enclosing) (home : c'.home = c.home)
      (receiver : c.receiver.Like
        ⟨StringId.Trim T, Class.UpTo (Code.TrimMethod T), Code.TrimMethod T, fun _ => Trim T⟩
        (fun _ => True) c'.receiver) : Trim T c c'

/-- The instructions ahead are the same up to a return, and the nested blocks that are named are
there. -/
structure Code.Ahead (T : Trimming) (c : Code) (ip : Nat) (c' : Code) (ip' : Nat)
    (is is' : List Instruction) : Prop where
  reads : Reads c.block.bytecode ip is c.block.bytecode.size
  reads' : Reads c'.block.bytecode ip' is' c'.block.bytecode.size
  trims : Instruction.Trims (T.number c'.id.method) c'.block.literals.size is is'
  known : ∀ m ∈ T.short[c'.id.method]?, ∀ k : UInt16, .block k ∈ is' → k.toNat < m.blocks.size

/-- How runs of the two programs correspond. -/
def Trimming.correspondence (T : Trimming) : Correspondence where
  ids := StringId.Trim T
  classes := Class.UpTo (Code.TrimMethod T)
  codes := Code.TrimMethod T
  closures _ := Closure.Trim T
  code := Code.Trim T
  ahead c ip c' ip' := ∃ is is', Code.Ahead T c ip c' ip' is is'
  faults := Cause.Akin

variable {T : Trimming} {c c' : Code} {id id' : BlockId}

/-! ## Code by its identity -/

/-- If blocks in the table have no tables of their own, paths have one step. -/
theorem Block.path_eq_nil_of_at? {m b : Block} {k : Nat} {path : List Nat}
    (flat : ∀ (j : Nat) (b : Block), m.blocks[j]? = some b → b.blocks = #[])
    (here : m.at? (k :: path) = some b) : path = [] := by
  induction path generalizing k b with
  | nil => rfl
  | cons j path ih =>
    obtain ⟨outer, around, inner⟩ := Option.bind_eq_some_iff.1 here
    obtain rfl : path = [] := ih around
    rw [flat j outer around] at inner
    simp at inner

namespace Trimming

theorem before_injective (sound : T.Sound) : Function.Injective T.before := by
  rintro ⟨m, path⟩ ⟨m', path'⟩ same
  obtain ⟨methods, paths⟩ := BlockId.mk.inj same
  obtain rfl : m = m' := methods
  exact congrArg (BlockId.mk m) (List.map_injective_iff.2 (sound.injective m) paths)

namespace Sound

variable (sound : T.Sound)
include sound

/-- Code of the second program is that of a method, or of a block in the table of one. -/
theorem exists_method {b : Block} (here : codeAt T.short id = some b) :
    ∃ m m', T.full[id.method]? = some m ∧ T.short[id.method]? = some m'
      ∧ m.OuterTrims (T.number id.method) m'
      ∧ ((id.path = [] ∧ b = m') ∨ ∃ k, id.path = [k] ∧ m'.blocks[k]? = some b) := by
  obtain ⟨n, path⟩ := id
  have methods := sound.methods n
  rw [codeAt, blockAt_eq] at here
  obtain ⟨m', short, here⟩ := Option.bind_eq_some_iff.1 here
  dsimp only at short ⊢
  rw [short] at methods
  generalize T.full[n]? = o at methods
  cases methods with
  | @some m _ trims =>
    refine ⟨m, m', rfl, short, trims, ?_⟩
    cases path with
    | nil => exact .inl ⟨rfl, (Option.some.inj here).symm⟩
    | cons k path =>
      have flat (j : Nat) (b : Block) (entry : m'.blocks[j]? = some b) : b.blocks = #[] := by
        have nested := trims.nested j
        rw [entry] at nested
        generalize m.blocks[T.number n j]? = o at nested
        cases nested with
        | some inner => exact inner.flat'
      obtain rfl : path = [] := Block.path_eq_nil_of_at? flat here
      exact .inr ⟨k, rfl, here⟩

/-- Methods keep their names. -/
theorem head {n : Nat} {b b' : Block} (here : T.full[n]? = some b) (here' : T.short[n]? = some b') :
    b.SameHead b' := by
  have methods := sound.methods n
  rw [here, here'] at methods
  cases methods with
  | some trims => exact trims.head

/-- **What is left of the code with a given identity.** -/
theorem trims_of_here {b b' : Block} (here : codeAt T.full (T.before id) = some b)
    (here' : codeAt T.short id = some b') :
    b.Trims (T.number id.method) b' ∧ (id.path = [] → b.SameHead b') := by
  obtain ⟨m, m', full, short, trims, place⟩ := sound.exists_method here'
  obtain ⟨n, path⟩ := id
  rw [codeAt, blockAt_eq] at here
  dsimp only [before] at *
  rw [full, Option.bind_some] at here
  rcases place with ⟨rfl, rfl⟩ | ⟨k, rfl, entry⟩
  · cases here
    exact ⟨trims.trims, fun _ => trims.head⟩
  · have nested := trims.nested k
    have here : m.blocks[T.number n k]? = some b := here
    rw [entry, here] at nested
    cases nested with
    | some inner => exact ⟨inner.trims, fun path => absurd path (List.cons_ne_nil _ _)⟩

end Sound

end Trimming

namespace Code

theorem Trim.method_eq (h : c.Trim T c') : c.id.method = c'.id.method := by
  rw [h.id]
  rfl

theorem Trim.block (h : c.Trim T c') (sound : T.Sound) :
    c.block.Trims (T.number c'.id.method) c'.block :=
  (sound.trims_of_here (h.id ▸ h.here) h.here').1

theorem TrimMethod.head (h : c.TrimMethod T c') (sound : T.Sound) : c.block.SameHead c'.block :=
  (sound.trims_of_here (h.id ▸ h.here) h.here').2 h.method

/-- **A nested block of what is left of a method** corresponds to the one with its old number. -/
theorem TrimMethod.nested? (h : c.TrimMethod T c') (sound : T.Sound) {k : Nat}
    (known : k < c'.block.blocks.size) : ∃ n n', c.nested? (T.number c'.id.method k) = some n
      ∧ c'.nested? k = some n' ∧ n.Trim T n' := by
  obtain ⟨m, m', full, short, trims, place⟩ := sound.exists_method h.here'
  obtain rfl : c'.block = m' := by
    rcases place with ⟨-, same⟩ | ⟨k, path, -⟩
    · exact same
    · rw [h.method] at path
      cases path
  have method : c.id = c'.id := by
    rw [h.id, Trimming.before, h.method]
    exact congrArg (BlockId.mk _) h.method.symm
  have own : c.block = m := by
    have here := h.here
    rw [codeAt, blockAt_eq, method, h.method, full] at here
    exact (Option.some.inj here).symm
  have nested := trims.nested k
  have entry' : c'.block.blocks[k]? = some c'.block.blocks[k] := Array.getElem?_eq_getElem known
  rw [← own, entry'] at nested
  cases entry : c.block.blocks[T.number c'.id.method k]? with
  | none =>
    rw [entry] at nested
    cases nested
  | some b =>
    rw [Code.nested?, Code.nested?, entry, entry', method]
    have path : T.before { c'.id with path := k :: c'.id.path }
        = { c'.id with path := T.number c'.id.method k :: c'.id.path } := by
      simp only [Trimming.before, h.method, List.map_cons, List.map_nil]
    refine ⟨_, _, rfl, rfl, path.symm, h.owner, ?_, ?_⟩
    · show (blockAt T.full c'.id.method c'.id.path).bind _ = some b
      have here : blockAt T.full c'.id.method c'.id.path = some c.block := method ▸ h.here
      rw [here]
      exact entry
    · show (blockAt T.short c'.id.method c'.id.path).bind _ = _
      have here : blockAt T.short c'.id.method c'.id.path = some c'.block := h.here'
      rw [here]
      exact entry'

end Code

/-! ## The correspondence -/

namespace Trimming.Sound

variable (sound : T.Sound)
include sound

/-- Before code has run, all of it is ahead. -/
theorem ahead (h : c.Trim T c') : ∃ is is', Code.Ahead T c 0 c' 0 is is' := by
  obtain ⟨is, is', reads, reads', trims⟩ := (h.block sound).code
  refine ⟨is, is', reads, reads', trims, fun m' hm k hk => ?_⟩
  obtain ⟨m, m'', -, short, outer, place⟩ := sound.exists_method h.here'
  obtain rfl : m'' = m' := Option.some.inj (short.symm.trans hm)
  have within : c'.block = m'' ∨ c'.block ∈ m''.blocks := by
    rcases place with ⟨-, same⟩ | ⟨k, -, entry⟩
    · exact .inl same
    · exact .inr (Array.mem_of_getElem? entry)
  obtain ⟨js, reads'', below⟩ := outer.tabled _ within
  obtain rfl : is' = js := reads'.unique reads''
  exact below k hk

theorem linked : T.correspondence.toLikeness.Linked where
  classes := rfl
  classSide hc := (Code.TrimMethod.toTrim hc).block sound |>.classSide
  made n := .made n
  ids ha hb := by
    cases ha with
    | made n =>
      cases hb with
      | made k => exact Iff.rfl
      | literal id k => simp
    | literal id k =>
      cases hb with
      | made n => simp
      | literal id' k' => simp [(before_injective sound).eq_iff]
  serial hc := by
    cases hc with
    | mk serial => exact serial
  mono _ hc := hc

/-- **Runs of the two programs correspond lawfully.** -/
theorem lawful : T.correspondence.Lawful where
  linked := sound.linked
  method hc := Code.TrimMethod.toTrim hc
  head hc := Code.TrimMethod.head hc sound
  owner hc := Code.Trim.owner hc
  nargs hc := (Code.Trim.block hc sound).nargs
  nlocals hc := (Code.Trim.block hc sound).nlocals
  fresh hc := sound.ahead hc
  closure hc := by
    cases hc with
    | mk serial code enclosing home receiver => exact ⟨code, enclosing, home, receiver⟩
  same := .same
  blockArgumentCount _ := .blockArgumentCount _ _
  cannotReturn _ cls := .cannotReturn cls _ _

end Trimming.Sound

/-! ## Loading -/

/-- Methods get the numbers of their places. -/
theorem zipIdx_trim (sound : T.Sound) {bs bs' before before' after after' : List Block}
    (length : bs'.length = bs.length) (count : before'.length = before.length)
    (full : T.full = before ++ (bs ++ after)) (short : T.short = before' ++ (bs' ++ after')) :
    List.Forall₂ (MethodUpTo (Code.TrimMethod T))
      ((bs.zipIdx before.length).map fun (b, n) => (n, b))
      ((bs'.zipIdx before.length).map fun (b, n) => (n, b)) := by
  induction bs generalizing bs' before before' with
  | nil =>
    obtain rfl := List.length_eq_zero_iff.1 length
    exact .nil
  | cons b bs ih =>
    obtain ⟨b', bs', rfl⟩ := List.exists_cons_of_length_eq_add_one length
    have here : T.full[before.length]? = some b := by simp [full]
    have here' : T.short[before.length]? = some b' := by simp [short, ← count]
    rw [List.zipIdx_cons, List.zipIdx_cons, List.map_cons, List.map_cons]
    refine .cons ⟨rfl, (sound.head here here').name, fun owner => ⟨⟨rfl, rfl, here, here'⟩, rfl⟩⟩ ?_
    have later := @ih bs' (before ++ [b]) (before' ++ [b']) (Nat.succ.inj length) (by simp [count])
      (by simp [full]) (by simp [short])
    rwa [List.length_append] at later

theorem ofProgram_trim (sound : T.Sound) {cs cs' : List CompiledClass}
    {before before' : List Block}
    (h : List.Forall₂ CompiledClass.SameOutline cs cs') (count : before'.length = before.length)
    (full : T.full = before ++ cs.flatMap (·.methods))
    (short : T.short = before' ++ cs'.flatMap (·.methods)) :
    List.Forall₂ (LoadClass.UpTo (Code.TrimMethod T)) (LoadClass.ofProgram cs before.length).1
      (LoadClass.ofProgram cs' before.length).1 := by
  induction h generalizing before before' with
  | nil => exact .nil
  | @cons c c' cs cs' first rest ih =>
    rw [List.flatMap_cons] at full short
    refine .cons ⟨first.name, first.superclass, first.fields, ?_⟩ ?_
    · exact zipIdx_trim sound first.count count full short
    · have later := @ih (before ++ c.methods) (before' ++ c'.methods)
        (by simp [count, first.count]) (by simp [full]) (by simp [short])
      rw [List.length_append] at later
      rwa [← first.count] at later ⊢

namespace CompiledProgram

variable {options : CompilerOptions} {place : BlockId} {σ : Nat → Nat} {p p' : CompiledProgram}

/-- The block numbers of one method change, as `σ` says. -/
def trimming (p p' : CompiledProgram) (method : Nat) (σ : Nat → Nat) : Trimming where
  full := p.methods
  short := p'.methods
  number n k := if n = method then σ k else k

namespace CutAt

variable (h : p.CutAt options place σ p')
include h

theorem sound : (p.trimming p' place.method σ).Sound := by
  obtain ⟨m, m', here, here', cut⟩ := h.method
  have own : (p.trimming p' place.method σ).number place.method = σ := by
    funext k
    exact if_pos rfl
  have other {n : Nat} (differs : n ≠ place.method) :
      (p.trimming p' place.method σ).number n = fun k => k := by
    funext k
    exact if_neg differs
  refine ⟨fun n => ?_, fun n => ?_⟩
  · by_cases same : n = place.method
    · rw [same, own]
      exact cut.injective
    · rw [other same]
      exact Function.injective_id
  · by_cases same : n = place.method
    · subst same
      rw [own, trimming, here, here']
      exact .some cut.trims
    · rw [other same]
      exact h.others n same

/-- **Loading a program and what is left of it** ends in the same fault or in images that
correspond. -/
theorem load : Agree (Image.LoadedUpTo (p.trimming p' place.method σ).correspondence.toLikeness)
    (Image.load (LoadClass.ofProgram p.classes 0).1).2
    (Image.load (LoadClass.ofProgram p'.classes 0).1).2 := by
  have classes := @ofProgram_trim _ h.sound _ _ [] [] h.outlines rfl rfl rfl
  exact Image.load_upTo h.sound.linked classes

end CutAt

end CompiledProgram

end Colloquy
