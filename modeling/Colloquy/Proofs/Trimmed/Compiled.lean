import Colloquy.Proofs.Compile.Separate
import Colloquy.Proofs.Trimmed.Blocks
import Colloquy.Proofs.Trimmed.Text

/-!
# The code of a program that has been cut off

A body that goes on behind a return is compiled like what is left of it, up to that return.  Up to
the place where the texts part their drafts are one and the same, from there on they are aligned.

Main statement: what is left of an accepted program is compiled to the same blocks, but for the
method that the cut is in, which is trimmed (`compileBare_cut`).
-/

namespace Colloquy

open Instruction (stored)

/-! ## A body and what is left of it -/

namespace DeadEnd

/-- How many block literals the statements up to the return have. -/
def kept (x : DeadEnd) : Nat := (Stat.blocksAll x.upTo).length

/-- How many block literals the statements behind the return have. -/
def lost (x : DeadEnd) : Nat := (Stat.blocksAll x.after).length

theorem isEmpty_upTo (x : DeadEnd) : x.upTo.isEmpty = false := by
  simp [upTo]

theorem isEmpty_whole (x : DeadEnd) : x.whole.isEmpty = false := by
  simp [whole, upTo]

end DeadEnd

namespace Lexical

variable {options : CompilerOptions} {x : DeadEnd}

theorem behind_append (p : Surroundings) (ss ts : List Stat) (d : Draft) :
    behind options p (ss ++ ts) d = behind options p ts (behind options p ss d) := by
  induction ss generalizing d with
  | nil => rfl
  | cons s rest ih => exact ih _

/-- Statements are compiled one after another. -/
theorem stats_append (p : Surroundings) {ss : List Stat} (some : ss ≠ []) (ts : List Stat)
    (d : Draft) : stats options p (ss ++ ts) d = behind options p ts (stats options p ss d) := by
  cases ss with
  | nil => exact absurd rfl some
  | cons s rest => exact behind_append p rest ts _

theorem stats_whole (p : Surroundings) (x : DeadEnd) (d : Draft) :
    stats options p x.whole d = behind options p x.after (stats options p x.upTo d) :=
  stats_append p (by simp [DeadEnd.upTo]) x.after d

/-- The code of statements up to a return ends with it. -/
theorem code_upTo (options : CompilerOptions) (p : Surroundings) (x : DeadEnd) (d : Draft) :
    ∃ start, (stats options p x.upTo d).code = start ++ [.ret] := by
  have last (d : Draft) : ∃ start, (stat options p (.ret x.result x.position) d).code
      = start ++ [.ret] := ⟨_, (List.append_assoc _ _ _).symm⟩
  unfold DeadEnd.upTo
  cases x.before with
  | nil => exact last d
  | cons s rest =>
    rw [List.cons_append, stats, behind_append]
    exact last _

/-- The drafts of a body and of what is left of it. -/
structure Parts (x : DeadEnd) (first : Nat) (full short : Draft) : Prop where
  next : short.next = first
  aligned : full.Aligned first x.lost short
  code : ∃ start rest, short.code = start ++ [Instruction.ret]
    ∧ full.code = start ++ Instruction.ret :: rest
  literals : short.pool.entries.toList <+: full.pool.entries.toList
  sound : short.Sound

/-- **A body is compiled like what is left of it**, up to the return. -/
theorem stats_parts (options : CompilerOptions) (p : Surroundings) (x : DeadEnd) {d : Draft}
    (sound : d.Sound) :
    Parts x (d.next + x.kept) (stats options p x.whole d) (stats options p x.upTo d) := by
  have grows := stats_grows options p x.upTo d
  have sound := grows.sound sound
  have next : _ = d.next + x.kept := grows.next
  obtain ⟨start, code⟩ := code_upTo options p x d
  rw [stats_whole, ← next]
  clear grows next
  generalize stats options p x.upTo d = short at sound code
  have later := behind_grows options p x.after short
  refine ⟨rfl, ⟨later.next, Nat.le_refl _, fun k b hk => ?_⟩, ?_, later.literals, sound⟩
  · have old := sound.lt_next hk
    rw [numberBefore_of_lt old, later.kept k old]
    exact ⟨b, hk, (sound.entries k b hk).inner fun j hj => numberBefore_of_lt hj⟩
  · obtain ⟨rest, hrest⟩ := later.code
    exact ⟨start, rest, code, by rw [← hrest, code, List.append_assoc]; rfl⟩

namespace Parts

variable {first : Nat} {full short : Draft} (h : Parts x first full short)
include h

/-- The block that is drafted for what is left is trimmed. -/
theorem trims (ending ending' : List Instruction) (name name' qualified qualified' : String)
    (args locals : List String) :
    ((full.add ending).block name qualified args locals).InnerTrims (numberBefore first x.lost)
      ((short.add ending').block name' qualified' args locals) := by
  obtain ⟨start, rest, code, code'⟩ := h.code
  refine ⟨⟨rfl, rfl, rfl, rfl, h.literals, _, _, Instruction.reads_encodeAll _,
    Instruction.reads_encodeAll _, Instruction.Trims.stored ?_⟩, rfl, rfl⟩
  show Instruction.Trims _ short.pool.entries.size (full.code ++ ending) (short.code ++ ending')
  rw [code, code', List.append_assoc, List.append_assoc]
  refine Instruction.trims_append (Instruction.all_renumbered (fun i hi => h.sound.code i ?_)
    fun k hk => numberBefore_of_lt (h.next ▸ hk)) (.ret _ _)
  rw [code]
  exact List.mem_append_left _ hi

/-- It is the same up to the return. -/
theorem cutTo (options : CompilerOptions) (rest : List Instruction) (ending : Ending)
    (position : Position) (name name' qualified qualified' : String) (args locals : List String) :
    Block.CutTo options ending ((full.add rest).block name qualified args locals)
      ((short.add (ending.code false (options.marks position))).block name' qualified' args
        locals) := by
  obtain ⟨start, behind, code, code'⟩ := h.code
  refine ⟨⟨start, behind ++ rest, position, ?_, ?_⟩, h.literals⟩
  · show Instruction.encodeAll (full.code ++ rest).toArray = _
    rw [code', List.append_assoc]
    rfl
  · show Instruction.encodeAll (short.code ++ _).toArray = _
    rw [code, List.append_assoc]
    rfl

end Parts

end Lexical

/-! ## Text around the body -/

/-- The drafts have come from the same text, but for the body of block literal `n`, which has been
cut off. -/
structure Draft.Holed (options : CompilerOptions) (x : DeadEnd) (n : Nat) (d d' : Draft) :
    Prop where
  shifted : d.Shifted (n + 1 + x.kept) x.lost d'
  hole : ∃ b b', d.entry n = some b ∧ d'.entry n = some b' ∧ b.CutTo options .block b'

namespace Draft.Holed

variable {options : CompilerOptions} {x : DeadEnd} {n k k' : Nat} {d d' later later' : Draft}

theorem lt_next (h : d.Holed options x n d') : n < d.next ∧ n < d'.next := by
  have low := h.shifted.aligned.low
  have next := h.shifted.aligned.next
  omega

/-- More text behind the hole. -/
theorem grow (h : d.Holed options x n d') (grows : d.Grows k later) (grows' : d'.Grows k' later')
    (shifted : later.Shifted (n + 1 + x.kept) x.lost later') : later.Holed options x n later' := by
  obtain ⟨below, below'⟩ := h.lt_next
  obtain ⟨b, b', hb, hb', cut⟩ := h.hole
  exact ⟨shifted, b, b', (grows.kept n below).trans hb, (grows'.kept n below').trans hb', cut⟩

theorem add (h : d.Holed options x n d') {is : List Instruction} (below : ∀ i ∈ is, i.Below 0 0) :
    (d.add is).Holed options x n (d'.add is) :=
  h.grow (grows_add below d) (grows_add below d') (h.shifted.add below)

theorem instruction (h : d.Holed options x n d') {i : Instruction}
    (below : i.Below 0 0 := by trivial) : (d.add [i]).Holed options x n (d'.add [i]) :=
  h.add fun _ hj => List.mem_singleton.1 hj ▸ below

theorem name (h : d.Holed options x n d') {make : UInt16 → Instruction}
    (names : ∀ (l : UInt16) (lits : Nat), l.toNat < lits → (make l).Below lits 0) (s : String) :
    (d.name make s).Holed options x n (d'.name make s) :=
  h.grow (grows_name names s d) (grows_name names s d') (h.shifted.name names s)

theorem store (h : d.Holed options x n d') (address : Address) :
    (d.store address).Holed options x n (d'.store address) :=
  h.grow (grows_store address d) (grows_store address d') (h.shifted.store address)

end Draft.Holed

namespace Lexical

variable {options : CompilerOptions} {x : DeadEnd}

/-- Statements are left if a block literal among them has been cut off. -/
theorem isEmpty_of_cutAll {n : Nat} {ss ss' : List Stat} (h : Stat.CutAll x n ss ss') :
    ss'.isEmpty = ss.isEmpty := by
  cases ss with
  | nil => cases h
  | cons s rest => cases h <;> rfl

/-- A block literal that starts where the drafts are still the same. -/
theorem enter_holed {d inner inner' : Draft} {b b' : Block} {first lost : Nat} (sound : d.Sound)
    (aligned : inner.Aligned first lost inner') (before : d.next < first) (room : d.next < 65536)
    (hb : b.InnerTrims (numberBefore first lost) b') :
    (d.enter inner b).Shifted first lost (d.enter inner' b') := by
  refine aligned.enter (numberBefore_of_lt before).symm room rfl sound.pool ?_ hb
  exact Instruction.all_renumbered sound.code fun k hk =>
    numberBefore_of_lt (Nat.lt_trans hk before)

mutual

/-- **An expression with a body that has been cut off.** -/
theorem expr_cut (p : Surroundings) (e : Expr) {e' : Expr} {n : Nat} (h : e.Cut x n e') {d : Draft}
    (sound : d.Sound) (room : d.next + e.blocks.length ≤ 65536) :
    (expr options p e d).Holed options x (d.next + n) (expr options p e' d) := by
  cases e with
  | literal value | self | ident x => cases h
  | array items =>
    cases h with
    | array h =>
      rw [expr, expr, Expr.length_of_cutAll h]
      exact (exprs_cut p items h sound room).instruction
  | block head body =>
    have opened := sound.opened options
    have next : (d.opened options).next = d.next + 1 := rfl
    rw [Expr.blocks, List.length_cons] at room
    cases h with
    | body =>
      have parts := stats_parts options (p.inside d.next head) x opened
      have within : d.next < d.next + 1 + x.kept := by omega
      rw [expr, expr, x.isEmpty_whole, x.isEmpty_upTo]
      refine ⟨enter_holed sound (parts.aligned.add _ _) within (by omega)
        (parts.trims _ _ _ _ _ _ _ _), _, _, Draft.entry_enter_self _ _ _,
        Draft.entry_enter_self _ _ _, parts.cutTo options _ .block head.stop.before _ _ _ _ _ _⟩
    | @block _ n _ body' h =>
      have inner := stats_cut (p.inside d.next head) body h opened (by rw [next]; omega)
      have ended := inner.add (Draft.below_ending .block body.isEmpty
        (Draft.below_marks options head.stop.before))
      have number : d.next + (n + 1) = (d.opened options).next + n := by rw [next]; omega
      rw [expr, expr, isEmpty_of_cutAll h, number]
      obtain ⟨b, b', hb, hb', cut⟩ := ended.hole
      refine ⟨enter_holed sound ended.shifted.aligned (by rw [next]; omega) (by omega)
        (ended.shifted.block _ _ _ _ _ _), b, b', ?_, ?_, cut⟩
      · rw [Draft.entry_enter, if_neg (by rw [next]; omega), hb]
      · rw [Draft.entry_enter, if_neg (by rw [next]; omega), hb']
  | send receiver message args position =>
    rw [Expr.blocks, List.length_append] at room
    cases h with
    | @receiver _ _ _ _ _ receiver' h =>
      have first := expr_cut p receiver h sound (by omega)
      have grown := (expr_grows options p receiver d).next
      have all := first.grow (exprs_grows options p args _) (exprs_grows options p args _)
        (exprs_shifted rfl args first.shifted (by omega))
      exact (all.add (Draft.below_marks options position)).name (fun _ _ => id) message
    | @args _ _ _ n _ args' h =>
      have grows := expr_grows options p receiver d
      have all := exprs_cut p args h (grows.sound sound) (by rw [grows.next]; omega)
      rw [grows.next, Nat.add_assoc] at all
      rw [expr, expr, Expr.length_of_cutAll h]
      exact (all.add (Draft.below_marks options position)).name (fun _ _ => id) message
  | superSend message args position =>
    cases h with
    | superArgs _ _ h =>
      have pushed := Draft.grows_instruction d (i := .pushSelf)
      have all := exprs_cut p args h (pushed.sound sound) room
      rw [expr, expr, Expr.length_of_cutAll h]
      exact (all.add (Draft.below_marks options position)).name (fun _ _ => id) message
termination_by structural e

theorem exprs_cut (p : Surroundings) (es : List Expr) {es' : List Expr} {n : Nat}
    (h : Expr.CutAll x n es es') {d : Draft} (sound : d.Sound)
    (room : d.next + (Expr.blocksAll es).length ≤ 65536) :
    (exprs options p es d).Holed options x (d.next + n) (exprs options p es' d) := by
  cases es with
  | nil => cases h
  | cons e rest =>
    rw [Expr.blocksAll, List.length_append] at room
    have grows := expr_grows options p e d
    cases h with
    | head _ h =>
      have first := expr_cut p e h sound (by omega)
      exact first.grow (exprs_grows options p rest _) (exprs_grows options p rest _)
        (exprs_shifted rfl rest first.shifted (by rw [grows.next]; omega))
    | tail _ h =>
      have later := exprs_cut p rest h (grows.sound sound) (by rw [grows.next]; omega)
      rwa [grows.next, Nat.add_assoc] at later
termination_by structural es

theorem stat_cut (p : Surroundings) (s : Stat) {s' : Stat} {n : Nat} (h : s.Cut x n s') {d : Draft}
    (sound : d.Sound) (room : d.next + s.blocks.length ≤ 65536) :
    (stat options p s d).Holed options x (d.next + n) (stat options p s' d) := by
  cases s with
  | expr value =>
    cases h with
    | expr h => exact expr_cut p value h sound room
  | assign target value position =>
    cases h with
    | assign _ _ h =>
      have marked := Draft.grows_add (Draft.below_marks options position) d
      exact (expr_cut p value h (marked.sound sound) room).store _
  | ret value position =>
    cases h with
    | ret _ h =>
      refine (expr_cut p value h sound room).add ?_
      exact List.forall_mem_append.2
        ⟨Draft.below_marks options position, by simp [Instruction.Below]⟩
termination_by structural s

/-- **Statements with a body that has been cut off.** -/
theorem stats_cut (p : Surroundings) (ss : List Stat) {ss' : List Stat} {n : Nat}
    (h : Stat.CutAll x n ss ss') {d : Draft} (sound : d.Sound)
    (room : d.next + (Stat.blocksAll ss).length ≤ 65536) :
    (stats options p ss d).Holed options x (d.next + n) (stats options p ss' d) := by
  cases ss with
  | nil => cases h
  | cons s rest =>
    rw [Stat.blocksAll, List.length_append] at room
    have grows := stat_grows options p s d
    cases h with
    | head _ h =>
      have first := stat_cut p s h sound (by omega)
      exact first.grow (behind_grows options p rest _) (behind_grows options p rest _)
        (behind_shifted rfl rest first.shifted (by rw [grows.next]; omega))
    | tail _ h =>
      have later := behind_cut p rest h (grows.sound sound) (by rw [grows.next]; omega)
      rwa [grows.next, Nat.add_assoc] at later
termination_by structural ss

theorem behind_cut (p : Surroundings) (ss : List Stat) {ss' : List Stat} {n : Nat}
    (h : Stat.CutAll x n ss ss') {d : Draft} (sound : d.Sound)
    (room : d.next + (Stat.blocksAll ss).length ≤ 65536) :
    (behind options p ss d).Holed options x (d.next + n) (behind options p ss' d) := by
  cases ss with
  | nil => cases h
  | cons s rest =>
    rw [Stat.blocksAll, List.length_append] at room
    have popped := Draft.grows_instruction d (i := .pop)
    have grows := popped.trans (stat_grows options p s _)
    rw [Nat.zero_add] at grows
    cases h with
    | head _ h =>
      have first := stat_cut p s h (popped.sound sound) (by rw [popped.next]; omega)
      exact first.grow (behind_grows options p rest _) (behind_grows options p rest _)
        (behind_shifted rfl rest first.shifted (by rw [grows.next]; omega))
    | tail _ h =>
      have later := behind_cut p rest h (grows.sound sound) (by rw [grows.next]; omega)
      rwa [grows.next, Nat.add_assoc] at later
termination_by structural ss

end

end Lexical

/-! ## Methods -/

namespace Draft

/-- The draft of a whole method: no number has been left without a block. -/
structure Finished (d : Draft) : Prop where
  sound : d.Sound
  full : ∀ k < d.next, (d.entry k).isSome

/-- A method, with the blocks nested in it. -/
def method (d : Draft) (name qualified : String) (args locals : List String) (classSide : Bool) :
    Block :=
  { d.block name qualified args locals with blocks := d.blocks, classSide }

variable {d d' : Draft} {first lost : Nat}

/-- The blocks nested in methods whose drafts are aligned. -/
theorem Aligned.nested (h : d.Aligned first lost d') (finished : d.Finished)
    (finished' : d'.Finished) (k : Nat) :
    Option.Rel (Block.InnerTrims (numberBefore first lost)) d.blocks[numberBefore first lost k]?
      d'.blocks[k]? := by
  rw [getElem?_blocks finished.sound finished.full, getElem?_blocks finished'.sound finished'.full]
  cases here : d'.entry k with
  | some b' =>
    obtain ⟨b, hb, trims⟩ := h.table k b' here
    rw [hb]
    exact .some trims
  | none =>
    have beyond : d'.next ≤ k := Nat.not_lt.1 fun hk => by
      have := finished'.full k hk
      rw [here] at this
      cases this
    have low := h.low
    have next := h.next
    rw [numberBefore_of_le (by omega)]
    cases there : d.entry (k + lost) with
    | none => exact .none
    | some b =>
      have := finished.sound.lt_next there
      omega

/-- **All nested blocks that code names are in the table.** -/
theorem Finished.tabled (h : d.Finished) (name qualified : String) (args locals : List String)
    (classSide : Bool) : (d.method name qualified args locals classSide).Tabled := by
  have known (k : Nat) (below : k < d.next) : k < d.blocks.size := by
    have here := h.full k below
    rw [← getElem?_blocks h.sound h.full, Option.isSome_iff_exists] at here
    obtain ⟨b, here⟩ := here
    exact (Array.getElem?_eq_some_iff.1 here).1
  rintro b (rfl | nested)
  · obtain ⟨is, reads, below⟩ := (h.sound.block name qualified args locals).code
    exact ⟨is, reads, fun k hk => known _ (below _ hk)⟩
  · obtain ⟨j, here⟩ := Array.mem_iff_getElem?.1 nested
    have here : d.entry j = some b := (getElem?_blocks h.sound h.full j).symm.trans here
    obtain ⟨is, reads, below⟩ := (h.sound.entries j b here).code
    exact ⟨is, reads, fun k hk => known _ (below _ hk)⟩

/-- Nothing has been left out of a method. -/
theorem Finished.self (h : d.Finished) (name qualified : String) (args locals : List String)
    (classSide : Bool) :
    (d.method name qualified args locals classSide).OuterTrims id
      (d.method name qualified args locals classSide) := by
  have whole := (h.sound.block name qualified args locals).inner (σ := id) fun _ _ => rfl
  refine ⟨⟨rfl, rfl, rfl, rfl, rfl, rfl⟩, ⟨rfl, rfl, rfl, rfl, whole.trims.literals,
    whole.trims.code⟩, fun k => ?_, h.tabled _ _ _ _ _⟩
  show Option.Rel _ d.blocks[k]? d.blocks[k]?
  rw [getElem?_blocks h.sound h.full]
  cases here : d.entry k with
  | none => exact .none
  | some b => exact .some ((h.sound.entries k b here).inner fun _ _ => rfl)

end Draft

namespace Block

/-- The second method is the first one, with the body at the end of the path cut off. -/
structure CutAt (options : CompilerOptions) (path : List Nat) (σ : Nat → Nat) (m m' : Block) :
    Prop where
  injective : Function.Injective σ
  trims : m.OuterTrims σ m'
  body : ∃ b b' ending, m.at? path = some b ∧ m'.at? path = some b' ∧ b.CutTo options ending b'

end Block

namespace Lexical

variable {options : CompilerOptions} {x : DeadEnd} {path : List Nat} {ss ss' : List Stat}

theorem body_finished (options : CompilerOptions) (p : Surroundings) (ending : Ending)
    (ss : List Stat) (stop : Position) : (body options p ending ss stop).Finished := by
  have grows := (stats_grows options p ss { pool := options.pool }).trans
    (Draft.grows_add (Draft.below_ending ending ss.isEmpty (Draft.below_marks options stop)) _)
  exact ⟨grows.sound (Draft.sound_fresh options), fun k hk => grows.made k (Nat.zero_le k) hk⟩

/-- **A body that has been cut off.** -/
theorem body_cut (h : Stat.BodyCut x path ss ss') (room : (Stat.blocksAll ss).length ≤ 65536)
    (p : Surroundings) (ending : Ending) (stop : Position) (name qualified : String)
    (args locals : List String) (classSide : Bool) :
    ∃ σ, Block.CutAt options path σ
      ((body options p ending ss stop).method name qualified args locals classSide)
      ((body options p ending ss' stop).method name qualified args locals classSide) := by
  have fresh := Draft.sound_fresh options
  have finished := body_finished options p ending ss stop
  have finished' := body_finished options p ending ss' stop
  cases h with
  | own =>
    have parts := stats_parts options p x fresh
    rw [body, x.isEmpty_whole] at finished ⊢
    rw [body, x.isEmpty_upTo] at finished' ⊢
    have nested := (parts.aligned.add _ _).nested finished finished'
    obtain ⟨trims, -, -⟩ := parts.trims (ending.code false (options.marks stop))
      (ending.code false (options.marks stop)) name name qualified qualified args locals
    have cut := parts.cutTo options (ending.code false (options.marks stop)) ending stop name name
      qualified qualified args locals
    exact ⟨_, numberBefore_injective _ _, ⟨⟨rfl, rfl, rfl, rfl, rfl, rfl⟩,
      ⟨rfl, rfl, rfl, rfl, trims.literals, trims.code⟩, nested, finished'.tabled _ _ _ _ _⟩,
      _, _, ending, rfl, rfl, cut.code, cut.literals⟩
  | @inside n _ _ h =>
    have few : 0 + (Stat.blocksAll ss).length ≤ 65536 := by omega
    have holed : Draft.Holed options x (0 + n) (stats options p ss { pool := options.pool })
        (stats options p ss' { pool := options.pool }) := stats_cut p ss h fresh few
    have ended := holed.add (Draft.below_ending ending ss.isEmpty (Draft.below_marks options stop))
    rw [body] at finished ⊢
    rw [body, isEmpty_of_cutAll h] at finished' ⊢
    obtain ⟨trims, -, -⟩ := ended.shifted.block name name qualified qualified args locals
    obtain ⟨b, b', hb, hb', cut⟩ := ended.hole
    refine ⟨_, numberBefore_injective _ _, ⟨⟨rfl, rfl, rfl, rfl, rfl, rfl⟩,
      ⟨rfl, rfl, rfl, rfl, trims.literals, trims.code⟩,
      ended.shifted.aligned.nested finished finished', finished'.tabled _ _ _ _ _⟩,
      b, b', .block, ?_, ?_, cut⟩
    · refine (Draft.getElem?_blocks finished.sound finished.full n).trans ?_
      rw [← hb, Nat.zero_add]
    · refine (Draft.getElem?_blocks finished'.sound finished'.full n).trans ?_
      rw [← hb', Nat.zero_add]

theorem method_cut {m m' : Method} (h : m.Cut x path m')
    (room : (Stat.blocksAll m.stats).length ≤ 65536) (className : String) (fields : List String) :
    ∃ σ, Block.CutAt options path σ (method options className fields m)
      (method options className fields m') := by
  cases h with
  | @code b stats kind h =>
    rw [Method.stats, kind] at room
    rw [method, kind]
    exact body_cut h room _ .method b.stop.before _ _ _ _ _

/-- A method that the machine carries out itself, or one that is compiled from a body. -/
theorem method_self (className : String) (fields : List String) (m : Method) :
    (method options className fields m).OuterTrims id (method options className fields m) := by
  unfold method
  cases m.kind with
  | code b => exact (body_finished options _ _ _ _).self _ _ _ _ _
  | primitive tag =>
    refine ⟨⟨rfl, rfl, rfl, rfl, rfl, rfl⟩, ⟨rfl, rfl, rfl, rfl, List.prefix_refl _, [], [],
      .nil 0, .nil 0, .nil⟩, fun k => ?_, ?_⟩
    · exact .none
    · rintro b (rfl | nested)
      · exact ⟨[], .nil 0, fun k hk => by simp at hk⟩
      · simp at nested

end Lexical

/-! ## Programs -/

/-- The classes are the same, and have as many methods. -/
structure CompiledClass.SameOutline (c c' : CompiledClass) : Prop where
  name : c'.name = c.name
  superclass : c'.superclass = c.superclass
  fields : c'.fields = c.fields
  count : c'.methods.length = c.methods.length

theorem CompiledClass.SameOutline.refl (c : CompiledClass) : c.SameOutline c := ⟨rfl, rfl, rfl, rfl⟩

/-- The second program is the first one, with the body at the given place cut off. -/
structure CompiledProgram.CutAt (options : CompilerOptions) (place : BlockId) (σ : Nat → Nat)
    (p p' : CompiledProgram) : Prop where
  outlines : List.Forall₂ CompiledClass.SameOutline p.classes p'.classes
  method : ∃ m m', p.methods[place.method]? = some m ∧ p'.methods[place.method]? = some m'
    ∧ m.CutAt options place.path σ m'
  others : ∀ n, n ≠ place.method →
    Option.Rel (Block.OuterTrims id) p.methods[n]? p'.methods[n]?

/-- One method among others, which stay as they are. -/
theorem getElem?_others {before after : List Block} {m m' : Block}
    (self : ∀ b ∈ before ++ after, b.OuterTrims id b) {n : Nat} (other : n ≠ before.length) :
    Option.Rel (Block.OuterTrims id) (before ++ m :: after)[n]? (before ++ m' :: after)[n]? := by
  have kept {bs : List Block} (within : bs ⊆ before ++ after) (k : Nat) :
      Option.Rel (Block.OuterTrims id) bs[k]? bs[k]? := by
    cases here : bs[k]? with
    | none => exact .none
    | some b => exact .some (self b (within (List.mem_of_getElem? here)))
  rcases Nat.lt_or_gt_of_ne other with left | right
  · rw [List.getElem?_append_left left, List.getElem?_append_left left]
    exact kept (List.subset_append_left _ _) n
  · obtain ⟨k, rfl⟩ : ∃ k, n = before.length + (k + 1) := ⟨n - before.length - 1, by omega⟩
    rw [List.getElem?_append_right (by omega), List.getElem?_append_right (by omega),
      Nat.add_sub_cancel_left, List.getElem?_cons_succ, List.getElem?_cons_succ]
    exact kept (List.subset_append_right _ _) k

/-- **One method of a program is cut off.** -/
theorem CompiledProgram.cutAt_of_split {options : CompilerOptions} {path : List Nat} {σ : Nat → Nat}
    {before after : List CompiledClass} {c c' : CompiledClass} {bs bs' : List Block} {m m' : Block}
    (outline : c.SameOutline c') (methods : c.methods = bs ++ m :: bs')
    (methods' : c'.methods = bs ++ m' :: bs') (trimmed : m.CutAt options path σ m')
    (self : ∀ b ∈ (before ++ c :: after).flatMap (·.methods), b.OuterTrims id b)
    (warnings warnings' : List String) :
    CutAt options ⟨(before.flatMap (·.methods)).length + bs.length, path⟩ σ
      ⟨before ++ c :: after, warnings⟩ ⟨before ++ c' :: after, warnings'⟩ := by
  have listed {c : CompiledClass} {m : Block} (hc : c.methods = bs ++ m :: bs') :
      (before ++ c :: after).flatMap (·.methods)
        = (before.flatMap (·.methods) ++ bs) ++ m :: (bs' ++ after.flatMap (·.methods)) := by
    rw [List.flatMap_append, List.flatMap_cons, hc]
    simp only [List.append_assoc, List.cons_append]
  have count : (before.flatMap (·.methods) ++ bs).length
      = (before.flatMap (·.methods)).length + bs.length := List.length_append
  rw [listed methods] at self
  refine ⟨?_, ⟨m, m', ?_, ?_, trimmed⟩, fun n other => ?_⟩
  · have same (cs : List CompiledClass) : List.Forall₂ CompiledClass.SameOutline cs cs :=
      List.forall₂_same.2 fun d _ => .refl d
    exact List.rel_append (same before) (.cons outline (same after))
  · rw [CompiledProgram.methods, listed methods, ← count,
      List.getElem?_append_right (Nat.le_refl _), Nat.sub_self]
    rfl
  · rw [CompiledProgram.methods, listed methods', ← count,
      List.getElem?_append_right (Nat.le_refl _), Nat.sub_self]
    rfl
  · rw [CompiledProgram.methods, CompiledProgram.methods, listed methods, listed methods']
    refine getElem?_others (fun b hb => self b ?_) (count ▸ other)
    rcases List.mem_append.1 hb with hb | hb
    · exact List.mem_append_left _ hb
    · exact List.mem_append_right _ (List.mem_cons_of_mem _ hb)

namespace Lexical

variable {options : CompilerOptions} {x : DeadEnd}

/-- Nothing has been left out of a method of the program itself. -/
theorem classes_self (before cs : List ClassDef) :
    ∀ b ∈ (classes options before cs).flatMap (·.methods), b.OuterTrims id b := by
  induction cs generalizing before with
  | nil => exact List.forall_mem_nil _
  | cons c rest ih =>
    rw [classes, List.flatMap_cons]
    refine List.forall_mem_append.2 ⟨fun b hb => ?_, ih (c :: before)⟩
    obtain ⟨m, -, rfl⟩ := List.mem_map.1 hb
    exact method_self _ _ m

theorem program_self (p : Program) :
    ∀ b ∈ (program options p).flatMap (·.methods), b.OuterTrims id b := by
  rw [program, List.flatMap_append]
  refine List.forall_mem_append.2 ⟨classes_self [] p.classes, fun b hb => ?_⟩
  cases hm : p.main with
  | none => simp [hm] at hb
  | some m =>
    obtain rfl : b = mainBody options (p.fieldsOf rootClass) m := by
      simpa [hm, Emit.classOfMain] using hb
    exact (body_finished options _ _ _ _).self _ _ _ _ _

/-- There are as many compiled methods as methods. -/
theorem length_methods (before cs : List ClassDef) :
    ((classes options before cs).flatMap (·.methods)).length = (cs.flatMap (·.methods)).length := by
  induction cs generalizing before with
  | nil => rfl
  | cons c rest ih =>
    rw [classes, List.flatMap_cons, List.flatMap_cons, List.length_append, List.length_append, ih,
      cls, List.length_map]

/-- Of the classes before them, classes only need the fields. -/
theorem classes_outline {before before' : List ClassDef} (cs : List ClassDef)
    (same : before'.map ClassDef.outline = before.map ClassDef.outline) :
    classes options before' cs = classes options before cs := by
  induction cs generalizing before before' with
  | nil => rfl
  | cons c rest ih =>
    have fields (name : String) :
        ClassDef.allFields before' name = ClassDef.allFields before name := by
      rw [← ClassDef.allFields_outline, same, ClassDef.allFields_outline]
    have later : (c :: before').map ClassDef.outline = (c :: before).map ClassDef.outline :=
      congrArg (c.outline :: ·) same
    rw [classes, classes, ClassDef.inheritedFields_outline rfl fields, ih later]

section Cut

variable {p : Program} {path : List Nat}

/-- **A class** in which a method has been cut off is compiled to the same, but for that method. -/
theorem cls_cut {c : ClassDef} {ms ms' : List Method} {m m' : Method}
    (methods : c.methods = ms ++ m :: ms') (cut : m.Cut x path m') (formed : m.Formed)
    (inherited : List String) :
    (cls options inherited c).SameOutline
        (cls options inherited { c with methods := ms ++ m' :: ms' })
      ∧ ∃ σ bs bs' b b', (cls options inherited c).methods = bs ++ b :: bs'
        ∧ (cls options inherited { c with methods := ms ++ m' :: ms' }).methods = bs ++ b' :: bs'
        ∧ bs.length = ms.length ∧ Block.CutAt options path σ b b' := by
  refine ⟨⟨rfl, rfl, rfl, by simp [cls, methods]⟩, ?_⟩
  obtain ⟨σ, trimmed⟩ : ∃ σ, Block.CutAt options path σ
      (method options c.name (inherited ++ c.fields) m)
      (method options c.name (inherited ++ c.fields) m') :=
    method_cut cut (Nat.le_succ_of_le formed.blocks.few) _ _
  refine ⟨σ, ms.map (method options c.name (inherited ++ c.fields)),
    ms'.map (method options c.name (inherited ++ c.fields)), _, _, ?_, ?_, List.length_map _,
    trimmed⟩
  · rw [cls, methods, List.map_append, List.map_cons]
  · rw [cls, List.map_append, List.map_cons]

/-- A method of a program is cut off. -/
theorem program_cut_method {before after : List ClassDef} {c : ClassDef} {ms ms' : List Method}
    {m m' : Method} (split : p.classes = before ++ c :: after)
    (methods : c.methods = ms ++ m :: ms') (cut : m.Cut x path m') (formed : m.Formed)
    (warnings warnings' : List String) :
    ∃ σ, CompiledProgram.CutAt options ⟨(before.flatMap (·.methods)).length + ms.length, path⟩ σ
      ⟨program options p, warnings⟩
      ⟨program options
        { p with classes := before ++ { c with methods := ms ++ m' :: ms' } :: after },
        warnings'⟩ := by
  have outlines : (before ++ { c with methods := ms ++ m' :: ms' } :: after).map ClassDef.outline
      = p.classes.map ClassDef.outline := by
    rw [split, List.map_append, List.map_append]
    rfl
  -- the fields of classes are the same, and so are the other classes and the main body
  have fields : Program.fieldsOf { p with
      classes := before ++ { c with methods := ms ++ m' :: ms' } :: after } rootClass
      = p.fieldsOf rootClass := (ClassDef.congr_outline outlines).2 rootClass
  have inherits : ClassDef.inheritedFields before.reverse { c with methods := ms ++ m' :: ms' }
      = c.inheritedFields before.reverse := ClassDef.inheritedFields_outline rfl fun _ => rfl
  have behind : classes options ({ c with methods := ms ++ m' :: ms' } :: before.reverse) after
      = classes options (c :: before.reverse) after := classes_outline after rfl
  have self : ∀ b ∈ (program options p).flatMap (·.methods), b.OuterTrims id b := program_self p
  obtain ⟨outline, σ, bs, bs', b, b', own, own', count, trimmed⟩ :=
    @cls_cut options x path c ms ms' m m' methods cut formed (c.inheritedFields before.reverse)
  rw [program, split, classes_append, List.append_nil, List.append_assoc, classes,
    List.cons_append] at self
  rw [program, program, fields, split, classes_append, classes_append, List.append_nil,
    List.append_assoc, List.append_assoc, classes, classes, List.cons_append, List.cons_append,
    inherits, behind, ← count, ← length_methods [] before]
  exact ⟨σ, CompiledProgram.cutAt_of_split outline own own' trimmed self _ _⟩

/-- The main body of a program is cut off. -/
theorem program_cut_main {m : MainBody} {stats : List Stat} (found : p.main = some m)
    (cut : Stat.BodyCut x path m.body.stats stats) (formed : m.Formed)
    (warnings warnings' : List String) :
    ∃ σ, CompiledProgram.CutAt options ⟨(p.classes.flatMap (·.methods)).length, path⟩ σ
      ⟨program options p, warnings⟩
      ⟨program options { p with main := some { m with body := { m.body with stats } } },
        warnings'⟩ := by
  obtain ⟨σ, trimmed⟩ : ∃ σ, Block.CutAt options path σ
      (mainBody options (p.fieldsOf rootClass) m)
      (mainBody options (p.fieldsOf rootClass) { m with body := { m.body with stats } }) :=
    body_cut cut (Nat.le_succ_of_le formed.blocks.few) _ _ _ _ _ _ _ _
  have outline : (Emit.classOfMain (mainBody options (p.fieldsOf rootClass) m)).SameOutline
      (Emit.classOfMain (mainBody options (p.fieldsOf rootClass)
        { m with body := { m.body with stats } })) := ⟨rfl, rfl, rfl, rfl⟩
  have self : ∀ b ∈ (program options p).flatMap (·.methods), b.OuterTrims id b := program_self p
  have fields : Program.fieldsOf
      { p with main := some { m with body := { m.body with stats } } } rootClass
      = p.fieldsOf rootClass := rfl
  have count : ((classes options [] p.classes).flatMap (·.methods)).length
      + ([] : List Block).length = (p.classes.flatMap (·.methods)).length :=
    length_methods [] p.classes
  rw [program, found] at self
  rw [program, program, fields, found, ← count]
  exact ⟨σ, CompiledProgram.cutAt_of_split outline rfl rfl trimmed self _ _⟩

/-- **What is left of a program** is compiled to the same, but for the method that the cut is
in. -/
theorem program_cut {p' : Program} {place : BlockId} (h : p.Cut x place p')
    (formed : p.WellFormed) (warnings warnings' : List String) :
    ∃ σ, CompiledProgram.CutAt options place σ ⟨program options p, warnings⟩
      ⟨program options p', warnings'⟩ := by
  cases h with
  | @method path before after c ms ms' m m' split methods cut =>
    have hc : c ∈ p.classes := by simp [split]
    have hm : m ∈ c.methods := by simp [methods]
    exact program_cut_method split methods cut ((formed.classes c hc).methods m hm) _ _
  | main found cut => exact program_cut_main found cut (formed.main _ found) _ _

end Cut

end Lexical

/-- **What is left of an accepted program** is compiled to the same blocks, but for the method that
the cut is in. -/
theorem compileBare_cut {options : CompilerOptions} {x : DeadEnd} {p p' : Program} {place : BlockId}
    (h : p.Cut x place p') {log log' : Log} {compiled compiled' : CompiledProgram}
    (accepted : compileBare options p = (log, .ok compiled))
    (accepted' : compileBare options p' = (log', .ok compiled')) :
    ∃ σ, compiled.CutAt options place σ compiled' := by
  obtain ⟨_, _, r, resolved, -⟩ := Direct.compileBare_eq_ok accepted
  have formed := (resolves_iff_wellFormed p).1 ⟨_, r, resolved⟩
  obtain ⟨classes, warnings⟩ := compiled
  obtain ⟨classes', warnings'⟩ := compiled'
  obtain rfl : classes = Lexical.program options p := compileBare_lexical accepted
  obtain rfl : classes' = Lexical.program options p' := compileBare_lexical accepted'
  exact Lexical.program_cut h formed warnings warnings'

end Colloquy
