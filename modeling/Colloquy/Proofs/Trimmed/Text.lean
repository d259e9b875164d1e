import Colloquy.Proofs.Compile.Generation

/-!
# Leaving statements out that stand behind a return

A body whose statements go on behind a return can be cut off there.  `p.Cut x id p'` says that the
program `p'` is `p` with the one body that `id` names, of a method, a main body or a block literal,
cut off behind a return.  Nothing else of the text is another.

What the compiler asks of a text it asks of each block literal and of each thing that there has to
be an instruction for, and a text that is cut off has no others.

Main statement: if a program is accepted, then so is what is left of it (`Program.Cut.accepted`).
-/

namespace Colloquy

/-! ## Cutting off a body -/

/-- A body that goes on behind a return. -/
structure DeadEnd where
  before : List Stat
  result : Expr
  position : Position
  after : List Stat

namespace DeadEnd

/-- The statements up to the return. -/
def upTo (x : DeadEnd) : List Stat := x.before ++ [.ret x.result x.position]

/-- All statements. -/
def whole (x : DeadEnd) : List Stat := x.upTo ++ x.after

end DeadEnd

mutual

/-- The second expression is the first one with the body of one block literal in it cut off.  The
number is that of the block literal among those of the expression. -/
inductive Expr.Cut (x : DeadEnd) : Nat → Expr → Expr → Prop where
  | array {n : Nat} {items items' : List Expr} (h : Expr.CutAll x n items items') :
      Expr.Cut x n (.array items) (.array items')
  | body (head : BlockHead) : Expr.Cut x 0 (.block head x.whole) (.block head x.upTo)
  | block (head : BlockHead) {n : Nat} {body body' : List Stat} (h : Stat.CutAll x n body body') :
      Expr.Cut x (n + 1) (.block head body) (.block head body')
  | receiver (message : String) (args : List Expr) (position : Position) {n : Nat}
      {receiver receiver' : Expr} (h : Expr.Cut x n receiver receiver') :
      Expr.Cut x n (.send receiver message args position) (.send receiver' message args position)
  | args (receiver : Expr) (message : String) (position : Position) {n : Nat}
      {args args' : List Expr} (h : Expr.CutAll x n args args') :
      Expr.Cut x (receiver.blocks.length + n) (.send receiver message args position)
        (.send receiver message args' position)
  | superArgs (message : String) (position : Position) {n : Nat} {args args' : List Expr}
      (h : Expr.CutAll x n args args') :
      Expr.Cut x n (.superSend message args position) (.superSend message args' position)

inductive Expr.CutAll (x : DeadEnd) : Nat → List Expr → List Expr → Prop where
  | head (rest : List Expr) {n : Nat} {e e' : Expr} (h : Expr.Cut x n e e') :
      Expr.CutAll x n (e :: rest) (e' :: rest)
  | tail (e : Expr) {n : Nat} {rest rest' : List Expr} (h : Expr.CutAll x n rest rest') :
      Expr.CutAll x (e.blocks.length + n) (e :: rest) (e :: rest')

inductive Stat.Cut (x : DeadEnd) : Nat → Stat → Stat → Prop where
  | expr {n : Nat} {e e' : Expr} (h : Expr.Cut x n e e') : Stat.Cut x n (.expr e) (.expr e')
  | assign (target : Ident) (position : Position) {n : Nat} {e e' : Expr} (h : Expr.Cut x n e e') :
      Stat.Cut x n (.assign target e position) (.assign target e' position)
  | ret (position : Position) {n : Nat} {e e' : Expr} (h : Expr.Cut x n e e') :
      Stat.Cut x n (.ret e position) (.ret e' position)

inductive Stat.CutAll (x : DeadEnd) : Nat → List Stat → List Stat → Prop where
  | head (rest : List Stat) {n : Nat} {s s' : Stat} (h : Stat.Cut x n s s') :
      Stat.CutAll x n (s :: rest) (s' :: rest)
  | tail (s : Stat) {n : Nat} {rest rest' : List Stat} (h : Stat.CutAll x n rest rest') :
      Stat.CutAll x (s.blocks.length + n) (s :: rest) (s :: rest')

end

/-- The body itself is cut off, or that of one block literal in it; the path leads from the code of
the body to that of the body that is cut off. -/
inductive Stat.BodyCut (x : DeadEnd) : (path : List Nat) → List Stat → List Stat → Prop where
  | own : Stat.BodyCut x [] x.whole x.upTo
  | inside {n : Nat} {body body' : List Stat} (h : Stat.CutAll x n body body') :
      Stat.BodyCut x [n] body body'

/-- A body in a method is cut off. -/
inductive Method.Cut (x : DeadEnd) (path : List Nat) (m : Method) : Method → Prop where
  | code {b : Body} {stats : List Stat} (kind : m.kind = .code b)
      (h : Stat.BodyCut x path b.stats stats) :
      Method.Cut x path m { m with kind := .code { b with stats } }

/-- **The second program is the first one with the body that the identity names cut off.**  Methods
are numbered in the order of the text, the main body last. -/
inductive Program.Cut (x : DeadEnd) (p : Program) : BlockId → Program → Prop where
  | method {path : List Nat} {before after : List ClassDef} {c : ClassDef} {ms ms' : List Method}
      {m m' : Method} (classes : p.classes = before ++ c :: after)
      (methods : c.methods = ms ++ m :: ms') (h : m.Cut x path m') :
      Program.Cut x p ⟨(before.flatMap (·.methods)).length + ms.length, path⟩
        { p with classes := before ++ { c with methods := ms ++ m' :: ms' } :: after }
  | main {path : List Nat} {m : MainBody} {stats : List Stat} (main : p.main = some m)
      (h : Stat.BodyCut x path m.body.stats stats) :
      Program.Cut x p ⟨(p.classes.flatMap (·.methods)).length, path⟩
        { p with main := some { m with body := { m.body with stats } } }

/-! ## What is left -/

theorem Stat.blocksAll_append (ss ts : List Stat) :
    Stat.blocksAll (ss ++ ts) = Stat.blocksAll ss ++ Stat.blocksAll ts := by
  induction ss with
  | nil => rfl
  | cons s rest ih => rw [List.cons_append, blocksAll, ih, blocksAll, List.append_assoc]

theorem Stat.itemsAll_append (ss ts : List Stat) :
    Stat.itemsAll (ss ++ ts) = Stat.itemsAll ss ++ Stat.itemsAll ts := by
  induction ss with
  | nil => rfl
  | cons s rest ih => rw [List.cons_append, itemsAll, ih, itemsAll, List.append_assoc]

theorem Stat.blockLiteralsAll_append (p : Names) (ss ts : List Stat) :
    Stat.blockLiteralsAll p (ss ++ ts)
      = Stat.blockLiteralsAll p ss ++ Stat.blockLiteralsAll p ts := by
  induction ss with
  | nil => rfl
  | cons s rest ih =>
    rw [List.cons_append, blockLiteralsAll, ih, blockLiteralsAll, List.append_assoc]

/-- The block literal with, perhaps, fewer statements in its body or in block literals of it. -/
structure BlockLiteral.Keeps (l l' : BlockLiteral) : Prop where
  around : l'.around = l.around
  head : l'.head = l.head
  items : Stat.itemsAll l'.body ⊆ Stat.itemsAll l.body

/-- What the compiler asks something of in two texts: the second one has the same items outside of
block literals, and no other block literals. -/
structure Remains (items items' : List Item) (blocks blocks' : List (BlockHead × List Stat))
    (literals literals' : Names → List BlockLiteral) : Prop where
  items : items' = items
  heads : (blocks'.map Prod.fst).Sublist (blocks.map Prod.fst)
  literals : ∀ p, ∃ kept, List.Forall₂ BlockLiteral.Keeps kept (literals' p)
    ∧ kept.Sublist (literals p)

namespace Remains

theorem forall₂_keeps (ls : List BlockLiteral) : List.Forall₂ BlockLiteral.Keeps ls ls :=
  List.forall₂_same.2 fun _ _ => ⟨rfl, rfl, List.Subset.refl _⟩

theorem refl (items : List Item) (blocks : List (BlockHead × List Stat))
    (literals : Names → List BlockLiteral) :
    Remains items items blocks blocks literals literals :=
  ⟨rfl, .refl _, fun p => ⟨literals p, forall₂_keeps _, .refl _⟩⟩

/-- One text behind another one. -/
theorem append {is is' js js' : List Item} {as as' bs bs' : List (BlockHead × List Stat)}
    {ls ls' ks ks' : Names → List BlockLiteral} (h : Remains is is' as as' ls ls')
    (h' : Remains js js' bs bs' ks ks') :
    Remains (is ++ js) (is' ++ js') (as ++ bs) (as' ++ bs') (fun p => ls p ++ ks p)
      (fun p => ls' p ++ ks' p) := by
  refine ⟨by rw [h.items, h'.items], ?_, fun p => ?_⟩
  · rw [List.map_append, List.map_append]
    exact h.heads.append h'.heads
  · obtain ⟨kept, each, sub⟩ := h.literals p
    obtain ⟨kept', each', sub'⟩ := h'.literals p
    exact ⟨kept ++ kept', List.rel_append each each', sub.append sub'⟩

/-- More items behind the same text. -/
theorem add {is is' : List Item} {as as' : List (BlockHead × List Stat)}
    {ls ls' : Names → List BlockLiteral} (h : Remains is is' as as' ls ls') (more : List Item) :
    Remains (is ++ more) (is' ++ more) as as' ls ls' :=
  ⟨by rw [h.items], h.heads, h.literals⟩

end Remains

variable {x : DeadEnd} {n : Nat}

theorem Expr.length_of_cutAll {es es' : List Expr} (h : Expr.CutAll x n es es') :
    es'.length = es.length := by
  induction es generalizing n es' with
  | nil => cases h
  | cons e rest ih =>
    cases h with
    | head _ h => rfl
    | tail _ h => exact congrArg (· + 1) (ih h)

mutual

/-- **What is left of an expression.** -/
theorem Expr.remains (e : Expr) {e' : Expr} {n : Nat} (h : e.Cut x n e') :
    Remains e.items e'.items e.blocks e'.blocks (fun p => e.blockLiterals p)
      (fun p => e'.blockLiterals p) := by
  cases e with
  | literal value | self | ident name => cases h
  | array items =>
    cases h with
    | array h =>
      rw [Expr.items, Expr.items, Expr.length_of_cutAll h]
      exact (Expr.remainsAll items h).add _
  | block head body =>
    cases h with
    | body =>
      refine ⟨rfl, .cons_cons head ?_, fun p => ?_⟩
      · rw [DeadEnd.whole, Stat.blocksAll_append, List.map_append]
        exact List.sublist_append_left _ _
      · refine ⟨⟨p, head, x.whole⟩ :: Stat.blockLiteralsAll _ x.upTo,
          .cons ⟨rfl, rfl, ?_⟩ (Remains.forall₂_keeps _), .cons_cons _ ?_⟩
        · rw [DeadEnd.whole, Stat.itemsAll_append]
          exact List.subset_append_left _ _
        · rw [DeadEnd.whole, Stat.blockLiteralsAll_append]
          exact List.sublist_append_left _ _
    | @block _ _ _ body' h =>
      obtain ⟨items, heads, literals⟩ := Stat.remainsAll body h
      refine ⟨rfl, .cons_cons head heads, fun p => ?_⟩
      obtain ⟨kept, each, sub⟩ := literals (p.inside (head.args ++ head.locals))
      exact ⟨⟨p, head, body⟩ :: kept, .cons ⟨rfl, rfl, items ▸ List.Subset.refl _⟩ each,
        .cons_cons _ sub⟩
  | send receiver message args position =>
    cases h with
    | receiver _ _ _ h =>
      exact (Expr.remains receiver h).append ((Remains.refl _ (Expr.blocksAll args)
        fun p => Expr.blockLiteralsAll p args).add [.send message args.length])
    | args _ _ _ h =>
      rw [Expr.items, Expr.items, Expr.length_of_cutAll h]
      exact (Remains.refl _ receiver.blocks fun p => receiver.blockLiterals p).append
        ((Expr.remainsAll args h).add _)
  | superSend message args position =>
    cases h with
    | superArgs _ _ h =>
      rw [Expr.items, Expr.items, Expr.length_of_cutAll h]
      exact (Expr.remainsAll args h).add _
termination_by structural e

theorem Expr.remainsAll (es : List Expr) {es' : List Expr} {n : Nat}
    (h : Expr.CutAll x n es es') :
    Remains (Expr.itemsAll es) (Expr.itemsAll es') (Expr.blocksAll es) (Expr.blocksAll es')
      (fun p => Expr.blockLiteralsAll p es) (fun p => Expr.blockLiteralsAll p es') := by
  cases es with
  | nil => cases h
  | cons e rest =>
    cases h with
    | head _ h => exact (Expr.remains e h).append (.refl _ _ _)
    | tail _ h => exact (Remains.refl _ _ _).append (Expr.remainsAll rest h)
termination_by structural es

theorem Stat.remains (s : Stat) {s' : Stat} {n : Nat} (h : s.Cut x n s') :
    Remains s.items s'.items s.blocks s'.blocks (fun p => s.blockLiterals p)
      (fun p => s'.blockLiterals p) := by
  cases s with
  | expr value =>
    cases h with
    | expr h => exact Expr.remains value h
  | assign target value position =>
    cases h with
    | assign _ _ h => exact (Expr.remains value h).add _
  | ret value position =>
    cases h with
    | ret _ h => exact Expr.remains value h
termination_by structural s

/-- **What is left of statements.** -/
theorem Stat.remainsAll (ss : List Stat) {ss' : List Stat} {n : Nat}
    (h : Stat.CutAll x n ss ss') :
    Remains (Stat.itemsAll ss) (Stat.itemsAll ss') (Stat.blocksAll ss) (Stat.blocksAll ss')
      (fun p => Stat.blockLiteralsAll p ss) (fun p => Stat.blockLiteralsAll p ss') := by
  cases ss with
  | nil => cases h
  | cons s rest =>
    cases h with
    | head _ h => exact (Stat.remains s h).append (.refl _ _ _)
    | tail _ h => exact (Remains.refl _ _ _).append (Stat.remainsAll rest h)
termination_by structural ss

end

/-! ## What is left is accepted -/

namespace Stat.BodyCut

variable {path : List Nat} {ss ss' : List Stat}

/-- The block literals of a body that has been cut off are some of those that it had. -/
theorem heads (h : Stat.BodyCut x path ss ss') :
    ((Stat.blocksAll ss').map Prod.fst).Sublist ((Stat.blocksAll ss).map Prod.fst) := by
  cases h with
  | own =>
    rw [DeadEnd.whole, Stat.blocksAll_append, List.map_append]
    exact List.sublist_append_left _ _
  | inside h => exact (Stat.remainsAll _ h).heads

theorem items (h : Stat.BodyCut x path ss ss') : Stat.itemsAll ss' ⊆ Stat.itemsAll ss := by
  cases h with
  | own =>
    rw [DeadEnd.whole, Stat.itemsAll_append]
    exact List.subset_append_left _ _
  | inside h => exact (Stat.remainsAll _ h).items ▸ List.Subset.refl _

theorem literals (h : Stat.BodyCut x path ss ss') (p : Names) :
    ∃ kept, List.Forall₂ BlockLiteral.Keeps kept (Stat.blockLiteralsAll p ss')
      ∧ kept.Sublist (Stat.blockLiteralsAll p ss) := by
  cases h with
  | own =>
    refine ⟨_, Remains.forall₂_keeps _, ?_⟩
    rw [DeadEnd.whole, Stat.blockLiteralsAll_append]
    exact List.sublist_append_left _ _
  | inside h => exact (Stat.remainsAll _ h).literals p

theorem formed (h : Stat.BodyCut x path ss ss') (formed : BlocksFormed ss) : BlocksFormed ss' := by
  refine ⟨fun b hb => ?_, ?_⟩
  · obtain ⟨a, ha, same⟩ := List.mem_map.1 (h.heads.subset (List.mem_map_of_mem hb))
    exact same ▸ formed.declare a ha
  · have fewer := h.heads.length_le
    rw [List.length_map, List.length_map] at fewer
    exact Nat.le_trans fewer formed.few

end Stat.BodyCut

theorem StatsFit.of_subset {options : CompilerOptions} {p : Names} {ss ss' : List Stat}
    (h : StatsFit options p ss) (fewer : Stat.itemsAll ss' ⊆ Stat.itemsAll ss) :
    StatsFit options p ss' := by
  refine ⟨fun i hi => h.items i (fewer hi), Nat.le_trans (Finset.card_le_card ?_) h.strings⟩
  refine Finset.union_subset_union_right fun s hs => ?_
  simp only [stringsOf, List.mem_toFinset, List.mem_filterMap] at hs ⊢
  exact hs.imp fun i hi => ⟨fewer hi.1, hi.2⟩

/-- There is code for a body that has been cut off. -/
theorem BodyText.Generable.cut {options : CompilerOptions} {t : BodyText} {path : List Nat}
    {ss : List Stat} (h : t.Generable options) (cut : Stat.BodyCut x path t.stats ss) :
    BodyText.Generable options { t with stats := ss } := by
  refine ⟨h.own.of_subset cut.items, fun l hl => ?_⟩
  obtain ⟨kept, each, sub⟩ := cut.literals t.names
  obtain ⟨l₀, hl₀, keeps⟩ := forall₂_exists_of_mem each.flip hl
  have fits := h.blocks l₀ (sub.subset hl₀)
  have names : l.names = l₀.names := by
    rw [BlockLiteral.names, keeps.around, keeps.head, BlockLiteral.names]
  rw [BlockLiteral.Fits, names]
  exact StatsFit.of_subset fits keeps.items

namespace Method.Cut

variable {path : List Nat} {m m' : Method}

theorem selector (h : m.Cut x path m') : m'.selector = m.selector := by
  cases h
  rfl

theorem formed (h : m.Cut x path m') (formed : m.Formed) : m'.Formed := by
  cases h with
  | code kind h =>
    have blocks := formed.blocks
    rw [Method.stats, kind] at blocks
    exact ⟨formed.declares, h.formed blocks⟩

theorem generable {options : CompilerOptions} {fields : List String} (h : m.Cut x path m')
    (generable : m.Generable options fields) : m'.Generable options fields := by
  cases h with
  | code kind h =>
    refine ⟨?_, fun tag primitive => by cases primitive⟩
    rintro _ ⟨⟩
    have body := generable.body
    rw [Method.text, kind] at body
    exact (body _ rfl).cut h

end Method.Cut

/-- A class without its methods. -/
def ClassDef.outline (c : ClassDef) : ClassDef := { c with methods := [] }

section Outlines

variable {cs cs' : List ClassDef}

/-- An outline is all but the methods. -/
theorem ClassDef.of_outline {c c' : ClassDef} (same : c'.outline = c.outline) :
    c'.name = c.name ∧ c'.superclass = c.superclass ∧ c'.fields = c.fields := by
  simpa [outline] using same

theorem ClassDef.names_outline (cs : List ClassDef) :
    ClassDef.names (cs.map outline) = ClassDef.names cs := by
  rw [names, List.map_map]
  rfl

theorem ClassDef.allFields_outline (cs : List ClassDef) (name : String) :
    ClassDef.allFields (cs.map outline) name = ClassDef.allFields cs name := by
  induction cs generalizing name with
  | nil => rfl
  | cons c before ih =>
    have above : Resolve.superclassOf c.outline = Resolve.superclassOf c := rfl
    rw [List.map_cons, allFields, allFields, above, ih]
    cases Resolve.superclassOf c with
    | none => rfl
    | some above =>
      dsimp only
      rw [ih above]
      rfl

/-- The names of classes, and the fields of each, do not depend on methods. -/
theorem ClassDef.congr_outline (same : cs'.map ClassDef.outline = cs.map ClassDef.outline) :
    ClassDef.names cs' = ClassDef.names cs
      ∧ ∀ name, ClassDef.allFields cs'.reverse name = ClassDef.allFields cs.reverse name := by
  refine ⟨by rw [← names_outline, same, names_outline], fun name => ?_⟩
  rw [← allFields_outline, List.map_reverse, same, ← List.map_reverse, allFields_outline]

theorem ClassDef.inheritedFields_outline {c c' : ClassDef} (outline : c'.outline = c.outline)
    (same : ∀ name, ClassDef.allFields cs' name = ClassDef.allFields cs name) :
    c'.inheritedFields cs' = c.inheritedFields cs := by
  obtain ⟨name, superclass, -⟩ := of_outline outline
  have above : Resolve.superclassOf c' = Resolve.superclassOf c := by
    rw [Resolve.superclassOf, superclass, name, Resolve.superclassOf]
  rw [inheritedFields, above, inheritedFields]
  cases Resolve.superclassOf c with
  | none => rfl
  | some name => exact same name

end Outlines

/-- What is left of a program: the same classes with the same methods, but for one that may have
been cut off. -/
structure Program.Left (x : DeadEnd) (p p' : Program) : Prop where
  outlines : p'.classes.map ClassDef.outline = p.classes.map ClassDef.outline
  classes : ∀ c' ∈ p'.classes, ∃ c ∈ p.classes, c'.outline = c.outline
    ∧ c'.methods.map (·.selector) = c.methods.map (·.selector)
    ∧ ∀ m' ∈ c'.methods, ∃ m ∈ c.methods, m' = m ∨ ∃ path, m.Cut x path m'
  main : ∀ m', p'.main = some m' → ∃ m, p.main = some m ∧ m'.locals = m.locals
    ∧ (m'.body.stats = m.body.stats ∨ ∃ path, Stat.BodyCut x path m.body.stats m'.body.stats)

namespace Program

variable {p p' : Program} {id : BlockId}

theorem Cut.left (h : p.Cut x id p') : p.Left x p' := by
  have same (c : ClassDef) (hc : c ∈ p.classes) : ∃ d ∈ p.classes, c.outline = d.outline
      ∧ c.methods.map (·.selector) = d.methods.map (·.selector)
      ∧ ∀ m' ∈ c.methods, ∃ m ∈ d.methods, m' = m ∨ ∃ path, m.Cut x path m' :=
    ⟨c, hc, rfl, rfl, fun m hm => ⟨m, hm, .inl rfl⟩⟩
  cases h with
  | @method path before after c ms ms' m m' classes methods h =>
    refine ⟨?_, fun d hd => ?_, fun m₀ hm => ⟨m₀, hm, rfl, .inl rfl⟩⟩
    · rw [classes, List.map_append, List.map_append]
      rfl
    · have mem {d : ClassDef} (hd : d ∈ before ++ c :: after) : d ∈ p.classes := classes ▸ hd
      rcases List.mem_append.1 hd with hd | hd
      · exact same d (mem (List.mem_append_left _ hd))
      rcases List.mem_cons.1 hd with rfl | hd
      · refine ⟨c, mem (by simp), rfl, ?_, fun m₀ hm => ?_⟩
        · rw [methods, List.map_append, List.map_append, List.map_cons, List.map_cons, h.selector]
        · rw [methods]
          rcases List.mem_append.1 hm with hm | hm
          · exact ⟨m₀, List.mem_append_left _ hm, .inl rfl⟩
          rcases List.mem_cons.1 hm with rfl | hm
          · exact ⟨m, by simp, .inr ⟨path, h⟩⟩
          · exact ⟨m₀, by simp [hm], .inl rfl⟩
      · exact same d (mem (by simp [hd]))
  | main found h =>
    refine ⟨rfl, same, fun m₀ hm => ?_⟩
    cases hm
    exact ⟨_, found, rfl, .inr ⟨_, h⟩⟩

/-- **What is left of a well-formed program is well-formed.** -/
theorem Left.wellFormed (h : p.Left x p') (formed : p.WellFormed) : p'.WellFormed := by
  obtain ⟨names, fields⟩ := ClassDef.congr_outline h.outlines
  -- a class of what is left has its counterpart behind classes of the same names
  have split {before after : List ClassDef} {c : ClassDef}
      (at' : p'.classes = before ++ c :: after) :
      ∃ before₀ c₀ after₀, p.classes = before₀ ++ c₀ :: after₀ ∧ c₀.outline = c.outline
        ∧ ClassDef.names before₀ = ClassDef.names before := by
    have outlines := h.outlines
    rw [at', List.map_append, List.map_cons, eq_comm] at outlines
    obtain ⟨before₀, rest, classes, front, behind⟩ := List.map_eq_append_iff.1 outlines
    obtain ⟨c₀, after₀, rfl, outline, -⟩ := List.map_eq_cons_iff.1 behind
    exact ⟨before₀, c₀, after₀, classes, outline, (ClassDef.congr_outline front).1⟩
  refine ⟨names ▸ formed.distinct, fun main => ?_, fun before c after at' top other => ?_,
    fun before c after above at' sub => ?_, fun c' hc => ?_, fun m' hm => ?_⟩
  · obtain ⟨m', hm⟩ := Option.isSome_iff_exists.1 main
    obtain ⟨m, found, -⟩ := h.main m' hm
    rw [names]
    exact formed.mainName (found ▸ rfl)
  · obtain ⟨before₀, c₀, after₀, classes, outline, same⟩ := split at'
    obtain ⟨name, superclass, -⟩ := ClassDef.of_outline outline
    exact same ▸ formed.root before₀ c₀ after₀ classes (superclass.trans top) (name ▸ other)
  · obtain ⟨before₀, c₀, after₀, classes, outline, same⟩ := split at'
    obtain ⟨-, superclass, -⟩ := ClassDef.of_outline outline
    exact same ▸ formed.superclass before₀ c₀ after₀ above classes (superclass.trans sub)
  · obtain ⟨c, hc, outline, selectors, methods⟩ := h.classes c' hc
    obtain ⟨-, -, own⟩ := ClassDef.of_outline outline
    obtain ⟨distinct, apart, few, once, each⟩ := formed.classes c hc
    rw [ClassDef.inheritedFields_outline outline fields]
    refine ⟨own ▸ distinct, own ▸ apart, own ▸ few, selectors ▸ once, fun m' hm => ?_⟩
    obtain ⟨m, hm, rfl | ⟨path, cut⟩⟩ := methods m' hm
    · exact each m' hm
    · exact cut.formed (each m hm)
  · obtain ⟨m, found, locals, same | ⟨path, cut⟩⟩ := h.main m' hm
    · exact ⟨locals ▸ (formed.main m found).declares, same ▸ (formed.main m found).blocks⟩
    · exact ⟨locals ▸ (formed.main m found).declares, cut.formed (formed.main m found).blocks⟩

/-- **There is code for what is left** of a program that there is code for. -/
theorem Left.generable {options : CompilerOptions} (h : p.Left x p')
    (generable : p.Generable options) : p'.Generable options := by
  obtain ⟨-, fields⟩ := ClassDef.congr_outline h.outlines
  refine ⟨fun c' hc m' hm => ?_, fun m' hm => ?_⟩
  · obtain ⟨c, hc, outline, -, methods⟩ := h.classes c' hc
    obtain ⟨name, -, -⟩ := ClassDef.of_outline outline
    rw [fieldsOf, fields, name]
    obtain ⟨m, hm, rfl | ⟨path, cut⟩⟩ := methods m' hm
    · exact generable.methods c hc m' hm
    · exact cut.generable (generable.methods c hc m hm)
  · obtain ⟨m, found, locals, kept⟩ := h.main m' hm
    have body := generable.main m found ⟨mainSelector, ⟨[m.locals], _⟩, m.body.stats, .main⟩ rfl
    rw [fieldsOf, fields]
    rintro _ ⟨⟩
    rw [locals]
    rcases kept with same | ⟨path, cut⟩
    · exact same ▸ body
    · exact body.cut cut

/-- **What the compiler asks of a text.** -/
theorem accepted_iff {options : CompilerOptions} {p : Program} :
    (∃ log compiled, compileBare options p = (log, .ok compiled))
      ↔ p.WellFormed ∧ p.Generable options := by
  constructor
  · rintro ⟨log, compiled, accepted⟩
    obtain ⟨_, _, r, resolved, generated⟩ := Direct.compileBare_eq_ok accepted
    exact ⟨(resolves_iff_wellFormed p).1 ⟨_, r, resolved⟩,
      (generates_iff_generable resolved options).1.1 ⟨_, compiled, generated⟩⟩
  · rintro ⟨formed, generable⟩
    obtain ⟨log, r, resolved⟩ := (resolves_iff_wellFormed p).2 formed
    obtain ⟨log', compiled, generated⟩ := (generates_iff_generable resolved options).1.2 generable
    simp only [compileBare, resolved, generated]
    exact ⟨_, _, rfl⟩

/-- **If a program is accepted, then so is what is left of it.** -/
theorem Cut.accepted {options : CompilerOptions} {log : Log} {compiled : CompiledProgram}
    (h : p.Cut x id p') (accepted : compileBare options p = (log, .ok compiled)) :
    ∃ log' compiled', compileBare options p' = (log', .ok compiled') := by
  obtain ⟨formed, generable⟩ := accepted_iff.1 ⟨log, compiled, accepted⟩
  exact accepted_iff.2 ⟨h.left.wellFormed formed, h.left.generable generable⟩

end Program

end Colloquy
