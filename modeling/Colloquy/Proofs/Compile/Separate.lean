import Colloquy.Proofs.Compile.Lexical

/-!
# Classes compile independently

A class is compiled to what its text and its inherited fields say (`compileBare_lexical`), and it
stands among the compiled classes where it stands in the program.  So nothing that is listed before
or after it, and no main body, has a part in it; and the library, which `compile` puts in front,
comes out of every program as it does out of the empty one.

Main statement: `classes_compile_alone`.
-/

namespace Colloquy

namespace Lexical

variable (options : CompilerOptions) {before after cs ds : List ClassDef} {c : ClassDef}

theorem length_classes (before cs : List ClassDef) :
    (classes options before cs).length = cs.length := by
  induction cs generalizing before with
  | nil => rfl
  | cons c rest ih => exact congrArg (· + 1) (ih (c :: before))

theorem classes_append :
    classes options before (cs ++ ds)
      = classes options before cs ++ classes options (cs.reverse ++ before) ds := by
  induction cs generalizing before with
  | nil => rfl
  | cons c rest ih =>
    rw [List.cons_append, classes, classes, ih, List.reverse_cons, List.append_assoc]
    rfl

/-- Compiled classes have the names of the classes. -/
theorem names_classes : (classes options before cs).map (·.name) = cs.map (·.name) := by
  induction cs generalizing before with
  | nil => rfl
  | cons c rest ih => exact congrArg (c.name :: ·) ih

/-- **A class is compiled where it stands.** -/
theorem getElem?_program {p : Program} (split : p.classes = before ++ c :: after) :
    (program options p)[before.length]?
      = some (cls options (c.inheritedFields before.reverse) c) := by
  have front := length_classes options [] before
  rw [program, split, classes_append, List.append_assoc,
    List.getElem?_append_right (Nat.le_of_eq front), front, Nat.sub_self, List.append_nil]
  rfl

end Lexical

/-- Classes of built-in methods can be compiled by themselves, the root class first. -/
theorem compileBare_builtin (options : CompilerOptions) {cs : List ClassDef}
    (builtin : ∀ c ∈ cs, c.isBuiltin) (distinct : (cs.map (·.name)).Nodup)
    (root : ∀ c ∈ cs.head?, c.name = rootClass) :
    ∃ log compiled, compileBare options { classes := cs } = (log, .ok compiled) := by
  obtain ⟨cs', σ, resolved, -, -, compiles⟩ :=
    Resolve.classes_builtin (σ := {}) [] [] builtin distinct (by simp) (.inl root)
  rw [List.append_nil, List.append_nil] at resolved
  have program : Resolve.program { classes := cs } {}
      = .ok { classes := cs', main := none } σ := by
    refine EStateM.bind_eq_ok.2 ⟨cs'.reverse.reverse, σ, resolved, ?_⟩
    rw [List.reverse_reverse]
    rfl
  obtain ⟨out, g, made⟩ :=
    Emit.mapM_of_forall (fun c hc => compiles σ.tree (.refl _) c hc options) {}
  have generated : Emit.program σ.tree options { classes := cs', main := none } {} = .ok out g :=
    EStateM.bind_eq_ok.2 ⟨out, g, made, rfl⟩
  simp only [compileBare, resolve, program, generate, generated]
  exact ⟨_, _, rfl⟩

/-- **Classes compile independently.**  Two accepted programs that have a class in common, with the
same fields inherited in both, compile it to the same: whatever else they have, and wherever the
class stands.  In particular the library compiles by itself, and whatever `compile` accepts starts
with its classes as they are compiled then. -/
theorem classes_compile_alone (options : CompilerOptions) :
    (∀ {p q : Program} {log log' : Log} {compiled compiled' : CompiledProgram},
      compileBare options p = (log, .ok compiled) →
      compileBare options q = (log', .ok compiled') →
      ∀ {c : ClassDef} {before after before' after' : List ClassDef},
        p.classes = before ++ c :: after → q.classes = before' ++ c :: after' →
        c.inheritedFields before.reverse = c.inheritedFields before'.reverse →
        ∃ C, compiled.classes[before.length]? = some C
          ∧ compiled'.classes[before'.length]? = some C ∧ C.name = c.name)
      ∧ ∃ log base, compile options {} = (log, .ok base)
        ∧ base.classes.map (·.name) = Library.classes.map (·.name)
        ∧ ∀ {p : Program} {log : Log} {compiled : CompiledProgram},
          compile options p = (log, .ok compiled) → base.classes <+: compiled.classes := by
  constructor
  · intro p q log log' compiled compiled' accepted accepted' c before after before' after' split
      split' inherited
    refine ⟨Lexical.cls options (c.inheritedFields before.reverse) c, ?_, ?_, rfl⟩
    · rw [compileBare_lexical accepted, Lexical.getElem?_program options split]
    · rw [compileBare_lexical accepted', Lexical.getElem?_program options split', inherited]
  · obtain ⟨log, base, alone⟩ := compileBare_builtin options library_isBuiltin library_distinct
      (by simp [Library.classes, Library.object])
    have classes : base.classes = Lexical.classes options [] Library.classes := by
      rw [compileBare_lexical alone, Lexical.program, Option.toList, List.map_nil, List.append_nil]
    refine ⟨log, base, alone, by rw [classes, Lexical.names_classes], fun accepted => ?_⟩
    rw [compileBare_lexical accepted, classes, Lexical.program, Lexical.classes_append,
      List.append_assoc]
    exact List.prefix_append _ _

/-- The strings of the library, with all of it around them and with the root class alone. -/
theorem classes_compile_alone_string : ∃ log log' compiled compiled' C,
    compileBare {} pixelProgram.onLibrary = (log, .ok compiled)
      ∧ compileBare {} { classes := [Library.object, Library.string] } = (log', .ok compiled')
      ∧ compiled.classes[6]? = some C ∧ compiled'.classes[1]? = some C ∧ C.name = "String" := by
  obtain ⟨log, compiled, accepted, -⟩ := pixelProgram_compiles
  have alone : ∃ log compiled,
      compileBare {} { classes := [Library.object, Library.string] } = (log, .ok compiled) :=
    compileBare_builtin {} (by decide) (by decide) (by decide)
  obtain ⟨log', compiled', accepted'⟩ := alone
  have seventh : pixelProgram.onLibrary.classes = Library.classes.take 6 ++ Library.string ::
      (Library.classes.drop 7 ++ pixelProgram.classes) := rfl
  have second : [Library.object, Library.string] = [Library.object] ++ Library.string :: [] := rfl
  obtain ⟨C, here, there, name⟩ :=
    (classes_compile_alone {}).1 accepted accepted' seventh second rfl
  exact ⟨log, log', compiled, compiled', C, accepted, accepted', here, there, name⟩

end Colloquy
