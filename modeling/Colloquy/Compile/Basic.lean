import Colloquy.Compile.Emit

/-!
# The compiler

`compileBare` resolves a program and generates code for its classes and its main body.
-/

namespace Colloquy

/-- A class ready to be loaded. -/
structure CompiledClass where
  name : String
  superclass : Option String := none
  /-- The fields that the class adds to those it inherits. -/
  fields : List String := []
  methods : List Block := []
deriving Inhabited

namespace CompiledClass

def method? (c : CompiledClass) (selector : String) : Option Block :=
  c.methods.find? (·.name = selector)

/-- The class as text, with its methods in order. -/
def text (c : CompiledClass) : String :=
  "name: " ++ c.name ++ "\nsuperClass: " ++ c.superclass.getD ""
    ++ "\nfields: " ++ ",".intercalate c.fields ++ "\nmethods:\n"
    ++ String.join (c.methods.map fun m => Text.indent m.text)

end CompiledClass

/-- Classes, each after its superclass, and what the compiler warned about. -/
structure CompiledProgram where
  classes : List CompiledClass := []
  warnings : List String := []
deriving Inhabited

/-- The first class with a given name. -/
def CompiledProgram.class? (p : CompiledProgram) (name : String) : Option CompiledClass :=
  p.classes.find? (·.name = name)

namespace Emit

def cls (tree : ScopeTree) (options : CompilerOptions) (c : ClassDef) : Emit CompiledClass := do
  let methods ← c.methods.mapM (method tree options)
  return { name := c.name, superclass := c.superclass, fields := c.fields, methods }

/-- The class that holds the main body. -/
def mainAsClass (tree : ScopeTree) (options : CompilerOptions) (m : MainBody) :
    Emit CompiledClass := do
  return { name := mainClass, superclass := some rootClass, methods := [← mainBody tree options m] }

/-- All classes of a program, the one of the main body last. -/
def program (tree : ScopeTree) (options : CompilerOptions) (p : Program) :
    Emit (List CompiledClass) := do
  let classes ← p.classes.mapM (cls tree options)
  match p.main with
  | none => return classes
  | some m => return classes ++ [← mainAsClass tree options m]

end Emit

/-- Generates code for a resolved program; the log comes with an error too. -/
def generate (options : CompilerOptions) (r : Resolution) :
    Log × Except CompileError CompiledProgram :=
  match Emit.program r.tree options r.program {} with
  | .ok classes g => (g.log, .ok { classes, warnings := g.warnings.toList })
  | .error e g => (g.log, .error e)

/-- Compiles a program that defines every class it uses. -/
def compileBare (options : CompilerOptions) (p : Program) :
    Log × Except CompileError CompiledProgram :=
  match resolve p with
  | (log, .error e) => (log, .error e)
  | (log, .ok resolution) =>
    match generate options resolution with
    | (more, .error e) => (log ++ more, .error e)
    | (more, .ok compiled) =>
      let last :=
        "compiled " ++ compiled.classes.length.repr ++ " classes with "
          ++ compiled.warnings.length.repr ++ " warning(s)"
      ((log ++ more).push ⟨.debug, last⟩, .ok compiled)

end Colloquy
