import Colloquy.Compile.Basic
import Colloquy.Machine.Fault
import Colloquy.Machine.Value

/-!
# Loading classes

`Image.load` turns compiled classes into an image: the loaded classes by name and in order, the
classes of the values that the machine knows itself, and the object that programs write to.  A class
has to come after its superclass, and a later class of the same name takes the name over.
-/

namespace Colloquy

/-- A class to be loaded.  Each method comes with the number of its block; two methods with one
number are the same block. -/
structure LoadClass where
  name : String
  superclass : Option String := none
  fields : List String := []
  methods : List (Nat × Block) := []
deriving Inhabited

/-- The classes of the values that the machine knows itself. -/
structure KnownClasses where
  undefinedObject : Class
  boolean : Class
  integer : Class
  float : Class
  character : Class
  string : Class
  array : Class
  block : Class
deriving Inhabited

/-- All loaded classes, fixed before anything runs. -/
structure Image where
  /-- In the order of loading, which is that of the class numbers. -/
  classes : Array Class
  byName : Std.HashMap String Class
  known : KnownClasses
  /-- The object that the name `Transcript` stands for. -/
  transcript : Value
deriving Inhabited

namespace Image

/-- What loading has done so far. -/
structure Loader where
  classes : Array Class := #[]
  byName : Std.HashMap String Class := {}
  /-- The class of every block so far. -/
  owners : Std.HashMap Nat ClassId := {}
  log : Log := #[]

/-- Ties a method to the class being loaded.  A block that already belongs to a class stays with
it, and is reported with all blocks nested in it. -/
def link (cls : ClassId) (number : Nat) (block : Block) (owners : Std.HashMap Nat ClassId)
    (log : Log) : Code × Std.HashMap Nat ClassId × Log :=
  match owners[number]? with
  | some owner =>
    let warnings := block.names.map fun name =>
      (⟨.warn, name ++ " is already linked to a class"⟩ : LogEntry)
    (⟨block, { method := number }, some owner⟩, owners, log ++ warnings)
  | none => (⟨block, { method := number }, some cls⟩, owners.insert number cls, log)

/-- Ties methods to the class being loaded; of two with one name, the later one counts. -/
def linkAll (cls : ClassId) : List (Nat × Block) → (methods : Std.HashMap String Code) →
    (owners : Std.HashMap Nat ClassId) → (log : Log) →
    Std.HashMap String Code × Std.HashMap Nat ClassId × Log
  | [], methods, owners, log => (methods, owners, log)
  | (number, block) :: rest, methods, owners, log =>
    let (code, owners, log) := link cls number block owners log
    linkAll cls rest (methods.insert block.name code) owners log

/-- The definitions that a class inherits. -/
def inherited (byName : Std.HashMap String Class) (c : LoadClass) :
    Except Cause (List ClassInfo) :=
  match c.superclass with
  | none => .ok []
  | some name =>
    match byName[name]? with
    | some above => .ok above.chain
    | none => .error (.missingSuperclass name c.name)

/-- Loads one more class. -/
def install (l : Loader) (c : LoadClass) : Except Cause Loader :=
  match inherited l.byName c with
  | .error e => .error e
  | .ok above =>
    let id := l.classes.size
    let (methods, owners, log) := linkAll id c.methods {} l.owners l.log
    let cls : Class := { info := { id, name := c.name, fields := c.fields, methods }, above }
    let installed := "installed class " ++ c.name ++ " (" ++ cls.numFields.repr ++ " fields)"
    .ok
      { classes := l.classes.push cls
        byName := l.byName.insert c.name cls
        owners
        log := log.push ⟨.debug, installed⟩ }

/-- Loads classes in order; the log comes with an error too. -/
def installAll : List LoadClass → Loader → Log × Except Cause Loader
  | [], l => (l.log, .ok l)
  | c :: rest, l =>
    match install l c with
    | .error e => (l.log, .error e)
    | .ok l => installAll rest l

/-- A class that the machine cannot do without. -/
def required (byName : Std.HashMap String Class) (name : String) : Except Cause Class :=
  match byName[name]? with
  | some c => .ok c
  | none => .error (.missingSystemClass name)

/-- The classes of built-in values. -/
def knownClasses (byName : Std.HashMap String Class) : Except Cause KnownClasses := do
  return {
    undefinedObject := ← required byName "UndefinedObject"
    boolean := ← required byName "Boolean"
    integer := ← required byName "Integer"
    float := ← required byName "Float"
    character := ← required byName "Character"
    string := ← required byName "String"
    array := ← required byName "Array"
    block := ← required byName "BlockDescriptor" }

/-- A new object of a class, with all fields `nil`. -/
def instantiate (s : Store) (c : Class) : Store × Value :=
  let (s, row) := s.add (Array.replicate c.numFields .nil)
  (s, .object c row)

/-- The image of loaded classes, and a store with the transcript object. -/
def finish (l : Loader) : Except Cause (Image × Store) := do
  let known ← knownClasses l.byName
  let (store, transcript) := instantiate {} (← required l.byName "TranscriptStream")
  return ({ classes := l.classes, byName := l.byName, known, transcript }, store)

/-- Loads classes into a new image; the log comes with an error too. -/
def load (classes : List LoadClass) : Log × Except Cause (Image × Store) :=
  match installAll classes {} with
  | (log, .error e) => (log, .error e)
  | (log, .ok l) => (log, finish l)

/-- What a global name stands for: `nil`, the transcript, or a class. -/
def lookup (i : Image) (name : String) : Option Value :=
  if name = "nil" then some .nil
  else if name = "Transcript" then some i.transcript
  else (i.byName[name]?).map .cls

/-- The class that answers a value's messages.  A class answers its own. -/
def classOf (i : Image) : Value → Class
  | .nil => i.known.undefinedObject
  | .bool _ => i.known.boolean
  | .int _ => i.known.integer
  | .float _ => i.known.float
  | .char _ => i.known.character
  | .string _ _ => i.known.string
  | .array _ => i.known.array
  | .block _ => i.known.block
  | .object c _ => c
  | .cls c => c

def className (i : Image) (v : Value) : String := (i.classOf v).name

end Image

/-- Numbers the methods of compiled classes from `next` on, each as a block of its own. -/
def LoadClass.ofCompiled (next : Nat) (c : CompiledClass) : LoadClass :=
  { name := c.name
    superclass := c.superclass
    fields := c.fields
    methods := c.methods.zipIdx next |>.map fun (b, n) => (n, b) }

/-- The classes of a compiled program, with their methods numbered from `next` on, and the number
after the last one. -/
def LoadClass.ofProgram : List CompiledClass → (next : Nat) → List LoadClass × Nat
  | [], next => ([], next)
  | c :: rest, next =>
    let (more, last) := ofProgram rest (next + c.methods.length)
    (ofCompiled next c :: more, last)

end Colloquy
