import Colloquy.Machine.Arena
import Colloquy.Machine.Class

/-!
# Values

Numbers, characters, truth values and `nil` are what they say.  Every other value has an identity:
two strings with the same text are different objects, unless they come from the same literal of the
same block.  Strings, closures and classes never change and carry their contents; arrays and objects
do, and refer to a row of the store.
-/

namespace Colloquy

/-- The identity of a string. -/
inductive StringId where
  /-- The string of a literal of a block: the object in the literal's cell, which is filled when the
  literal is used for the first time. -/
  | literal (block : BlockId) (index : Nat)
  /-- A string made while running. -/
  | made (serial : Nat)
deriving DecidableEq, Inhabited

/-- The numbers that tell a string from all others. -/
def StringId.numbers : StringId → List Nat
  | literal block index => 0 :: index :: block.method :: block.path
  | made serial => [1, serial]

/-- Row numbers of the store. -/
abbrev Ref := Nat

inductive Value where
  | nil
  | bool (value : Bool)
  | int (value : Int32)
  | float (value : Single)
  | char (value : Char)
  | string (id : StringId) (text : String)
  | array (row : Ref)
  | block (closure : Closure Value)
  /-- An instance of a class; its fields are a row of the store. -/
  | object (cls : Class) (row : Ref)
  | cls (value : Class)

instance : Inhabited Value := ⟨.nil⟩

/-- A value is a reference, and holds no pin itself.  The closure that it refers to holds one, which
is taken when the closure is made and let go when its last reference goes.  When that is, is found
out by a census of everything that can be reached, not by counting references as they come and
go. -/
instance : Pinning Value := ⟨fun _ => []⟩

/-- The rows of all arrays and of the fields of all objects. -/
structure Store where
  rows : Array (Array Value) := #[]

namespace Store

instance : Inhabited Store := ⟨{}⟩

/-- A row; one that was never made is empty. -/
def row (s : Store) (r : Ref) : Array Value := s.rows.getD r #[]

/-- The store with one more row, and the number of that row. -/
def add (s : Store) (values : Array Value) : Store × Ref :=
  let r := s.rows.size
  (⟨s.rows.push values⟩, r)

/-- Puts a value into place `i` of a row. -/
def set (s : Store) (r : Ref) (i : Nat) (v : Value) : Store :=
  ⟨s.rows.modify r (·.setIfInBounds i v)⟩

/-- A new row is read back. -/
theorem row_add_self (s : Store) (values : Array Value) :
    (s.add values).1.row (s.add values).2 = values := by
  simp [add, row]

/-- A new row changes no other one. -/
theorem row_add_of_ne {s : Store} {values : Array Value} {r : Ref} (h : r ≠ (s.add values).2) :
    (s.add values).1.row r = s.row r := by
  simp only [add, ne_eq] at h
  simp only [add, row, Array.getD_eq_getD_getElem?, Array.getElem?_push, if_neg h]

/-- A row after a value was put into it. -/
theorem row_set_self (s : Store) (r : Ref) (i : Nat) (v : Value) :
    (s.set r i v).row r = (s.row r).setIfInBounds i v := by
  simp only [set, row, Array.getD_eq_getD_getElem?, Array.getElem?_modify, if_pos]
  cases s.rows[r]? <;> simp

/-- Putting a value into a row changes no other one. -/
theorem row_set_of_ne {s : Store} {r r' : Ref} (h : r ≠ r') (i : Nat) (v : Value) :
    (s.set r i v).row r' = s.row r' := by
  simp only [set, row, Array.getD_eq_getD_getElem?, Array.getElem?_modify, if_neg h]

end Store

namespace Value

def isClass : Value → Bool
  | cls _ => true
  | _ => false

/-- Whether two values are the same: equal numbers, characters and truth values, or one object.
Floats are compared by their bits. -/
def identical : Value → Value → Bool
  | nil, nil => true
  | bool a, bool b => a = b
  | int a, int b => a = b
  | float a, float b => a = b
  | char a, char b => a = b
  | string a _, string b _ => a = b
  | array a, array b => a = b
  | block a, block b => a.serial = b.serial
  | object _ a, object _ b => a = b
  | cls a, cls b => a.id = b.id
  | _, _ => false

/-- A number taken from the identity of an object of a given kind: the numbers that tell it from
others, mixed one after the other.  It stands for the address of the object. -/
def hashOf (kind : Nat) (numbers : List Nat) : Int32 :=
  let mix (h : UInt32) (n : Nat) : UInt32 := (h ^^^ n.toUInt32) * 16777619
  ((kind :: numbers).foldl mix 2166136261).toInt32

/-- The payload of a scalar, or a number taken from an object's identity. -/
def identityHash : Value → Int32
  | nil => 0
  | bool true => 1231
  | bool false => 1237
  | int n => n
  | float x => x.bits.toInt32
  | char c => c.val.toInt32
  | string id _ => hashOf 0 id.numbers
  | array r => hashOf 1 [r]
  | object _ r => hashOf 1 [r]
  | block c => hashOf 2 [c.serial]
  | cls c => hashOf 3 [c.id]

/-- Values compared by content where they are strings or arrays, by number where they are floats,
and by identity else.  `depth` bounds how far arrays inside arrays are followed. -/
def same (s : Store) : (depth : Nat) → Value → Value → Bool
  | _, string _ a, string _ b => a = b
  | _, float a, float b => a.numEq b
  | 0, array a, array b => a = b
  | depth + 1, array a, array b =>
    a = b || ((s.row a).size = (s.row b).size
      && ((s.row a).toList.zip (s.row b).toList).all fun (x, y) => same s depth x y)
  | _, a, b => a.identical b

/-- Equality of values as a host sees it. -/
def equal (s : Store) (a b : Value) : Bool := same s s.rows.size a b

/-- How deep arrays inside arrays are written out. -/
def renderDepth : Nat := 8

/-- The text of a value, with arrays written out `depth` deep. -/
def renderTo (s : Store) : (depth : Nat) → Value → String
  | _, nil => "nil"
  | _, bool true => "true"
  | _, bool false => "false"
  | _, int n => Text.integer n.toInt
  | _, float x => x.brief
  | _, char c => "$" ++ c.toString
  | _, string _ text => text
  | 0, array _ => "\x7b...\x7d"
  | depth + 1, array r =>
    "\x7b" ++ ". ".intercalate ((s.row r).toList.map (renderTo s depth)) ++ "\x7d"
  | _, block _ => "a BlockDescriptor"
  | _, object c _ => "a " ++ c.name
  | _, cls c => c.shown

/-- The text of a value. -/
def render (s : Store) (v : Value) : String := renderTo s renderDepth v

/-- The text of a value in traces: strings in quotes, closures by the name of their block. -/
def inspect (s : Store) : Value → String
  | string _ text => Text.quote text
  | block c => c.code.block.name
  | v => v.render s

/-- Values in brackets, as traces show them. -/
def inspectAll (s : Store) (vs : List Value) : String :=
  "[" ++ ", ".intercalate (vs.map (inspect s)) ++ "]"

end Value

end Colloquy
