import Colloquy.Machine.Code
import Std.Data.HashMap

/-!
# Loaded classes

A class knows what it defines itself and, nearest first, what its superclasses define.  Looking up a
selector takes the first definition on that chain.
-/

namespace Colloquy

/-- What one class defines. -/
structure ClassInfo where
  id : ClassId
  name : String
  /-- The fields beside the inherited ones. -/
  fields : List String
  methods : Std.HashMap String Code
deriving Inhabited

/-- A class with its superclasses. -/
structure Class where
  info : ClassInfo
  /-- The definitions of the superclasses, nearest first. -/
  above : List ClassInfo := []
deriving Inhabited

namespace Class

def id (c : Class) : ClassId := c.info.id

def name (c : Class) : String := c.info.name

/-- The definitions that instances of the class can use, nearest first. -/
def chain (c : Class) : List ClassInfo := c.info :: c.above

def superclass? (c : Class) : Option Class :=
  match c.above with
  | [] => none
  | info :: above => some { info, above }

/-- The number of fields of an instance, inherited ones included. -/
def numFields (c : Class) : Nat := c.chain.foldr (fun info n => info.fields.length + n) 0

/-- The nearest definition of a selector. -/
def lookup (c : Class) (selector : String) : Option Code :=
  c.chain.findSome? (·.methods[selector]?)

/-- The class as text, with its own methods sorted by selector. -/
def text (c : Class) : String :=
  let methods := c.info.methods.toList.mergeSort fun a b => a.1 ≤ b.1
  "name: " ++ c.name ++ "\nsuperClass: " ++ (c.superclass?.map (·.name)).getD ""
    ++ "\nfields: " ++ ",".intercalate c.info.fields ++ "\nmethods:\n"
    ++ Text.indent ("\n".intercalate (methods.map fun m => m.2.block.text))

/-- How a class is shown as a value. -/
def shown (c : Class) : String := "class " ++ c.name

end Class

end Colloquy
