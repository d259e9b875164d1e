import Colloquy.Compile.Error
import Std.Data.HashMap

/-!
# Literal pools

The strings that one block of code refers to, each once, numbered in the order of first insertion.
Selectors, names of globals, string constants and the file name share one numbering.
-/

namespace Colloquy

/-- A numbering of strings. -/
structure LiteralPool where
  /-- The strings, in the order of their numbers. -/
  entries : Array String := #[]
  /-- The number of every string in `entries`. -/
  index : Std.HashMap String UInt16 := {}

namespace LiteralPool

instance : Inhabited LiteralPool := ⟨{}⟩

/-- How many strings a pool can hold: as many as there are shorts. -/
def capacity : Nat := 65536

/-- The number of a string, which is added if it is new and there is room, and the pool afterwards;
a string that finds no room leaves the pool as it was. -/
def insert (pool : LiteralPool) (s : String) : Except CompileError UInt16 × LiteralPool :=
  match pool with
  | ⟨entries, index⟩ =>
    match index[s]? with
    | some i => (.ok i, ⟨entries, index⟩)
    | none =>
      let i := entries.size
      if i < capacity then (.ok i.toUInt16, ⟨entries.push s, index.insert s i.toUInt16⟩)
      else (.error (.tooManyLiterals s), ⟨entries, index⟩)

/-- The number of a string, if it is there. -/
def lookup (pool : LiteralPool) (s : String) : Option UInt16 := pool.index[s]?

/-- The string with a given number. -/
def get? (pool : LiteralPool) (i : UInt16) : Option String := pool.entries[i.toNat]?

def size (pool : LiteralPool) : Nat := pool.entries.size

def isEmpty (pool : LiteralPool) : Bool := pool.entries.isEmpty

end LiteralPool

end Colloquy
