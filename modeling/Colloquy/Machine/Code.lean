import Colloquy.Block

/-!
# Loaded code

A compiled block becomes code when it is loaded: it gets an identity, and the class that it belongs
to.  The blocks nested in a method share its class, and their identities extend the method's.
-/

namespace Colloquy

/-- Classes are numbered in the order in which they are loaded. -/
abbrev ClassId := Nat

/-- Which loaded block a piece of code is: the number of its method, and the way from there through
the tables of nested blocks. -/
structure BlockId where
  method : Nat
  path : List Nat := []
deriving DecidableEq, Hashable, Inhabited

/-- A loaded block. -/
structure Code where
  block : Block
  id : BlockId
  /-- The class that the block was loaded with, if any. -/
  owner : Option ClassId := none
deriving Inhabited

namespace Code

/-- The code of nested block `i`. -/
def nested? (c : Code) (i : Nat) : Option Code :=
  (c.block.blocks[i]?).map fun block =>
    { block, id := { c.id with path := i :: c.id.path }, owner := c.owner }

end Code

end Colloquy
