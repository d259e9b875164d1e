/-!
# Source positions

Lines count from one and columns from zero.  A position is packed into one 32-bit word, the line in
the upper half and the column in the lower; a number that does not fit its half becomes `65535`.
-/

namespace Colloquy

/-- A place in a source text. -/
structure Position where
  line : UInt32 := 0
  column : UInt32 := 0
deriving DecidableEq, Inhabited

namespace Position

/-- The largest line or column that half a word holds. -/
def halfMax : UInt32 := 65535

/-- The position as a packed word holds it. -/
def saturate (p : Position) : Position := ⟨min p.line halfMax, min p.column halfMax⟩

/-- Line and column side by side in one word. -/
def pack (p : Position) : UInt32 := (p.saturate.line <<< 16) ||| p.saturate.column

/-- The two halves of a packed word. -/
def unpack (w : UInt32) : Position := ⟨w >>> 16, w &&& halfMax⟩

/-- `line:column`. -/
def text (p : Position) : String := p.line.toNat.repr ++ ":" ++ p.column.toNat.repr

/-- The place one column before `p`, on the same line. -/
def before (p : Position) : Position :=
  ⟨p.line, if p.column = 0 then 0 else p.column - 1⟩

end Position

end Colloquy
