import Colloquy.Machine.Arena

/-!
# Cells

The least that frames can hold for all there is to say about pins: nothing, a number, or a closure.
A closure keeps its frame pinned, and what its receiver keeps pinned.
-/

namespace Colloquy

inductive Cell where
  | nil
  | int (n : Int)
  | block (closure : Closure Cell)
deriving Inhabited

namespace Cell

/-- The receiver's pins go first, then the closure's own. -/
def pins : Cell → List FrameId
  | nil | int _ => []
  | block ⟨_, _, enclosing, _, receiver⟩ => receiver.pins ++ [enclosing]

instance : Pinning Cell := ⟨pins⟩

/-- A closure made by a frame, for which it takes the pins; nothing if the frame is gone.  Its home
is that of the frame unless another one is given. -/
def close? (a : Arena Cell) (frame : FrameId) (code : Code) (home : Option FrameId)
    (receiver : Cell) : Option (Arena Cell × Closure Cell) :=
  (a.get? frame).map fun f =>
    let c : Closure Cell := ⟨0, code, frame, home.getD f.home, receiver⟩
    (a.hold (block c), c)

end Cell

end Colloquy
