/-!
# Single-precision numbers

A number is its 32-bit pattern, so two numbers are the same exactly when their patterns are: zeros
of both signs and all payloads of *not a number* stay apart.  A finite pattern stands for
`significand * 2 ^ exponent` with the sign of its top bit.
-/

namespace Colloquy

/-- A binary floating-point number of single precision, given by its bits. -/
structure Single where
  /-- Sign, eight bits of exponent, twenty-three bits of fraction. -/
  bits : UInt32
deriving DecidableEq, Inhabited

namespace Single

/-- Whether the sign bit is set. -/
def negative (x : Single) : Bool := x.bits.toNat ≥ Nat.pow 2 31

/-- The pattern without its sign bit. -/
def unsigned (x : Single) : Nat := x.bits.toNat % Nat.pow 2 31

/-- The eight exponent bits. -/
def biased (x : Single) : Nat := x.unsigned / Nat.pow 2 23

/-- The twenty-three fraction bits. -/
def fraction (x : Single) : Nat := x.unsigned % Nat.pow 2 23

def isFinite (x : Single) : Bool := x.biased < 255

def isNaN (x : Single) : Bool := x.biased = 255 && x.fraction ≠ 0

/-- The integer that the magnitude is a power of two times of. -/
def significand (x : Single) : Nat :=
  if x.biased = 0 then x.fraction else Nat.pow 2 23 + x.fraction

/-- The power of two that scales the significand. -/
def exponent (x : Single) : Int :=
  if x.biased = 0 then -149 else (x.biased : Int) - 150

/-- The magnitude as a fraction of natural numbers: `significand * 2 ^ exponent`. -/
def ratio (x : Single) : Nat × Nat :=
  (x.significand * Nat.pow 2 x.exponent.toNat, Nat.pow 2 (-x.exponent).toNat)

/-- Position in the numeric order; both zeros have position `0`. -/
def rank (x : Single) : Int :=
  if x.negative then -(x.unsigned : Int) else x.unsigned

/-- Numeric equality: *not a number* equals nothing, and the two zeros are equal. -/
def numEq (x y : Single) : Bool := !x.isNaN && !y.isNaN && x.rank == y.rank

def numLt (x y : Single) : Bool := !x.isNaN && !y.isNaN && x.rank < y.rank

def numLe (x y : Single) : Bool := !x.isNaN && !y.isNaN && x.rank ≤ y.rank

/-- The same pattern with the bit set that marks a quiet *not a number*. -/
def quiet (x : Single) : Single := ⟨x.bits ||| 0x00400000⟩

/-- The pattern that an invalid operation answers. -/
def invalid : Single := ⟨0xFFC00000⟩

/-- An arithmetic operation rounded to nearest.  *Not a number* in an operand is passed on quietly,
the first operand's before the second's; an invalid operation answers `invalid`. -/
def arith (op : Float32 → Float32 → Float32) (x y : Single) : Single :=
  if x.isNaN then x.quiet
  else if y.isNaN then y.quiet
  else
    let r : Single := ⟨(op (Float32.ofBits x.bits) (Float32.ofBits y.bits)).toBits⟩
    if r.isNaN then invalid else r

def add : Single → Single → Single := arith (· + ·)

def sub : Single → Single → Single := arith (· - ·)

def mul : Single → Single → Single := arith (· * ·)

def div : Single → Single → Single := arith (· / ·)

/-- The integer part, clamped to the range of 32-bit integers; *not a number* gives `0`. -/
def truncate (x : Single) : Int32 :=
  if x.isNaN then 0
  else
    let size : Int := (x.ratio.1 / x.ratio.2 : Nat)
    Int32.ofInt (max (-2147483648) (min 2147483647 (if x.negative then -size else size)))

/-- The nearest single-precision number to an integer. -/
def ofInt32 (n : Int32) : Single := ⟨n.toFloat32.toBits⟩

end Single

end Colloquy
