import Colloquy.Number.Single
import Colloquy.Text.Layout

/-!
# Decimal text of single-precision numbers

Two ways to write a number in decimal.

* `Single.shortest` gives the fewest digits that still read back as the same number, and
  `Single.text` writes them without an exponent.
* `Single.fixed5` rounds the exact value to five places, a tie going to the even neighbour, and
  `Single.brief` drops what a reader does not need: zeros at the end of the fraction, a bare point,
  and the zero before the point.
-/

namespace Colloquy

/-- The quotient rounded to the nearest natural number; a tie goes to the even neighbour. -/
def roundDivEven (n d : Nat) : Nat :=
  let q := n / d
  let twice := 2 * (n % d)
  if twice < d then q else if d < twice then q + 1 else q + q % 2

namespace Single

/-! ## Fewest digits -/

/-- A decimal `coefficient * 10 ^ exponent`. -/
structure Digits where
  coefficient : Nat
  exponent : Int
deriving DecidableEq

/-- The values that read back as one number, scaled to natural numbers: everything between `low`
and `high` rounds to `mid`, the ends themselves only if `closed`. -/
structure Span where
  low : Nat
  mid : Nat
  high : Nat
  unit : Nat
  closed : Bool

/-- The span of a finite number, in quarters of its last place.  Below a power of two the
neighbours are twice as dense, so the lower half is one quarter instead of two. -/
def span (x : Single) : Span :=
  let m := x.significand
  let below := if x.fraction = 0 && x.biased > 1 then 1 else 2
  let up := Nat.pow 2 (x.exponent - 2).toNat
  { low := (4 * m - below) * up
    mid := 4 * m * up
    high := (4 * m + 2) * up
    unit := Nat.pow 2 (2 - x.exponent).toNat
    closed := m % 2 = 0 }

/-- Whether the grid point `n / d` lies in the span, where `n` counts `d`-ths of a unit. -/
def Span.contains (s : Span) (point scale grid : Nat) : Bool :=
  let p := point * grid
  if s.closed then s.low * scale ≤ p && p ≤ s.high * scale
  else s.low * scale < p && p < s.high * scale

/-- The nearest multiple of `10 ^ e` in the span, if any: the value's lower neighbour on that grid
or its upper one, the nearer if both are in the span, and the upper one on a tie. -/
def Span.onGrid (s : Span) (e : Int) : Option Nat :=
  let grid := s.unit * Nat.pow 10 e.toNat
  let scale := Nat.pow 10 (-e).toNat
  let mid := s.mid * scale
  let down := mid / grid
  let lower := s.contains down scale grid && down ≠ 0
  let upper := s.contains (down + 1) scale grid
  if upper && (!lower || grid ≤ 2 * (mid % grid)) then some (down + 1)
  else if lower then some down
  else none

/-- Looks for a grid point from `10 ^ e` down, over at most `n` grids. -/
def Span.search (s : Span) : (n : Nat) → (e : Int) → Digits
  | 0, _ => ⟨0, 0⟩
  | n + 1, e =>
    match s.onGrid e with
    | some c => ⟨c, e⟩
    | none => s.search n (e - 1)

/-- The fewest digits that read back as a finite number.  No single-precision number reaches
`10 ^ 39`, and none needs a digit below `10 ^ (-60)`. -/
def shortest (x : Single) : Digits :=
  if x.significand = 0 then ⟨0, 0⟩ else x.span.search 100 39

/-- A decimal written out in full, without an exponent. -/
def Digits.positional (d : Digits) : String :=
  let digits := d.coefficient.repr
  if d.exponent ≥ 0 then digits ++ Text.fill '0' (if d.coefficient = 0 then 0 else d.exponent.toNat)
  else
    let places := (-d.exponent).toNat
    let padded := Text.fill '0' (places + 1 - digits.length) ++ digits
    let whole := padded.toList.take (padded.length - places)
    String.ofList whole ++ "." ++ String.ofList (padded.toList.drop (padded.length - places))

/-- The sign in front of a number's text. -/
def sign (x : Single) : String := if x.negative then "-" else ""

/-- Text of the patterns that are no finite number. -/
def special (x : Single) : String := if x.isNaN then "NaN" else x.sign ++ "inf"

/-- The shortest text that reads back as the same number. -/
def text (x : Single) : String :=
  if x.isFinite then x.sign ++ x.shortest.positional else x.special

/-! ## Five places -/

/-- The magnitude in units of `10 ^ (-5)`, rounded to nearest, ties to even. -/
def fixed5 (x : Single) : Nat := roundDivEven (x.ratio.1 * Nat.pow 10 5) x.ratio.2

/-- The number written out with five places. -/
def fixedText (x : Single) : String :=
  x.sign ++ (x.fixed5 / Nat.pow 10 5).repr ++ "." ++ Text.zeroPadded (x.fixed5 % Nat.pow 10 5) 5

/-- Takes the zeros off the end of a text with a point in it, and then the point if it is last. -/
def dropZeros (s : String) : String :=
  if '.' ∈ s.toList then
    let kept := s.toList.reverse.dropWhile (· = '0')
    String.ofList (if kept.head? = some '.' then kept.tail else kept).reverse
  else s

/-- Takes off a single zero before the point, also behind a minus sign. -/
def dropLeadingZero (s : String) : String :=
  match s.toList with
  | '0' :: '.' :: rest => "." ++ String.ofList rest
  | '-' :: '0' :: '.' :: rest => "-." ++ String.ofList rest
  | _ => s

/-- At most five places, no zeros at the end and none before the point. -/
def brief (x : Single) : String :=
  if !x.isFinite then x.special else dropLeadingZero (dropZeros x.fixedText)

end Single

end Colloquy
