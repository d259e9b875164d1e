/-!
# Text layout

Columns, fixed-width numbers and lines.  Widths count characters, and a text that is already wider
than its column is kept whole.
-/

namespace Colloquy.Text

/-- `n` copies of the character `c`. -/
def fill (c : Char) (n : Nat) : String := "".pushn c n

/-- Fills a column of `width` characters from the left, with blanks behind. -/
def padRight (s : String) (width : Nat) : String := s ++ fill ' ' (width - s.length)

/-- Fills a column of `width` characters from the right, with blanks in front. -/
def padLeft (s : String) (width : Nat) : String := fill ' ' (width - s.length) ++ s

/-- The decimal text of `n`, with zeros in front up to `width` digits. -/
def zeroPadded (n width : Nat) : String :=
  fill '0' (width - n.repr.length) ++ n.repr

/-- The decimal text of an integer, with a minus sign for negative ones. -/
def integer (n : Int) : String :=
  if n < 0 then "-" ++ n.natAbs.repr else n.natAbs.repr

/-- One hexadecimal digit in lower case. -/
def hexDigit (n : Nat) : Char :=
  if n < 10 then Char.ofNat (48 + n) else Char.ofNat (87 + n)

/-- A byte as two hexadecimal digits. -/
def hexByte (b : UInt8) : String :=
  String.ofList [hexDigit (b.toNat / 16), hexDigit (b.toNat % 16)]

/-- The text with one carriage return at its end removed. -/
def dropReturn (s : String) : String :=
  match s.toList.reverse with
  | '\r' :: rest => String.ofList rest.reverse
  | _ => s

/-- The lines of a text.  A line feed, or a carriage return and a line feed, ends a line; the text
after the last line feed is a line only if it is not empty, and then keeps its carriage return. -/
def lines (s : String) : List String :=
  match (s.splitOn "\n").reverse with
  | [] => []
  | last :: ended =>
    (ended.reverse.map dropReturn) ++ (if last.isEmpty then [] else [last])

/-- Every line of `s`, moved right by four columns and ended by a line feed. -/
def indent (s : String) : String :=
  String.join ((lines s).map fun line => "    " ++ line ++ "\n")

/-- A string in single quotes, as values are shown in listings. -/
def quote (s : String) : String := "'" ++ s ++ "'"

end Colloquy.Text
