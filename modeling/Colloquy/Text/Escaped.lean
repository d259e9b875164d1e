import Colloquy.Text.Unprinted

/-!
# Strings with escapes

A string between double quotes in which every character can be seen: quotes and backslashes are
marked by a backslash, and characters that do not print are given by their code.
-/

namespace Colloquy.Text

/-- The code of a character in hexadecimal, in braces. -/
def codeEscape (c : Char) : String :=
  "\\u\x7b" ++ String.ofList (Nat.toDigits 16 c.toNat) ++ "\x7d"

/-- A character as it stands in an escaped string. -/
def escapeChar (c : Char) : String :=
  if c = '"' then "\\\""
  else if c = '\\' then "\\\\"
  else if c = '\n' then "\\n"
  else if c = '\r' then "\\r"
  else if c = '\t' then "\\t"
  else if c = '\x00' then "\\0"
  else if isUnprinted c then codeEscape c
  else c.toString

/-- A string between double quotes with its escapes. -/
def escaped (s : String) : String := "\"" ++ String.join (s.toList.map escapeChar) ++ "\""

/-- Strings in brackets, with commas between them. -/
def escapedList (ss : List String) : String := "[" ++ ", ".intercalate (ss.map escaped) ++ "]"

end Colloquy.Text
